import Mnu.Task.Stacks

/-!
# `Mnu.Task.StackMoves` — how holds on the stacks move

The steps of the machine, as moves of holds: a stack operation takes its hold from one place to the next
(`SlotsInv.stackStep`), a frame is replaced by others (`StackInv.frameStep`), a thread enters the queue with
the stack that its spawner held (`StackInv.grow`), a save hands the holds of the code to the context and a
load hands them back (`StackInv.save`, `StackInv.load`). They are stated over the queue, the CPUs, the
retirement cells and the slots, not over the state of the machine.
-/

namespace Mnu.Task

open Lib ThreadQueue Function

variable {n : Nat} {frames rest : List Frame} {cpu : Cpu}

/-! ## Code -/

/-- Frames that neither hold nor retire a stack. -/
def Frame.idle (f : Frame) : Prop := f.hold = none ∧ f.parks = none

theorem Followed.append (hframes : ∀ f ∈ frames, f.parks = none)
    (hrest : Followed rest) : Followed (frames ++ rest) := by
  induction frames with
  | nil => exact hrest
  | cons f frames ih =>
    refine ⟨?_, ih fun g hg => hframes g (List.mem_cons_of_mem f hg)⟩
    rw [hframes f List.mem_cons_self]
    intro hsome
    cases hsome

theorem Followed.of_append (h : Followed (frames ++ rest)) : Followed rest := by
  induction frames with
  | nil => exact h
  | cons f frames ih => exact ih h.2

theorem Followed.of_no_parks {code : List Frame} (h : ∀ f ∈ code, f.parks = none) : Followed code := by
  have happ : Followed (code ++ []) := Followed.append h trivial
  rwa [List.append_nil] at happ

theorem codeHolds_idle (h : ∀ f ∈ frames, f.idle) (i : Fin 64) : codeHolds i frames = 0 :=
  codeHolds_eq_zero (fun f hf => (h f hf).1) i

/-- Outside the end of an exit the mode has nothing to do with stacks. -/
theorem Mode.calm {mode : Mode} (h : mode.exiting = false) :
    mode.hold = none ∧ mode.parks = none ∧ ∀ id base x slot, mode ≠ .exitRemove id base x slot := by
  cases mode with
  | exitRemove id base x slot | exitStack op x slot => cases h
  | _ => exact ⟨rfl, rfl, fun _ _ _ _ => nofun⟩

/-! ## Stack operations -/

/-- **One step of a stack operation**, from the state `cpus` in which CPU `c` has already let go of the
    operation: the slot passes on to the operation that follows, to the retirement cell, or to nobody. -/
theorem SlotsInv.stackStep {s : State n} {c : Fin n} {ok : Bool} {op : StackOp} {cpus : Fin n → Cpu}
    {old : Cpu} (hs : SlotsInv s.queue s.cpus s.retired s.kstackSlots)
    (h : SlotsInv s.queue cpus s.retired s.kstackSlots) (hsame : SameStacks s.cpus cpus)
    (hop : ∀ u i, op.hold = some (u, i) → Holds s.queue.threads s.cpus s.retired (some c) u i ∧
      holders s.queue.threads cpus s.retired i = 0)
    (hown : ∀ base, op.parks = some base → (s.cpus c).stack = base)
    (hc : cpus c = old) (hstack : cpu.stack = old.stack) (hrun : cpu.running = old.running)
    (hheld : cpu.held.Subperm (((s.stackStep c ok op).2.bind StackOp.hold).toList ++ old.held)) :
    SlotsInv s.queue (update cpus c cpu)
      (s.stackStep c ok op).1.retired (s.stackStep c ok op).1.kstackSlots := by
  -- Without a successor the CPU has only dropped its hold.
  have hdrop : ∀ {retired slots}, SlotsInv s.queue cpus retired slots →
      (s.stackStep c ok op).2.bind StackOp.hold = none →
        SlotsInv s.queue (update cpus c cpu) retired slots := by
    intro retired slots hr hnone
    rw [hnone] at hheld
    exact hr.drop hc hstack hrun hheld
  -- With one it is handed the slot.
  have hgive : ∀ {retired slots u j}, SlotsInv s.queue cpus retired slots →
      (s.stackStep c ok op).2.bind StackOp.hold = some (u, j) →
      holders s.queue.threads cpus retired j = 0 → u.Fits (slots j) →
      (∀ d, (s.cpus d).stack = .slot j → Mine d (s.cpus d).running (some c) u) →
      SlotsInv s.queue (update cpus c cpu) retired slots := by
    intro retired slots u j hr hsome hfree hfits hmine
    rw [hsome] at hheld
    refine hr.give hc hstack hrun hfree hheld hfits ?_
    intro d hd
    rw [(hsame d).1] at hd
    rw [(hsame d).2]
    exact hmine d hd
  cases op with
  | retire base =>
    cases base with
    | outside => exact hdrop h rfl
    | slot j =>
      obtain ⟨hbefore, hfree⟩ := hop .parked j rfl
      by_cases hcond : (s.kstackSlots j).mark = .mapped ∧ ok = true
      · have heq : s.stackStep c ok (.retire (.slot j)) = (s, some (.swap (.slot j))) := if_pos hcond
        rw [heq] at hgive ⊢
        exact hgive h rfl hfree ((hs j).fits _ _ hbefore) fun d hd => (hs j).mine d hd _ _ hbefore
      · have heq : s.stackStep c ok (.retire (.slot j)) =
            (s.setStack j { s.kstackSlots j with mark := .reserved }, none) := if_neg hcond
        rw [heq] at hdrop ⊢
        refine hdrop (h.setSlot hfree nofun ?_) rfl
        intro d hd
        exact (h j).pages d hd
  | swap base =>
    -- First the cell gets its new content, then what was in it is handed on.
    have hclear : SlotsInv s.queue cpus (update s.retired c none) s.kstackSlots :=
      h.clearRetired c rfl
    have hempty : update s.retired c none c = none := update_self ..
    have hput : SlotsInv s.queue cpus (update s.retired c (some base)) s.kstackSlots := by
      cases base with
      | outside => exact h.clearRetired c rfl
      | slot i =>
        obtain ⟨hbefore, hfree⟩ := hop .parked i rfl
        have hle := holders_setRetired s.queue.threads cpus s.retired i c none
        have hzero : retiredHolds i (none : Option StackBase) = 0 := rfl
        have hgiven := hclear.giveRetired (c := c) (j := i) (by omega) hempty ((hs i).fits _ _ hbefore) ?_
        · rwa [update_idem] at hgiven
        · intro d hd
          rw [(hsame d).1] at hd
          cases (hs i).parks hbefore hd
          rfl
    show SlotsInv s.queue _ (update s.retired c (some base)) s.kstackSlots
    cases hprev : s.retired c with
    | none => exact hdrop hput (by simp [State.stackStep, hprev])
    | some prev =>
      cases prev with
      | outside => exact hdrop hput (by simp [State.stackStep, hprev, StackOp.hold, StackBase.hold])
      | slot j =>
        have hbefore : Holds s.queue.threads s.cpus s.retired (some c) .parked j := .retired hprev
        have hsingle := (h j).single
        have hle := holders_setRetired s.queue.threads cpus s.retired j c (some base)
        have hone : retiredHolds j (s.retired c) = 1 := by
          rw [hprev]
          exact weight_self rfl
        have hne : base ≠ .slot j := by
          rintro rfl
          have hfree := (hop .parked j rfl).2
          have hpos := (Holds.retired hprev : Holds s.queue.threads cpus s.retired _ _ j).pos
          omega
        have hzero : retiredHolds j (some base) = 0 := by
          cases base with
          | outside => rfl
          | slot i => exact if_neg fun hij => hne (by rw [hij])
        have hfits : Use.freeing.Fits (s.kstackSlots j) := (hs j).fits (some c) .parked hbefore
        refine hgive hput (by simp [State.stackStep, hprev, StackOp.hold, StackBase.hold]) (by omega) hfits ?_
        intro d hd
        cases (hs j).parks hbefore hd
        exact absurd ((hown base rfl).symm.trans hd) hne
  | free base =>
    cases base with
    | outside => exact hdrop h rfl
    | slot j =>
      obtain ⟨hbefore, hfree⟩ := hop .freeing j rfl
      obtain ⟨hmark, hpages⟩ := (hs j).fits _ _ hbefore
      have hunused := (hs j).unused hbefore rfl
      have heq : s.stackStep c ok (.free (.slot j)) =
          (s.setStack j { s.kstackSlots j with mark := .reserved }, some (.release j)) := if_pos hmark
      rw [heq] at hgive ⊢
      have hset : SlotsInv s.queue cpus s.retired
          (update s.kstackSlots j { s.kstackSlots j with mark := .reserved }) :=
        h.setSlot hfree nofun fun d _ => hpages
      refine hgive hset rfl hfree ?_ fun d hd => absurd hd (hunused d)
      show Use.releasing.Fits (update s.kstackSlots j _ j)
      rw [update_self]
      exact ⟨rfl, hpages⟩
  | release j =>
    obtain ⟨hbefore, hfree⟩ := hop .releasing j rfl
    have hunused := (hs j).unused hbefore rfl
    refine hdrop (h.setSlot hfree (fun _ => rfl) ?_) rfl
    intro d hd
    rw [(hsame d).1] at hd
    exact absurd hd (hunused d)

/-! ## Frames -/

section Frames

variable {q q' : Queue n} {cpus : Fin n → Cpu} {retired retired' : Fin n → Option StackBase}
  {slots slots' : Fin 64 → KernelStackSlot} {c : Fin n} {f : Frame} {frames rest : List Frame}
  (h : SlotsInv q (update cpus c { cpus c with code := rest }) retired slots)

/-- **A frame is replaced by others**, once the slots are accounted for. -/
theorem StackInv.frameStep (h : StackInv q cpus retired slots) (hmode : (cpus c).mode = .run)
    (hcode : (cpus c).code = f :: rest) (hq : Shrinks q q') (hkeep : ∀ d, KeepsBase q' (cpus d))
    (hret : ∀ d, d ≠ c → retired' d = retired d)
    (hslots : SlotsInv q' (update cpus c { cpus c with code := frames ++ rest }) retired' slots')
    (hown : ∀ g ∈ frames, ∀ base, g.parks = some base →
      (cpus c).stack = base ∧ ∀ slot t, q'.threads slot = some t → (cpus c).running ≠ some t.id)
    (hfollowed : Followed rest → Followed (frames ++ rest))
    (hdoomed : ∀ i, retired' c = some (.slot i) → (cpus c).stack = .slot i → doomed (frames ++ rest) = true)
    (hunrun : ∀ id, .terminateRemove id ∈ frames → Unrun q' cpus id) :
    StackInv q' (update cpus c { cpus c with code := frames ++ rest }) retired' slots' := by
  have hmem : ∀ g ∈ rest, g ∈ (cpus c).code := fun g hg => hcode ▸ List.mem_cons_of_mem f hg
  have hrun : (cpus c).mode.exiting = false := by rw [hmode]; rfl
  refine h.step hq (fun d _ => hkeep d) hret rfl rfl hslots
    ⟨?_, by simp [(Mode.calm hrun).2.1], ?_, by simp [hrun], hkeep c,
      fun i hr hon => .inl (hdoomed i hr hon)⟩ ?_
  · intro g hg base hbase
    rcases List.mem_append.mp hg with hnew | hold
    · exact hown g hnew base hbase
    · exact ((h.cpu c).shrink hq (hkeep c)).own g (hmem g hold) base hbase
  · have hfol := (h.cpu c).followed
    rw [hcode] at hfol
    exact hfollowed hfol.2
  · intro id hid
    rcases List.mem_append.mp hid with hnew | hold
    · exact hunrun id hnew
    · exact hq.unrun (h.unrun id (.inl ⟨c, hmem _ hold⟩))

/-- The top frame is dropped; a slot it held is free then. -/
theorem SlotsInv.pop (h : SlotsInv q cpus retired slots) (hcode : (cpus c).code = f :: rest) :
    SlotsInv q (update cpus c { cpus c with code := rest }) retired slots ∧
      ∀ i, holders q.threads (update cpus c { cpus c with code := rest }) retired i +
        weight i f.hold = holders q.threads cpus retired i := by
  refine ⟨h.drop rfl rfl rfl ?_, ?_⟩
  · rw [Cpu.held, Cpu.held, hcode]
    exact (((List.sublist_cons_self f rest).filterMap _).append_right _).subperm
  · intro i
    have hcount := holders_setCpu q.threads cpus retired i c { cpus c with code := rest }
    have hnew : cpuHolds i { cpus c with code := rest } = codeHolds i rest + weight i (cpus c).mode.hold :=
      rfl
    have hold : cpuHolds i (cpus c) = weight i f.hold + codeHolds i rest + weight i (cpus c).mode.hold := by
      rw [cpuHolds, hcode, codeHolds_cons]
    omega

include h in
/-- Frames without holds are put on top. -/
theorem SlotsInv.pushIdle
    (hframes : ∀ g ∈ frames, g.hold = none) :
    SlotsInv q (update cpus c { cpus c with code := frames ++ rest }) retired slots := by
  rw [← update_idem { cpus c with code := rest }]
  refine h.drop (update_self ..) rfl rfl ?_
  rw [Cpu.held, List.filterMap_append, List.filterMap_eq_nil_iff.mpr hframes]
  exact .refl _

include h in
/-- The first frame of those put on top takes hold of a slot that was free after the old one was
    dropped. -/
theorem SlotsInv.pushHold {g : Frame} {u : Use} {j : Fin 64}
    (hg : g.hold = some (u, j)) (hframes : ∀ g ∈ frames, g.hold = none)
    (hfree : holders q.threads (update cpus c { cpus c with code := rest }) retired j = 0)
    (hfits : u.Fits (slots j)) (hmine : ∀ d, (cpus d).stack = .slot j → Mine d (cpus d).running (some c) u) :
    SlotsInv q (update cpus c { cpus c with code := (g :: frames) ++ rest }) retired slots := by
  have hsame : SameStacks cpus (update cpus c { cpus c with code := rest }) :=
    SameStacks.update rfl rfl
  rw [← update_idem { cpus c with code := rest }]
  refine h.give (update_self ..) rfl rfl hfree ?_ hfits ?_
  · rw [Cpu.held, List.filterMap_append, List.filterMap_cons_some hg, List.filterMap_eq_nil_iff.mpr hframes]
    exact .refl _
  · intro d hd
    rw [(hsame d).1] at hd
    rw [(hsame d).2]
    exact hmine d hd

/-- **A step that takes no stack and gives none up.** Frames that have nothing to do with stacks take the
    place of those on top, and the CPU may enter a mode that has nothing to do with them either. -/
theorem StackInv.quiet (old : List Frame) (h : StackInv q cpus retired slots)
    (hcode : (cpus c).code = old ++ rest) (hnew : cpu.code = frames ++ rest) (hq : Shrinks q q')
    (hkeep : ∀ d, d ≠ c → KeepsBase q' (cpus d)) (hrun : cpu.running = (cpus c).running)
    (hstack : cpu.stack = (cpus c).stack) (hframes : ∀ g ∈ frames, g.idle)
    (hdoomed : ∀ i, retired c = some (.slot i) → (cpus c).stack = .slot i → doomed (old ++ rest) = true →
      doomed (frames ++ rest) = true) (hload : ∀ new, (cpus c).mode ≠ .load new)
    (hhold : cpu.mode.hold = none) (hparks : cpu.mode.parks = none)
    (hexit : cpu.mode.exiting = true → doomed (frames ++ rest) = true) (hbase : KeepsBase q' cpu)
    (hunrun : ∀ id, .terminateRemove id ∈ frames → Unrun q' cpus id) :
    StackInv q' (update cpus c cpu) retired slots := by
  have hmem : ∀ g ∈ cpu.code, g ∈ (cpus c).code ∨ g ∈ frames := by
    intro g hg
    rw [hnew] at hg
    rcases List.mem_append.mp hg with hadd | hold
    · exact .inr hadd
    · exact .inl (hcode ▸ List.mem_append_right old hold)
  refine h.step hq hkeep (fun _ _ => rfl) hrun hstack ?_ ⟨?_, ?_, ?_, hnew ▸ hexit, hbase, ?_⟩ ?_
  · refine (SlotsInv.shrink h.slot hq).drop rfl hstack hrun ?_
    rw [Cpu.held, Cpu.held, hhold, hnew, hcode, List.filterMap_append,
      List.filterMap_eq_nil_iff.mpr fun g hg => (hframes g hg).1]
    exact (((List.sublist_append_right old rest).filterMap _).append (List.nil_sublist _)).subperm
  · intro g hg base hbase
    rcases hmem g hg with hold | hadd
    · obtain ⟨hown, hgone⟩ := (h.cpu c).own g hold base hbase
      refine ⟨hstack.trans hown, fun slot t' ht' => ?_⟩
      obtain ⟨t, ht, hid, -, -⟩ := hq slot t' ht'
      rw [hrun, hid]
      exact hgone slot t ht
    · rw [(hframes g hadd).2] at hbase
      cases hbase
  · intro base hb
    rw [hparks] at hb
    cases hb
  · have hfol := (h.cpu c).followed
    rw [hcode] at hfol
    rw [hnew]
    exact hfol.of_append.append fun g hg => (hframes g hg).2
  · intro i hret hon
    rcases (h.cpu c).retired i hret (hstack ▸ hon) with hd | ⟨new, hload'⟩
    · rw [hcode] at hd
      rw [hnew]
      exact .inl (hdoomed i hret (hstack ▸ hon) hd)
    · exact absurd hload' (hload new)
  · intro id hid
    rcases hmem _ hid with hold | hadd
    · exact hq.unrun (h.unrun id (.inl ⟨c, hold⟩))
    · exact hunrun id hadd

end Frames

/-! ## Removing and adding a thread -/

section Removal

variable {q : Queue n} {cpus : Fin n → Cpu} {retired : Fin n → Option StackBase}
  {slots : Fin 64 → KernelStackSlot} {id : ThreadId} {t : Thread (Fin n) Context} {j : Fin 64}

theorem Shrinks.remove (hw : q.Wf) (id : ThreadId) : Shrinks q (q.remove id).1 := by
  intro slot t ht
  exact ⟨t, ((remove_threads hw id).mp ht).1, rfl, rfl, rfl⟩

theorem KeepsBase.remove (hw : q.Wf) (h : KeepsBase q cpu)
    (hne : ∀ x base y slot, cpu.mode = .exitRemove x base y slot → x ≠ id) :
    KeepsBase (q.remove id).1 cpu := by
  intro x base y slot hmode
  obtain ⟨i, t, ht, hid, hstack⟩ := h x base y slot hmode
  refine ⟨i, t, (remove_threads hw id).mpr ⟨ht, ?_⟩, hid, hstack⟩
  rw [hid]
  exact hne x (some base) y slot hmode

/-- The thread in a slot is the only one to hold its stack. -/
theorem SlotsInv.only_thread {slot : Slot} (h : SlotsInv q cpus retired slots)
    (ht : q.threads slot = some t) (hk : t.kernelStack = .slot j) :
    holders (update q.threads slot none) cpus retired j = 0 ∧
      (t.context.saved = true → codeHolds j t.context.code = 0) := by
  have hcount := holders_setThread q.threads cpus retired j slot none
  have hsingle := (h j).single
  have hone : weight j (t.kernelStack.hold (.thread t.id)) = 1 := by
    rw [hk]
    exact weight_self rfl
  rw [ht] at hcount
  simp only [threadHolds, hone] at hcount
  refine ⟨by omega, fun hsaved => ?_⟩
  rw [if_pos hsaved] at hcount
  omega

/-- The stack of a removed thread is free. -/
theorem SlotsInv.free_of_remove
    (h : SlotsInv q cpus retired slots) (hremove : (q.remove id).2 = some t)
    (hstack : t.kernelStack = .slot j) : holders (q.remove id).1.threads cpus retired j = 0 := by
  obtain ⟨slot, ht, -, hthreads, -⟩ := remove_eq_some hremove
  rw [hthreads]
  exact (h.only_thread ht hstack).1

/-- A new thread, with a fresh id and an empty context. -/
theorem StackInv.grow {q' : Queue n} {free : Slot} (h : StackInv q cpus retired slots)
    (hslot : q.threads free = none) (hthreads : q'.threads = update q.threads free (some t))
    (hcode : t.context.code = []) (hfresh : ∀ d, (cpus d).running ≠ some t.id)
    (hslots : SlotsInv q' cpus retired slots) : StackInv q' cpus retired slots := by
  have hcases : ∀ slot u, q'.threads slot = some u → q.threads slot = some u ∨ u = t := by
    intro slot u hu
    rw [hthreads] at hu
    rcases of_update_eq hu with ⟨rfl, ⟨⟩⟩ | ⟨-, hu⟩
    · exact .inr rfl
    · exact .inl hu
  refine ⟨hslots, ?_, ?_, ?_, h.boot⟩
  · intro d
    refine ⟨?_, (h.cpu d).ownMode, (h.cpu d).followed, (h.cpu d).exiting, ?_, (h.cpu d).retired⟩
    · intro f hf base hbase
      obtain ⟨hstack, hgone⟩ := (h.cpu d).own f hf base hbase
      refine ⟨hstack, fun slot u hu => ?_⟩
      rcases hcases slot u hu with hold | rfl
      · exact hgone slot u hold
      · exact hfresh d
    · intro id base x slot hmode
      obtain ⟨i, u, hu, hid, hk⟩ := (h.cpu d).base id base x slot hmode
      have hne : i ≠ free := by
        rintro rfl
        rw [hslot] at hu
        cases hu
      exact ⟨i, u, by rw [hthreads, update_of_ne hne]; exact hu, hid, hk⟩
  · intro slot u hu hsaved
    rcases hcases slot u hu with hold | rfl
    · exact h.context slot u hold hsaved
    · rw [hcode]
      intro f hf
      cases hf
  · intro id hf slot u hu heq d
    have hbefore : HasFrame q cpus (.terminateRemove id) := by
      rcases hf with hcpu | ⟨i, v, hv, hsaved, hmem⟩
      · exact .inl hcpu
      · rcases hcases i v hv with hold | rfl
        · exact .inr ⟨i, v, hold, hsaved, hmem⟩
        · rw [hcode] at hmem
          cases hmem
    rcases hcases slot u hu with hold | rfl
    · exact h.unrun id hbefore slot u hold heq d
    · rw [← heq]
      exact hfresh d

end Removal

/-! ## Contexts -/

section Contexts

variable {q : Queue n} {cpus : Fin n → Cpu} {retired : Fin n → Option StackBase}
  {slots : Fin 64 → KernelStackSlot} {c : Fin n} {cpu : Cpu} {slot : Slot} {t t' : Thread (Fin n) Context}

/-- The context of a thread is replaced; nothing else about the threads changes. -/
theorem put_context_cases {i : Slot} {u : Thread (Fin n) Context}
    (ht : q.threads slot = some t) (hid : t'.id = t.id) (hstack : t'.kernelStack = t.kernelStack)
    (hu : (q.put slot t').threads i = some u) :
    ∃ v, q.threads i = some v ∧ u.id = v.id ∧ u.kernelStack = v.kernelStack ∧
      ((i = slot ∧ u = t') ∨ (i ≠ slot ∧ u = v)) := by
  rcases put_cases hu with ⟨rfl, rfl⟩ | ⟨hne, hu⟩
  · exact ⟨t, ht, hid, hstack, .inl ⟨rfl, rfl⟩⟩
  · exact ⟨u, hu, rfl, rfl, .inr ⟨hne, rfl⟩⟩

/-- What the CPUs know about their stacks does not depend on contexts. -/
theorem CpuStackInv.put {r : Option StackBase} (h : CpuStackInv q r cpu)
    (ht : q.threads slot = some t) (hid : t'.id = t.id)
    (hstack : t'.kernelStack = t.kernelStack) : CpuStackInv (q.put slot t') r cpu where
  own := by
    intro f hf base hbase
    obtain ⟨hown, hgone⟩ := h.own f hf base hbase
    refine ⟨hown, fun i u hu => ?_⟩
    obtain ⟨v, hv, huv, -, -⟩ := put_context_cases ht hid hstack hu
    rw [huv]
    exact hgone i v hv
  ownMode := h.ownMode
  followed := h.followed
  exiting := h.exiting
  base := by
    intro x base y slot' hmode
    obtain ⟨i, u, hu, hux, hub⟩ := h.base x base y slot' hmode
    by_cases hi : i = slot
    · subst hi
      rw [ht] at hu
      cases hu
      exact ⟨i, t', update_self .., hid.trans hux, hstack.trans hub⟩
    · exact ⟨i, u, by simp only [ThreadQueue.put, update_of_ne hi, hu], hux, hub⟩
  retired := h.retired

/-- **Saving**: the holds of the frames move into the context. None of them retires the stack, because the
    thread is in the queue. -/
theorem StackInv.save {new : Slot} (h : StackInv q cpus retired slots) (ht : q.threads slot = some t)
    (hrun : (cpus c).running = some t.id) (hid : t'.id = t.id) (hstack : t'.kernelStack = t.kernelStack)
    (hcode : t'.context.code = (cpus c).code) :
    StackInv (q.put slot t') (update cpus c { cpus c with mode := .load new, code := [] }) retired
      slots := by
  have hparks : ∀ f ∈ (cpus c).code, f.parks = none := by
    intro f hf
    cases hp : f.parks with
    | none => rfl
    | some base => exact absurd hrun (((h.cpu c).own f hf base hp).2 slot t ht)
  have hsame : SameStacks cpus (update cpus c { cpus c with mode := .load new, code := [] }) :=
    SameStacks.update rfl rfl
  have hholds : ∀ o u i, Holds (q.put slot t').threads
      (update cpus c { cpus c with mode := .load new, code := [] }) retired o u i →
      ∃ o', Holds q.threads cpus retired o' u i ∧ (o' = o ∨ u.loose = true) := by
    intro o u i hu
    rcases hu.of_setCpu with hold | ⟨-, ⟨f, hf, -⟩ | hmode⟩
    · rcases hold.of_setThread with hblank | ⟨rfl, ⟨rfl, hk⟩ | ⟨-, f, hf, hfh⟩⟩
      · exact ⟨o, hblank.of_blank, .inl rfl⟩
      · rw [hid]
        exact ⟨none, .thread ht (hstack ▸ hk), .inl rfl⟩
      · rw [hcode] at hf
        exact ⟨some c, .code hf hfh, .inr (Frame.loose_of_hold hfh (hparks f hf))⟩
    · cases hf
    · cases hmode
  refine ⟨?_, ?_, ?_, ?_, ?_⟩
  · intro i
    refine (h.slot i).relabel hsame ?_ fun o u => hholds o u i
    have hcpu := holders_setCpu (q.put slot t').threads cpus retired i c
      { cpus c with mode := .load new, code := [] }
    have hput := holders_setThread q.threads cpus retired i slot (some t')
    have hzero : cpuHolds i { cpus c with mode := .load new, code := [] } = 0 := rfl
    have hold : cpuHolds i (cpus c) = codeHolds i (cpus c).code + weight i (cpus c).mode.hold := rfl
    rw [ht] at hput
    simp only [threadHolds, hid, hstack, hcode] at hput
    change holders (q.put slot t').threads cpus retired i + _ = _ at hput
    split at hput <;> split at hput <;> omega
  · intro d
    by_cases hd : d = c
    · subst hd
      rw [update_self]
      exact ⟨by simp, by simp [Mode.parks], trivial, by simp [Mode.exiting], by simp,
        fun _ _ _ => .inr ⟨new, rfl⟩⟩
    · rw [update_of_ne hd]
      exact (h.cpu d).put ht hid hstack
  · intro i u hu hsaved f hf
    obtain ⟨v, hv, -, -, ⟨-, rfl⟩ | ⟨-, rfl⟩⟩ := put_context_cases ht hid hstack hu
    · exact hparks f (hcode ▸ hf)
    · exact h.context i u hv hsaved f hf
  · intro x hx
    have hbefore : HasFrame q cpus (.terminateRemove x) := by
      rcases hx with ⟨d, hd⟩ | ⟨i, u, hu, hsaved, hf⟩
      · rcases of_update (P := fun cpu : Cpu => .terminateRemove x ∈ cpu.code) hd with ⟨rfl, ⟨⟩⟩ | ⟨-, hd⟩
        exact .inl ⟨d, hd⟩
      · obtain ⟨v, hv, -, -, ⟨-, rfl⟩ | ⟨-, rfl⟩⟩ := put_context_cases ht hid hstack hu
        · exact .inl ⟨c, hcode ▸ hf⟩
        · exact .inr ⟨i, u, hv, hsaved, hf⟩
    intro i u hu heq d
    obtain ⟨v, hv, huv, -, -⟩ := put_context_cases ht hid hstack hu
    rw [(hsame d).2]
    exact h.unrun x hbefore i v hv (huv.symm.trans heq) d
  · intro d hd
    rw [(hsame d).2] at hd
    rw [(hsame d).1]
    exact h.boot d hd

/-- A stack in a retirement cell is not the stack of a thread in the queue. -/
theorem SlotsInv.retired_ne {i : Fin 64} (h : SlotsInv q cpus retired slots)
    (hret : retired c = some (.slot i)) (ht : q.threads slot = some t) : t.kernelStack ≠ .slot i := by
  intro hk
  have hpos := (Holds.retired hret : Holds (update q.threads slot none) cpus retired _ _ i).pos
  have hfree := (h.only_thread ht hk).1
  omega

/-- **Loading**: the holds of the context move into the code of the CPU, which is now on the stack of the
    thread. -/
theorem StackInv.load {next : ThreadId} (h : StackInv q cpus retired slots) (hc : Inv q cpus next)
    (hmode : (cpus c).mode = .load slot) (ht : q.threads slot = some t) (hid : t'.id = t.id)
    (hstack : t'.kernelStack = t.kernelStack) (hsaved : t'.context.saved = false)
    (hcode : cpu.code = t.context.code) (hcpu : cpu.stack = t.context.stack)
    (hrun : cpu.running = some t.id) {b : Bool} (hack : cpu.mode = .ack b) :
    StackInv (q.put slot t') (update cpus c cpu) retired slots := by
  have hload := hc.modeInv hmode
  obtain ⟨⟨u, hu⟩, -⟩ := hload
  have huu := hu.here
  rw [ht] at huu
  cases huu
  have hon : cpu.stack = t.kernelStack := hcpu.trans (hc.ctx slot t ht hu.saved).stack
  have hparks : ∀ f ∈ cpu.code, f.parks = none := fun f hf => h.context slot t ht hu.saved f (hcode ▸ hf)
  have hothers : ∀ d, d ≠ c → (cpus d).running ≠ some t.id :=
    fun d hd => (hc.others_of_owner ht hu.owner hd).1
  -- Where a hold was before: in its place, or in the context that was loaded.
  have hholds : ∀ o v i, Holds (q.put slot t').threads (update cpus c cpu) retired o v i →
      (o = none ∧ v = .thread t.id ∧ t.kernelStack = .slot i) ∨
      Holds (update q.threads slot none) cpus retired o v i ∨
      (v.loose = true ∧ ∃ f ∈ t.context.code, f.hold = some (v, i)) := by
    intro o v i hv
    rcases hv.of_setCpu with hold | ⟨-, ⟨f, hf, hfh⟩ | hm⟩
    · rcases hold.of_setThread with hblank | ⟨rfl, ⟨rfl, hk⟩ | ⟨hs, -⟩⟩
      · exact .inr (.inl hblank)
      · rw [hid]
        exact .inl ⟨rfl, rfl, hstack ▸ hk⟩
      · rw [hsaved] at hs
        cases hs
    · exact .inr (.inr ⟨Frame.loose_of_hold hfh (hparks f hf), f, hcode ▸ hf, hfh⟩)
    · rw [hack] at hm
      cases hm
  have hold : ∀ o v i, Holds (q.put slot t').threads (update cpus c cpu) retired o v i →
      ∃ o', Holds q.threads cpus retired o' v i ∧ (o' = o ∨ v.loose = true) := by
    intro o v i hv
    rcases hholds o v i hv with ⟨rfl, rfl, hk⟩ | hblanked | ⟨hloose, f, hf, hfh⟩
    · exact ⟨none, .thread ht hk, .inl rfl⟩
    · exact ⟨o, hblanked.of_blank, .inl rfl⟩
    · exact ⟨none, .context ht hu.saved hf hfh, .inr hloose⟩
  refine ⟨?_, ?_, ?_, ?_, ?_⟩
  · intro i
    have hle : holders (q.put slot t').threads (update cpus c cpu) retired i ≤
      holders q.threads cpus retired i := by
      have hset := holders_setCpu (q.put slot t').threads cpus retired i c cpu
      have hput := holders_setThread q.threads cpus retired i slot (some t')
      have hnew : cpuHolds i cpu = codeHolds i t.context.code := by
        rw [cpuHolds, hack, hcode]
        rfl
      rw [ht] at hput
      simp only [threadHolds, hid, hstack, hsaved, hu.saved, if_true, Bool.false_eq_true, if_false,
        Nat.add_zero] at hput
      change holders (q.put slot t').threads cpus retired i + _ = _ at hput
      omega
    have hmine : t.kernelStack = .slot i → Holds q.threads cpus retired none (.thread t.id) i :=
      fun hk => .thread ht hk
    have hstacks : ∀ d, (update cpus c cpu d).stack = .slot i →
        (d = c ∧ t.kernelStack = .slot i) ∨ (d ≠ c ∧ (cpus d).stack = .slot i) := by
      intro d hd
      by_cases hdc : d = c
      · subst hdc
        rw [update_self, hon] at hd
        exact .inl ⟨rfl, hd⟩
      · rw [update_of_ne hdc] at hd
        exact .inr ⟨hdc, hd⟩
    -- Another CPU on the same stack would be running the thread.
    have hfar : ∀ d, d ≠ c → (cpus d).stack = .slot i → t.kernelStack ≠ .slot i := by
      intro d hd hdi hk
      exact hothers d hd ((h.slot i).runs (hmine hk) hdi)
    refine ⟨Nat.le_trans hle (h.slot i).single, ?_, ?_, ?_, ?_, ?_⟩
    · intro o v hv
      obtain ⟨o', hv', -⟩ := hold o v i hv
      exact (h.slot i).fits o' v hv'
    · intro hmark
      obtain ⟨hzero, hpages⟩ := (h.slot i).empty hmark
      exact ⟨by omega, hpages⟩
    · intro d hd
      rcases hstacks d hd with ⟨-, hk⟩ | ⟨-, hdi⟩
      · exact ((h.slot i).fits _ _ (hmine hk)).2
      · exact (h.slot i).pages d hdi
    · intro d hd o v hv
      rcases hstacks d hd with ⟨rfl, hk⟩ | ⟨hdc, hdi⟩
      · rw [update_self]
        obtain ⟨hfree, hnone⟩ := SlotsInv.only_thread h.slot ht hk
        rcases hholds o v i hv with ⟨-, rfl, -⟩ | hblanked | ⟨-, f, hf, hfh⟩
        · exact .inl ⟨t.id, rfl, hrun⟩
        · have := hblanked.pos
          omega
        · have := codeHolds_pos hf hfh
          have := hnone hu.saved
          omega
      · rw [update_of_ne hdc]
        obtain ⟨o', hv', rfl | hloose⟩ := hold o v i hv
        · exact (h.slot i).mine d hdi _ v hv'
        · exact absurd hdi ((h.slot i).unused hv' hloose d)
    · intro d e hd he
      rcases hstacks d hd with ⟨rfl, hk⟩ | ⟨hdc, hdi⟩ <;> rcases hstacks e he with ⟨rfl, hk'⟩ | ⟨hec, hei⟩
      · rfl
      · exact absurd hk (hfar e hec hei)
      · exact absurd hk' (hfar d hdc hdi)
      · exact (h.slot i).alone d e hdi hei
  · intro d
    by_cases hd : d = c
    · subst hd
      rw [update_self]
      refine ⟨?_, by simp [hack, Mode.parks], .of_no_parks hparks,
        by simp [hack, Mode.exiting], by simp [hack],
        fun i hr hi => absurd (hon ▸ hi) (SlotsInv.retired_ne h.slot hr ht)⟩
      intro f hf base hb
      rw [hparks f hf] at hb
      cases hb
    · rw [update_of_ne hd]
      exact (h.cpu d).put ht hid hstack
  · intro i v hv hvs f hf
    rcases put_cases hv with ⟨rfl, rfl⟩ | ⟨-, hv⟩
    · rw [hsaved] at hvs
      cases hvs
    · exact h.context i v hv hvs f hf
  · intro x hx
    have hbefore := hx.load ht hu.saved hsaved hcode
    intro i v hv heq d
    obtain ⟨w, hw, hvw, -, -⟩ := put_context_cases ht hid hstack hv
    have hwx : w.id = x := hvw.symm.trans heq
    by_cases hdc : d = c
    · subst hdc
      rw [update_self, hrun]
      rintro ⟨rfl⟩
      -- The CPU announces the thread, so nobody plans to remove it.
      exact ((hc.gone _ hbefore).2 i w hw hwx).2 d (.inl hu.announced)
    · rw [update_of_ne hdc]
      exact h.unrun x hbefore i w hw hwx d
  · intro d hd
    by_cases hdc : d = c
    · subst hdc
      rw [update_self, hrun] at hd
      cases hd
    · rw [update_of_ne hdc] at hd ⊢
      exact h.boot d hd

end Contexts

end Mnu.Task
