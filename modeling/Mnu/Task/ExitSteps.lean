import Mnu.Task.Exit

/-!
# `Mnu.Task.ExitSteps` — no exit ends in a halt

The invariant `ExitInv` says why an exit does not end in a halt. A frame that halts is either below the
selection that finds a successor, or right below the yield of `terminate_thread`; and from that selection to
the switch the successor (`Cpu.heir`) stays alive. It holds in every state of a run of `sparing` steps
(`Leaving.step`), because such a step does not end the successor of a CPU that executes a dead thread
(`Consistent.victim_ne`).
-/

namespace Mnu.Task

open Lib ThreadQueue Function

variable {n : Nat} {rest : List Frame} {f : Frame}

/-! ## The invariant -/

/-- The halts at the end of a failed exit. -/
def HaltReason.ofExit : HaltReason → Bool
  | .exitSwitchReturned => true
  | .exitNoThread => true
  | .selfTerminated => true
  | .invalidContext => true
  | _ => false

/-- Modes that can return to the code of the CPU. -/
def Mode.returns : Mode → Bool
  | .run => true
  | .ack _ => true
  | .select .yield => true
  | .switchTo _ _ _ .resume => true
  | _ => false

/-- Where the dead ends in the code of a CPU are. -/
def Mode.Shields : Mode → List Frame → Prop
  | .run, code => Shielded false code
  | .ack _, code => Shielded false code
  | .select .yield, code => ∃ b rest, code = .restoreInterrupts b :: rest ∧ Shielded true rest
  | .switchTo _ _ _ .resume, code => ∃ b rest, code = .restoreInterrupts b :: rest ∧ Shielded true rest
  | _, _ => True

/-- The thread that stands between the CPU and a halt. -/
def Cpu.heir (cpu : Cpu) : Option ThreadId :=
  match cpu.mode with
  | .exitRead _ next _ => some next
  | .exitRemove _ _ next _ => some next
  | .exitStack _ next _ => some next
  | .switchTo none next _ (.halt .exitSwitchReturned) => some next
  | .switchTo none next _ .resume => if selfHalts cpu.code then some next else none
  | _ => none

/-- The invariant of one CPU. -/
structure CpuExit (cpu : Cpu) : Prop where
  shields : cpu.mode.Shields cpu.code
  late : cpu.mode.switching = false → ∀ f ∈ cpu.code, f.late = true → cpu.current = none
  /-- A CPU that announces no thread does not return to the code of one. -/
  final : cpu.current = none → cpu.mode.returns = true → cpu.code.any Frame.final = true
  saves : ∀ old new, cpu.mode = .save (some old) new → ∀ f ∈ cpu.code, f.late = false
  reason : ∀ current next slot r, cpu.mode = .switchTo current next slot (.halt r) →
    (current = none ∧ r = .exitSwitchReturned) ∨ r.ofExit = false
  halted : ∀ r, cpu.mode = .halt r → r.ofExit = false

/-- The invariant of the exits. -/
structure ExitInv (q : Queue n) (cpus : Fin n → Cpu) : Prop where
  cpu : ∀ c, CpuExit (cpus c)
  context : ∀ slot t, q.threads slot = some t → t.context.saved = true → ∀ f ∈ t.context.code, f.late = false
  heir : ∀ c x, (cpus c).heir = some x → q.Live x

/-- The state satisfies the invariant of the exits. -/
abbrev State.Leaving (s : State n) : Prop := ExitInv s.queue s.cpus

theorem Frame.deadEnd_of_late (h : f.late = false) : f.deadEnd = false := by
  cases f with
  | exit id pc | terminateSelf id pc => cases pc <;> first | rfl | cases h
  | _ => rfl

/-- Code without late frames is shielded. -/
theorem Shielded.of_not_late {code : List Frame} (h : ∀ f ∈ code, f.late = false) : Shielded false code :=
  .of_no_dead_ends (fun f hf => Frame.deadEnd_of_late (h f hf)) false

/-- Code below a yield that is not the one of `terminate_thread`. -/
theorem Shielded.returns {b : Bool} (h : Shielded true rest)
    (hnot : selfHalts (.restoreInterrupts b :: rest) = false) :
    Shielded false (.restoreInterrupts b :: rest) := by
  refine ⟨nofun, ?_⟩
  cases rest with
  | nil => trivial
  | cons f rest =>
    refine ⟨fun hd => ?_, h.2⟩
    obtain ⟨-, id, rfl⟩ := h.1 hd
    cases hnot

section Update

variable {q q' : Queue n} {cpus : Fin n → Cpu} {c : Fin n} {cpu : Cpu} {victim : Option ThreadId}

theorem CpuExit.no_late {x : ThreadId} (h : CpuExit cpu) (hsw : cpu.mode.switching = false)
    (hcur : cpu.current = some x) : ∀ f ∈ cpu.code, f.late = false := by
  intro f hf
  cases hlate : f.late with
  | false => rfl
  | true =>
    rw [h.late hsw f hf hlate] at hcur
    cases hcur

/-- The yield of `terminate_thread` is a late frame. -/
theorem CpuExit.current_of_selfHalts (h : CpuExit cpu) (hsw : cpu.mode.switching = false)
    (hself : selfHalts cpu.code = true) : cpu.current = none := by
  generalize hcode : cpu.code = code at hself
  unfold selfHalts at hself
  split at hself
  · exact h.late hsw _ (hcode ▸ List.mem_cons_of_mem _ List.mem_cons_self) rfl
  · cases hself

theorem ExitInv.treats {next : ThreadId} (h : ExitInv q cpus) (hq : Treats next victim q q')
    (hvictim : ∀ d x, (cpus d).heir = some x → victim ≠ some x) : ExitInv q' cpus where
  cpu := h.cpu
  context := by
    intro slot t' ht' hsaved f hf
    rcases hq.contexts slot t' ht' hsaved with hnil | ⟨t, ht, hctx⟩
    · rw [hnil] at hf
      cases hf
    · exact h.context slot t ht (hctx ▸ hsaved) f (hctx ▸ hf)
  heir := fun d x hx => hq.spares.live (h.heir d x hx) (hvictim d x hx)

theorem ExitInv.setCpu (h : ExitInv q cpus) (hcpu : CpuExit cpu)
    (hheir : ∀ x, cpu.heir = some x → q.Live x) : ExitInv q (update cpus c cpu) where
  cpu := by
    intro d
    by_cases hd : d = c
    · subst hd
      rw [update_self]
      exact hcpu
    · rw [update_of_ne hd]
      exact h.cpu d
  context := h.context
  heir := by
    intro d x hx
    rcases of_update (P := fun cpu : Cpu => cpu.heir = some x) hx with ⟨-, hx⟩ | ⟨-, hx⟩
    · exact hheir x hx
    · exact h.heir d x hx

/-- A context is written. -/
theorem ExitInv.putContext {slot : Slot} {t t' : Thread (Fin n) Context} (h : ExitInv q cpus)
    (ht : q.threads slot = some t) (hid : t'.id = t.id) (hstate : t'.state = t.state)
    (hcode : t'.context.saved = true → ∀ f ∈ t'.context.code, f.late = false) :
    ExitInv (q.put slot t') cpus where
  cpu := h.cpu
  context := by
    intro i u hu hsaved
    rcases put_cases hu with ⟨rfl, rfl⟩ | ⟨-, hu⟩
    · exact hcode hsaved
    · exact h.context i u hu hsaved
  heir := by
    intro d x hx
    have hspares : Spares none q (q.put slot t') := spares_put ht hid fun halive _ => hstate ▸ halive
    exact hspares.live (h.heir d x hx) nofun

/-- A CPU that runs frames. -/
theorem CpuExit.of_run (hmode : cpu.mode = .run) (hshield : Shielded false cpu.code)
    (hlate : ∀ f ∈ cpu.code, f.late = true → cpu.current = none)
    (hfinal : cpu.current = none → cpu.code.any Frame.final = true) : CpuExit cpu ∧ cpu.heir = none := by
  refine ⟨⟨?_, fun _ => hlate, fun hnone _ => hfinal hnone, ?_, ?_, ?_⟩, by simp only [Cpu.heir, hmode]⟩
  · rw [hmode]
    exact hshield
  · intro old new hm
    rw [hmode] at hm
    cases hm
  · intro current next slot r hm
    rw [hmode] at hm
    cases hm
  · intro r hm
    rw [hmode] at hm
    cases hm

theorem ExitInv.setRun (h : ExitInv q cpus) (hmode : cpu.mode = .run) (hshield : Shielded false cpu.code)
    (hlate : ∀ f ∈ cpu.code, f.late = true → cpu.current = none)
    (hfinal : cpu.current = none → cpu.code.any Frame.final = true) : ExitInv q (update cpus c cpu) := by
  obtain ⟨hcpu, hheir⟩ := CpuExit.of_run hmode hshield hlate hfinal
  refine h.setCpu hcpu fun x hx => ?_
  rw [hheir] at hx
  cases hx

/-- A yield that returns. -/
theorem ExitInv.toRun (h : ExitInv q cpus) (hsw : (cpus c).mode.switching = false)
    (hret : (cpus c).mode.returns = true) (hshield : Shielded false (cpus c).code) :
    ExitInv q (update cpus c { cpus c with mode := .run }) :=
  h.setRun rfl hshield ((h.cpu c).late hsw) fun hnone => (h.cpu c).final hnone hret

end Update

/-! ## Frames -/

/-- Running a frame keeps the invariant of the CPU, and it has no heir afterwards. -/
theorem CpuExit.frame {cpu cpu' : Cpu} (h : CpuExit cpu)
    (hmode : cpu.mode = .run) (hcode : cpu.code = f :: rest) (hmoves : FrameMoves cpu rest f cpu') :
    CpuExit cpu' ∧ cpu'.heir = none := by
  have hshield := h.shields
  rw [hmode, hcode] at hshield
  have hsw : cpu.mode.switching = false := by rw [hmode]; rfl
  have hrest : ∀ g ∈ rest, g ∈ cpu.code := fun g hg => hcode ▸ List.mem_cons_of_mem f hg
  have hfinal : cpu.current = none → (f :: rest).any Frame.final = true :=
    fun hnone => hcode ▸ h.final hnone (by rw [hmode]; rfl)
  cases hmoves with
  | @go _ frames interrupts hne hgo =>
    refine CpuExit.of_run hmode ?_ ?_ ?_
    · have hbelow : Shielded false rest := by
        have htail := hshield.2
        rwa [decide_eq_false hne] at htail
      exact .append (fun g hg => Frame.deadEnd_of_late (hgo.late g hg)) hbelow false
    · intro g hg hlate
      rcases List.mem_append.mp hg with hnew | hold
      · rw [hgo.late g hnew] at hlate
        cases hlate
      · exact h.late hsw g (hrest g hold) hlate
    · intro hnone
      have hany := hfinal hnone
      rw [List.any_cons, Bool.or_eq_true] at hany
      show (frames ++ rest).any Frame.final = true
      rw [List.any_append, Bool.or_eq_true]
      exact hany.imp_left hgo.final
  | yield =>
    refine ⟨⟨⟨_, rest, rfl, hshield.2⟩, ?_, ?_, nofun, nofun, nofun⟩, rfl⟩
    · intro _ g hg hlate
      rcases List.mem_cons.mp hg with rfl | hold
      · cases hlate
      · exact h.late hsw g (hrest g hold) hlate
    · intro hnone _
      exact hfinal hnone
  | start =>
    refine ⟨⟨trivial, ?_, nofun, nofun, ?_, nofun⟩, rfl⟩
    · intro _ g hg hlate
      exact h.late hsw g (hrest g hg) hlate
    · rintro current next slot r ⟨⟩
      exact .inr rfl
  | fail =>
    refine ⟨⟨trivial, fun _ => h.late hsw, nofun, nofun, nofun, ?_⟩, rfl⟩
    rintro r ⟨⟩
    rfl
  | @clearSelf id =>
    exact CpuExit.of_run hmode ⟨nofun, fun _ => ⟨rfl, id, rfl⟩, hshield.2⟩ (fun _ _ _ => rfl) fun _ => rfl
  | @clearExit id => exact CpuExit.of_run hmode ⟨nofun, hshield.2⟩ (fun _ _ _ => rfl) fun _ => rfl
  | select =>
    have hnone : cpu.current = none := h.late hsw _ (hcode ▸ List.mem_cons_self) rfl
    exact ⟨⟨trivial, fun _ _ _ _ => hnone, nofun, nofun, nofun, nofun⟩, rfl⟩
  | halts hdead =>
    -- A shielded dead end is not at the head of the code.
    exact absurd (hshield.1 hdead).1 nofun

/-! ## The successor -/

namespace State

variable {s s' : State n} {c d : Fin n} {f : Frame} {rest : List Frame} {a : Answer} {x next : ThreadId}
  {current : Option ThreadId} {slot new : Slot} {after : AfterSwitch} {q : Queue n} {call : Call}
  (h : s.Leaving) (hc : s.Consistent) (hok : s.sparing (.step c a) = true)

/-- The successor belongs to the CPU that selected it, and that CPU does not run it yet. -/
theorem Consistent.successor_owned (h : s.Consistent) (hx : (s.cpus d).successor = some x) :
    OwnedBy s.queue d x ∧ (s.cpus d).running ≠ some x := by
  have hm := (h.cpu d).mode
  have hincoming : ∀ new t, Incoming s.queue d (s.cpus d) new t → (s.cpus d).current = some x →
      OwnedBy s.queue d x ∧ (s.cpus d).running ≠ some x := by
    intro new t ht hcur
    have hid : t.id = x := Option.some.inj (ht.announced.symm.trans hcur)
    refine ⟨fun slot u hu heq => ?_, hid ▸ ht.idle⟩
    cases h.wf.ids slot new u t hu ht.here (heq.trans hid.symm)
    rw [ht.here] at hu
    cases hu
    exact ht.owner
  unfold Cpu.successor at hx
  cases hmode : (s.cpus d).mode with rw [hmode] at hx hm
  | exitRead id next slot | exitRemove id base next slot =>
    cases hx
    exact ⟨hm.2.2.owner, hm.2.2.idle⟩
  | exitStack op next slot =>
    cases hx
    exact ⟨hm.2.owner, hm.2.idle⟩
  | switchTo current next slot after =>
    cases hx
    cases current with
    | none | some id => exact ⟨hm.2.owner, hm.2.idle⟩
  | save old new =>
    cases old with
    | none | some old =>
      obtain ⟨⟨t, ht⟩, -⟩ := hm
      exact hincoming new t ht hx
  | load new =>
    obtain ⟨⟨t, ht⟩, -⟩ := hm
    exact hincoming new t ht hx
  | _ => cases hx

theorem executesDead_of_runsDead (h : RunsDead s.queue (s.cpus d).running) : s.executesDead d = true := by
  unfold executesDead
  cases hrun : (s.cpus d).running with
  | none => rfl
  | some id =>
    show (s.queue.get id).all _ = true
    cases hget : s.queue.get id with
    | none => rfl
    | some t =>
      obtain ⟨slot, -, ht, hid⟩ := get_eq_some hget
      exact decide_eq_true (h id hrun slot t ht hid)

/-- **An admissible frame does not end the successor** of a CPU that executes a dead thread. -/
theorem Consistent.victim_ne (h : s.Consistent) (hok : s.sparing (.step c a) = true)
    (hmode : (s.cpus c).mode = .run) (hcode : (s.cpus c).code = f :: rest)
    (hdead : RunsDead s.queue (s.cpus d).running) (hx : (s.cpus d).successor = some x)
    (hlive : s.queue.Live x) : f.victim ≠ some x := by
  have hframe : FrameInv s.queue s.nextThreadId c (s.cpus c).running f :=
    (h.cpu c).frames f (hcode ▸ List.mem_cons_self)
  obtain ⟨howned, hidle⟩ := h.successor_owned hx
  -- A thread in the middle of its own exit is on a CPU, and the successor is on none.
  have hrunning : (s.cpus c).running ≠ some x := by
    obtain ⟨slot, t, ht, hid, -⟩ := hlive
    by_cases hcd : c = d
    · rw [hcd]
      exact hidle
    · rw [← hid]
      exact (h.others_of_owner ht (howned slot t ht hid) hcd).1
  intro hvictim
  cases f with
  | terminate id =>
    cases hvictim
    simp only [sparing, hmode, hcode, Bool.and_eq_true] at hok
    have hd := List.all_eq_true.mp hok.2 d (List.mem_finRange d)
    rw [executesDead_of_runsDead hdead, hx] at hd
    simp at hd
  | exit id pc =>
    cases pc with
    | begin | setTerminated =>
      cases hvictim
      exact hrunning hframe
    | _ => cases hvictim
  | _ => cases hvictim

/-- A CPU with an heir executes a dead thread and has selected the heir. -/
theorem Consistent.heir_successor (h : s.Consistent) (hx : (s.cpus d).heir = some x) :
    RunsDead s.queue (s.cpus d).running ∧ (s.cpus d).successor = some x := by
  have hm := (h.cpu d).mode
  unfold Cpu.heir at hx
  unfold Cpu.successor
  cases hmode : (s.cpus d).mode with rw [hmode] at hx hm
  | exitRead id next slot | exitRemove id base next slot =>
    exact ⟨hm.2.1, hx⟩
  | exitStack op next slot =>
    exact ⟨hm.1, hx⟩
  | switchTo current next slot after =>
    cases current with
    | some id => cases hx
    | none =>
      refine ⟨hm.1, ?_⟩
      cases after with
      | resume =>
        dsimp only at hx
        split at hx
        · exact hx
        · cases hx
      | halt r => cases r <;> first | exact hx | cases hx
  | _ => cases hx

include hok in
include h hc in
/-- **Running a frame keeps the invariant.** -/
theorem Leaving.runFrame
    (hmode : (s.cpus c).mode = .run) (hcode : (s.cpus c).code = f :: rest) :
    (s.runFrame c f rest a).Leaving := by
  obtain ⟨⟨cpu, hcpus, hmoves⟩, hq⟩ := runFrame_moves hc hcode a
  obtain ⟨hcpu, hheir⟩ := (h.cpu c).frame hmode hcode hmoves
  show ExitInv _ _
  rw [hcpus]
  have hqueue : ExitInv (s.runFrame c f rest a).queue s.cpus := by
    refine ExitInv.treats h hq fun d x hx => ?_
    obtain ⟨hdead, hsucc⟩ := hc.heir_successor hx
    exact hc.victim_ne hok hmode hcode hdead hsucc (h.heir d x hx)
  refine hqueue.setCpu hcpu fun x hx => ?_
  rw [hheir] at hx
  cases hx

/-! ## Selecting and switching -/

/-- A selected thread is alive. -/
theorem live_of_selected (hw : q.Wf)
    (h : (q.selectNextThread c current).2 = some (x, slot)) : (q.selectNextThread c current).1.Live x := by
  obtain ⟨⟨t, t', hsel⟩, -⟩ := selectNextThread_some hw h
  refine ⟨slot, t', hsel.after, hsel.same.1.trans hsel.id, ?_⟩
  rw [hsel.state]
  nofun

/-- The last selection of an exit finds a thread. -/
theorem sparing_select (hc : s.Consistent) (hok : s.sparing (.step c a) = true)
    (hlast : (s.cpus c).lastSelect = true) (current : Option ThreadId) :
    (s.queue.selectNextThread c current).2.isSome := by
  simp only [sparing, hlast, Bool.not_true, Bool.false_or, Bool.and_eq_true] at hok
  obtain ⟨slot, -, hslot⟩ := List.any_eq_true.mp hok.1
  obtain ⟨t, ht, hrun⟩ := (Option.any_eq_true _ _).mp hslot
  rw [Bool.and_eq_true] at hrun
  refine selectNextThread_isSome hc.wf ht hrun.1 ?_
  cases haff : t.cpuAffinity with
  | none => exact .inl rfl
  | some owner =>
    rw [haff] at hrun
    exact .inr (congrArg some (of_decide_eq_true hrun.2))

include hok in
include h hc in
theorem Leaving.selectStep {purpose : SelectFor}
    (hmode : (s.cpus c).mode = .select purpose) : (s.selectStep c purpose).Leaving := by
  have hsw : (s.cpus c).mode.switching = false := by rw [hmode]; rfl
  have htreats : Treats s.nextThreadId none s.queue (s.queue.selectNextThread c (s.cpus c).current).1 :=
    treats_selectNextThread hc.wf _
  have hq : ExitInv (s.queue.selectNextThread c (s.cpus c).current).1 s.cpus :=
    ExitInv.treats h htreats fun _ _ _ => nofun
  have hmoves := selectStep_selects (s := s) (c := c) purpose
  generalize s.selectStep c purpose = s' at hmoves ⊢
  -- Back to the code of the CPU, which is not the halt of `terminate_thread`.
  have hback : purpose = .yield → selfHalts (s.cpus c).code = false →
      ExitInv (s.queue.selectNextThread c (s.cpus c).current).1
        (update s.cpus c { s.cpus c with mode := .run }) := by
    rintro rfl hnot
    have hshields := (h.cpu c).shields
    rw [hmode] at hshields
    obtain ⟨b, rest, hcode, hrest⟩ := hshields
    rw [hcode] at hnot
    exact hq.toRun hsw (by rw [hmode]; rfl) (hcode ▸ hrest.returns hnot)
  cases hmoves with
  | nothing hnone =>
    refine hback rfl (Bool.eq_false_iff.mpr fun hself => ?_)
    have hfound := sparing_select hc hok (by simp only [Cpu.lastSelect, hmode, hself]) (s.cpus c).current
    rw [hnone] at hfound
    cases hfound
  | itself _ hown =>
    refine hback rfl (Bool.eq_false_iff.mpr fun hself => ?_)
    rw [(h.cpu c).current_of_selfHalts hsw hself] at hown
    cases hown
  | @other next slot hsel =>
    have hshields := (h.cpu c).shields
    have hfinal := (h.cpu c).final
    rw [hmode] at hshields hfinal
    refine ExitInv.setCpu hq ⟨hshields, fun _ => (h.cpu c).late hsw, hfinal, nofun, ?_, nofun⟩ ?_
    · rintro _ _ _ _ ⟨⟩
    · intro x hx
      have hnext : x = next := by
        simp only [Cpu.heir] at hx
        split at hx <;> simp_all
      rw [hnext]
      exact live_of_selected hc.wf hsel
  | exitNothing hnone =>
    have hfound := sparing_select hc hok (by simp only [Cpu.lastSelect, hmode]) (s.cpus c).current
    rw [hnone] at hfound
    cases hfound
  | exitOther hsel =>
    refine ExitInv.setCpu hq ⟨trivial, fun _ => (h.cpu c).late hsw, nofun, nofun, nofun, nofun⟩ ?_
    rintro x ⟨⟩
    exact live_of_selected hc.wf hsel

/-- A switch that returns: the CPU goes back to its code, or halts, but not because of an exit. -/
theorem Leaving.switchReturns
    (h : s.Leaving) (hmode : (s.cpus c).mode = .switchTo current next slot after)
    (hself : selfHalts (s.cpus c).code = true → after ≠ .resume)
    (hreason : ∀ r, after = .halt r → r.ofExit = false) : (s.switchReturns c after).Leaving := by
  have hsw : (s.cpus c).mode.switching = false := by rw [hmode]; rfl
  cases after with
  | resume =>
    have hshields := (h.cpu c).shields
    rw [hmode] at hshields
    obtain ⟨b, rest, hcode, hrest⟩ := hshields
    have hnot : selfHalts (.restoreInterrupts b :: rest) = false := by
      rw [← hcode]
      exact Bool.eq_false_iff.mpr fun hs => hself hs rfl
    exact ExitInv.toRun h hsw (by rw [hmode]; rfl) (hcode ▸ hrest.returns hnot)
  | halt r =>
    refine ExitInv.setCpu h ⟨trivial, fun _ => (h.cpu c).late hsw, nofun, nofun, nofun, ?_⟩ nofun
    rintro _ ⟨⟩
    exact hreason r rfl

include h hc in
theorem Leaving.switchStep
        (hmode : (s.cpus c).mode = .switchTo current next slot after) (guardIntact : Bool) :
    (s.switchStep c current next slot after guardIntact).Leaving := by
  have hsw : (s.cpus c).mode.switching = false := by rw [hmode]; rfl
  have hm := hc.modeInv hmode
  have hmoves := hc.switchStep_switches hmode guardIntact
  generalize s.switchStep c current next slot after guardIntact = s' at hmoves ⊢
  -- An outgoing thread is the one the CPU announces, so there is no late frame.
  have hclean : ∀ id, current = some id → ∀ f ∈ (s.cpus c).code, f.late = false := by
    rintro id rfl
    exact (h.cpu c).no_late hsw hm.1
  have hnever : ∀ id, current = some id → selfHalts (s.cpus c).code ≠ true := by
    rintro id rfl hself
    have hcur := hm.1
    rw [(h.cpu c).current_of_selfHalts hsw hself] at hcur
    cases hcur
  have hother : ∀ id, current = some id → ∀ r, after = .halt r → r.ofExit = false := by
    rintro id rfl r rfl
    rcases (h.cpu c).reason _ next slot r hmode with ⟨hnone, -⟩ | hr
    · cases hnone
    · exact hr
  cases hmoves with
  | @publish _ old new t ht hid halive hold =>
    refine ExitInv.setCpu h ⟨trivial, nofun, nofun, ?_, nofun, nofun⟩ nofun
    rintro o _ ⟨⟩
    cases current with
    | none => cases hold rfl
    | some id => exact hclean id rfl
  | refuse hdead =>
    cases current with
    | some id => exact h.switchReturns hmode (fun hself => absurd hself (hnever id rfl)) (hother id rfl)
    | none =>
      -- The successor is dead, so nothing depended on it.
      have hheir : (s.cpus c).heir ≠ some next := fun hx => hdead rfl (h.heir c next hx)
      refine h.switchReturns hmode ?_ ?_
      · rintro hself rfl
        exact hheir (by simp only [Cpu.heir, hmode, hself, if_true])
      · rintro r rfl
        rcases (h.cpu c).reason none next slot r hmode with ⟨-, rfl⟩ | hr
        · exact absurd (by simp only [Cpu.heir, hmode]) hheir
        · exact hr
  | @guard id =>
    have hcode : ∀ f ∈ .terminate id :: (s.cpus c).code, f.late = false := by
      intro f hf
      rcases List.mem_cons.mp hf with rfl | hf
      · rfl
      · exact hclean id rfl f hf
    cases after with
    | resume =>
      show ((s.setMode c .run).setCode c _).Leaving
      rw [setMode_setCode]
      refine ExitInv.setRun h rfl (.of_not_late hcode) ?_ fun hnone => absurd (hnone.symm.trans hm.1) nofun
      intro f hf hlate
      rw [hcode f hf] at hlate
      cases hlate
    | halt r =>
      show ((s.setMode c (.halt r)).setCode c _).Leaving
      rw [setMode_setCode]
      refine ExitInv.setCpu h ⟨trivial, ?_, nofun, nofun, nofun, ?_⟩ nofun
      · intro _ f hf hlate
        rw [hcode f hf] at hlate
        cases hlate
      · rintro _ ⟨⟩
        exact hother id rfl r rfl

/-! ## Whole steps -/

include h hc in
theorem Leaving.saveStep {old : Option Slot} (hmode : (s.cpus c).mode = .save old new) :
    ((s.saveContext c old).setCpu c { s.cpus c with mode := .load new, code := [] }).Leaving := by
  have hcpu : CpuExit { s.cpus c with mode := .load new, code := [] } :=
    ⟨trivial, nofun, nofun, nofun, nofun, nofun⟩
  cases old with
  | none => exact ExitInv.setCpu h hcpu nofun
  | some old =>
    have hm := hc.modeInv hmode
    obtain ⟨-, t, ht⟩ := hm
    unfold saveContext
    simp only [ht.here]
    have hput : ExitInv (s.queue.put old
        { t with context := ⟨(s.cpus c).code, (s.cpus c).stack, false, true⟩ }) s.cpus :=
      ExitInv.putContext h ht.here rfl rfl fun _ => (h.cpu c).saves old new hmode
    exact hput.setCpu hcpu nofun

include h hc in
theorem Leaving.loadStep
    (hmode : (s.cpus c).mode = .load new) : (s.loadContext c new).Leaving := by
  have hm := hc.modeInv hmode
  obtain ⟨⟨t, ht⟩, -⟩ := hm
  have hcode := h.context new t ht.here ht.saved
  unfold loadContext
  rw [ht.here]
  have hput : ExitInv (s.queue.put new { t with context := { t.context with saved := false } }) s.cpus :=
    ExitInv.putContext h ht.here rfl rfl nofun
  refine ExitInv.setCpu hput ⟨Shielded.of_not_late hcode, ?_, ?_, nofun, nofun, nofun⟩ nofun
  · intro _ f hf hlate
    rw [hcode f hf] at hlate
    cases hlate
  · intro hnone
    exact absurd (hnone.symm.trans ht.announced) nofun

/-- Between the selection and the switch of an exit only the mode changes. -/
theorem ExitInv.exitMode {cpus : Fin n → Cpu} {mode : Mode}
    (h : ExitInv q cpus) (hsw : (cpus c).mode.switching = false) (hlive : q.Live next)
    (hnew : (∃ id base slot, mode = .exitRemove id base next slot) ∨
      (∃ op slot, mode = .exitStack op next slot) ∨
      ∃ slot, mode = .switchTo none next slot (.halt .exitSwitchReturned)) :
    ExitInv q (update cpus c { cpus c with mode := mode }) := by
  rcases hnew with ⟨id, base, slot, rfl⟩ | ⟨op, slot, rfl⟩ | ⟨slot, rfl⟩
  · refine h.setCpu ⟨trivial, fun _ => (h.cpu c).late hsw, nofun, nofun, nofun, nofun⟩ ?_
    rintro x ⟨⟩
    exact hlive
  · refine h.setCpu ⟨trivial, fun _ => (h.cpu c).late hsw, nofun, nofun, nofun, nofun⟩ ?_
    rintro x ⟨⟩
    exact hlive
  · refine h.setCpu ⟨trivial, fun _ => (h.cpu c).late hsw, nofun, nofun, ?_, nofun⟩ ?_
    · rintro _ _ _ _ ⟨⟩
      exact .inl ⟨rfl, rfl⟩
    · rintro x ⟨⟩
      exact hlive

include hok in
include h hc in
theorem Leaving.cpuStep (hstep : s.cpuStep c a = some s') : s'.Leaving := by
  have hm := (hc.cpu c).mode
  cases cpuStep_moves hstep with
  | run hmode hcode => exact h.runFrame hc hok hmode hcode
  | select hmode => exact h.selectStep hc hok hmode
  | @exitRead id next slot hmode =>
    have hlive : s.queue.Live next := h.heir c next (by simp only [Cpu.heir, hmode])
    exact ExitInv.exitMode h (by rw [hmode]; rfl) hlive (.inl ⟨_, _, _, rfl⟩)
  | @exitRemove id base next slot hmode =>
    rw [hmode] at hm
    have hlive : s.queue.Live next := h.heir c next (by simp only [Cpu.heir, hmode])
    have hq : Treats s.nextThreadId none s.queue (s.queue.remove id).1 := treats_remove hc.wf (hm.2.1 id hm.1)
    have hsw : (s.cpus c).mode.switching = false := by rw [hmode]; rfl
    refine ExitInv.exitMode (ExitInv.treats h hq fun _ _ _ => nofun) hsw (hq.spares.live hlive nofun) ?_
    cases base with
    | none => exact .inr (.inr ⟨_, rfl⟩)
    | some base => exact .inr (.inl ⟨_, _, rfl⟩)
  | @exitStack op next slot hmode =>
    have hlive : s.queue.Live next := h.heir c next (by simp only [Cpu.heir, hmode])
    obtain ⟨hq, hcpus, -⟩ := stackStep_fixes s c a.ok op
    show ExitInv _ (update (s.stackStep c a.ok op).1.cpus c _)
    rw [hcpus]
    refine ExitInv.exitMode (hq ▸ h) (by rw [hmode]; rfl) (hq ▸ hlive) ?_
    split
    · exact .inr (.inr ⟨_, rfl⟩)
    · exact .inr (.inl ⟨_, _, rfl⟩)
  | switchTo hmode => exact h.switchStep hc hmode a.ok
  | save hmode => exact h.saveStep hc hmode
  | load hmode => exact h.loadStep hc hmode
  | ack hmode =>
    have hshields := (h.cpu c).shields
    rw [hmode] at hshields
    have hsw : (s.cpus c).mode.switching = false := by rw [hmode]; rfl
    exact ExitInv.setRun h rfl hshields ((h.cpu c).late hsw) fun hnone =>
      (h.cpu c).final hnone (by rw [hmode]; rfl)

theorem callFrames_late {frames : List Frame}
    (hframes : s.callFrames current call = some frames) : ∀ f ∈ frames, f.late = false := by
  cases call with
  | exitTask | exitProcess =>
    obtain ⟨id, -, rfl⟩ := Option.map_eq_some_iff.mp hframes
    simp [Frame.late, Frame.deadEnd]
  | processTerminate pid =>
    simp only [callFrames] at hframes
    split at hframes
    · split at hframes <;> cases hframes <;> simp [Frame.late, Frame.deadEnd]
    · cases hframes
      simp [Frame.late, Frame.deadEnd]
  | _ =>
    cases hframes
    simp [Frame.late, Frame.deadEnd]

/-- Only an exit without a current thread has nothing to do. -/
theorem callFrames_none (h : s.callFrames current call = none) : current = none := by
  cases call with
  | exitTask | exitProcess => exact Option.map_eq_none_iff.mp h
  | processTerminate pid =>
    simp only [callFrames] at h
    split at h
    · split at h <;> cases h
    · cases h
  | _ => cases h

include h hc in
/-- **Every admissible step keeps the invariant.** -/
theorem Leaving.step {l : Label n} (hok : s.sparing l = true) (hstep : s.step l = some s') : s'.Leaving := by
  have hcurrent : ∀ c, (s.cpus c).mode = .run → (s.cpus c).code = [] → (s.cpus c).current ≠ none := by
    intro c hmode hcode hnone
    have hany := (h.cpu c).final hnone (by rw [hmode]; rfl)
    rw [hcode] at hany
    cases hany
  cases step_moves hstep with
  | step hstep => exact h.cpuStep hc hok hstep
  | @call c call frames hmode hcode _ hframes =>
    have hlate := callFrames_late hframes
    refine ExitInv.setRun h hmode (.of_not_late hlate) ?_ fun hnone => absurd hnone (hcurrent c hmode hcode)
    intro f hf hl
    rw [hlate f hf] at hl
    cases hl
  | @callNone c call hmode hcode hframes => exact absurd (callFrames_none hframes) (hcurrent c hmode hcode)
  | @interrupt c reschedule hmode =>
    have hsw : (s.cpus c).mode.switching = false := by rw [hmode]; rfl
    have hshields := (h.cpu c).shields
    rw [hmode] at hshields
    have hlate : ∀ f ∈ Frame.reclaim :: (if reschedule then [.yieldNow] else []), f.late = false := by
      cases reschedule <;> simp [Frame.late, Frame.deadEnd]
    refine ExitInv.setRun h hmode ?_ ?_ ?_
    · have hbelow : Shielded false (.restoreInterrupts true :: (s.cpus c).code) := ⟨by rintro ⟨⟩, hshields⟩
      exact Shielded.append (fun g hg => Frame.deadEnd_of_late (hlate g hg)) hbelow false
    · intro f hf hl
      change f ∈ (.reclaim :: (if reschedule then [.yieldNow] else [])) ++
        .restoreInterrupts true :: (s.cpus c).code at hf
      rcases List.mem_append.mp hf with hnew | hold
      · rw [hlate f hnew] at hl
        cases hl
      · rcases List.mem_cons.mp hold with rfl | hold
        · cases hl
        · exact (h.cpu c).late hsw f hold hl
    · intro hnone
      have hany := (h.cpu c).final hnone (by rw [hmode]; rfl)
      simp only [List.any_cons, List.any_append, hany, Bool.or_true]
  | @setInterrupts c enabled hmode hcode =>
    have hshields := (h.cpu c).shields
    have hsw : (s.cpus c).mode.switching = false := by rw [hmode]; rfl
    rw [hmode] at hshields
    exact ExitInv.setRun h hmode hshields ((h.cpu c).late hsw) fun hnone =>
      absurd hnone (hcurrent c hmode hcode)
  | @async op =>
    have hq : Treats s.nextThreadId none s.queue (op.apply s.queue) := treats_asyncOp hc.wf op
    exact ExitInv.treats h hq fun _ _ _ => by rintro ⟨⟩
  | boot _ =>
    exact ExitInv.setRun h rfl (.of_not_late (by simp [Frame.late, Frame.deadEnd]))
      (by simp [Frame.late, Frame.deadEnd]) fun _ => rfl

/-- At the start no CPU is exiting. -/
theorem initial_cpu (bsp c : Fin n) : CpuExit ((initial bsp).cpus c) ∧
    ((initial bsp).cpus c).heir = none := by
  by_cases hc : c = bsp
  · have hcpu : (initial bsp).cpus c =
        ⟨none, none, none, false, .switchTo none 1 0 (.halt .startReturned), [], none, .outside⟩ := by
      simp [initial, hc]
    rw [hcpu]
    refine ⟨⟨trivial, by simp, by simp [Mode.returns], by simp, ?_, by simp⟩, rfl⟩
    rintro _ _ _ _ ⟨⟩
    exact .inr rfl
  · have hcpu : (initial bsp).cpus c = ⟨none, none, none, false, .offline, [], none, .outside⟩ := by
      simp [initial, hc]
    rw [hcpu]
    exact ⟨⟨trivial, by simp, by simp [Mode.returns], by simp, by simp, by simp⟩, rfl⟩

theorem leaving_initial (bsp : Fin n) : (initial bsp).Leaving where
  cpu := fun c => (initial_cpu bsp c).1
  context := by
    intro slot t ht _ f hf
    rw [(initial_threads ht).2] at hf
    cases hf
  heir := by
    intro c x hx
    rw [(initial_cpu bsp c).2] at hx
    cases hx

end State

end Mnu.Task
