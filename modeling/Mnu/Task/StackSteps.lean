import Mnu.Task.StackMoves

/-!
# `Mnu.Task.StackSteps` — a stack in use is not released

`thread_is_cpu_referenced` asks the CPUs whether they announce a thread. An exiting thread takes its
announcement back while it still executes on its own stack, so for the rest of its exit the answer is
wrong, and whoever asks then releases the stack under it. The timer does the same to a CPU that has
already put its own stack into its retirement cell.

`orderly` is the condition that neither happens; under it the stacks are safe in every run
(`stack_in_use_is_kept`). Without it they are not (`stack_in_use_released`).
-/

namespace Mnu.Task

open Lib ThreadQueue Function

variable {n : Nat} {frames : List Frame} {op : StackOp} {i : Fin 64} {u : Use}

/-! ## The condition -/

/-- The thread that a frame is about to look up with `thread_is_cpu_referenced`. -/
def Frame.strikes : Frame → Option ThreadId
  | .terminate id => some id
  | .retirePass (id :: _) _ => some id
  | _ => none

/-- No CPU executes the thread without announcing it. -/
def State.announced (s : State n) (id : ThreadId) : Bool :=
  (List.finRange n).all fun d =>
    (s.cpus d).running ≠ some id || (s.cpus d).current = some id || (s.cpus d).switchingFrom = some id

/-- A step that does not ask for a thread in the gap of its exit, and no timer interrupt on a CPU that
    still executes on the stack in its retirement cell. -/
def State.orderly (s : State n) : Label n → Bool
  | .step c _ =>
    match (s.cpus c).mode, (s.cpus c).code with
    | .run, f :: _ => f.strikes.all s.announced
    | _, _ => true
  | .interrupt c _ =>
    match s.retired c with
    | some (.slot i) => (s.cpus c).stack ≠ .slot i
    | _ => true
  | _ => true

theorem State.announced_spec {s : State n} {id : ThreadId} (h : s.announced id = true) (d : Fin n)
    (hrun : (s.cpus d).running = some id) : Announces (s.cpus d) id := by
  have hd := List.all_eq_true.mp h d (List.mem_finRange d)
  simp only [hrun, ne_eq, not_true_eq_false, decide_false, Bool.false_or,
    Bool.or_eq_true, decide_eq_true_eq] at hd
  exact hd

/-! ## Running a frame -/

/-- The frame retires no stack and removes no thread. -/
def Frame.settled : Frame → Bool
  | .terminateRemove _ => false
  | f => f.parks.isNone

/-- The frame holds no stack either. -/
def Frame.calm (f : Frame) : Bool := f.settled && f.hold.isNone

theorem Frame.settled_all (h : frames.all Frame.settled = true) :
    (∀ g ∈ frames, g.parks = none) ∧ ∀ id, .terminateRemove id ∉ frames := by
  rw [List.all_eq_true] at h
  refine ⟨fun g hg => ?_, fun id hid => nomatch h _ hid⟩
  have hs := h g hg
  cases g with
  | terminateRemove id => cases hs
  | _ => exact Option.isNone_iff_eq_none.mp hs

theorem Frame.calm_all (h : frames.all Frame.calm = true) :
    frames.all Frame.settled = true ∧ ∀ g ∈ frames, g.idle := by
  simp only [Frame.calm, List.all_eq_true, Bool.and_eq_true, Option.isNone_iff_eq_none] at h
  have hsettled : frames.all Frame.settled = true := List.all_eq_true.mpr fun g hg => (h g hg).1
  exact ⟨hsettled, fun g hg => ⟨(h g hg).2, (Frame.settled_all hsettled).1 g hg⟩⟩

theorem calm_onFailure (spec : ThreadSpec) : spec.onFailure.all Frame.calm = true := by
  unfold ThreadSpec.onFailure
  split <;> rfl

namespace State

variable {s : State n} {c : Fin n} {f : Frame} {rest frames : List Frame} {a : Answer}
  {q : Queue n} {base : StackBase}
  {spec : ThreadSpec} {id next : ThreadId} {slot : Slot} {current : Option ThreadId}

/-- Only a swap touches a retirement cell, and only the one of its CPU. -/
theorem stackStep_retired (s : State n) (c : Fin n) (ok : Bool) (op : StackOp) :
    (∀ d, d ≠ c → (s.stackStep c ok op).1.retired d = s.retired d) ∧
      ((s.stackStep c ok op).1.retired = s.retired ∨ op.parks.isSome = true) := by
  cases op with
  | retire base | free base =>
    cases base with
    | outside => exact ⟨fun _ _ => rfl, .inl rfl⟩
    | slot i =>
      simp only [stackStep]
      split <;> exact ⟨fun _ _ => rfl, .inl rfl⟩
  | swap base => exact ⟨fun d hd => update_of_ne hd .., .inr rfl⟩
  | release i => exact ⟨fun _ _ => rfl, .inl rfl⟩

/-- What follows a stack operation retires only what the operation itself retires. -/
theorem stackStep_parks {ok : Bool} {next : StackOp} (h : (s.stackStep c ok op).2 = some next)
    (hparks : next.parks = some base) : op.parks = some base := by
  cases op with
  | retire b =>
    cases b with
    | outside =>
      cases h
      exact hparks
    | slot i =>
      simp only [stackStep] at h
      split at h
      · cases h
        exact hparks
      · cases h
  | swap b =>
    obtain ⟨prev, -, rfl⟩ := Option.map_eq_some_iff.mp h
    cases hparks
  | free b =>
    cases b with
    | outside => cases h
    | slot i =>
      simp only [stackStep] at h
      split at h
      · cases h
        cases hparks
      · cases h
  | release i => cases h

/-- What `orderly` says about the top frame. -/
theorem orderly_strikes (hok : s.orderly (.step c a) = true)
    (hmode : (s.cpus c).mode = .run) (hcode : (s.cpus c).code = f :: rest) (hf : f.strikes = some id)
    (d : Fin n) (hrun : (s.cpus d).running = some id) : Announces (s.cpus d) id := by
  simp only [orderly, hmode, hcode, hf, Option.all_some] at hok
  exact announced_spec hok d hrun

/-- A thread that is retired, and that no CPU executes without announcing it, runs nowhere. -/
theorem unrun_of_retired (hret : Retired q s.cpus id)
    (hann : ∀ d, (s.cpus d).running = some id → Announces (s.cpus d) id) : Unrun q s.cpus id :=
  fun slot t ht heq d hrun => (hret slot t ht heq).2 d (hann d hrun)

theorem selectNextThread_persists (hc : s.Consistent) :
    Persists s.queue (s.queue.selectNextThread c (s.cpus c).current).1 := by
  cases hsel : (s.queue.selectNextThread c (s.cpus c).current).2 with
  | none => exact .of_safe (selectNextThread_none hsel)
  | some found =>
    obtain ⟨next, slot⟩ := found
    obtain ⟨⟨t, t', hselected⟩, -⟩ := selectNextThread_some hc.wf hsel
    exact .of_select hselected

theorem callFrames_calm {call : Call} (hframes : s.callFrames current call = some frames) :
    frames.all Frame.calm = true := by
  cases call with
  | yieldNow | terminate id | spawn processId user suspended | releaseAps =>
    cases hframes
    rfl
  | retireImageSiblings =>
    cases hframes
    simp [Frame.calm, Frame.settled, Frame.hold, Frame.parks]
  | exitTask | exitProcess =>
    obtain ⟨id, -, rfl⟩ := Option.map_eq_some_iff.mp hframes
    rfl
  | processTerminate pid =>
    simp only [callFrames] at hframes
    split at hframes
    · split at hframes <;> cases hframes <;> rfl
    · cases hframes
      rfl

section Steps

variable (h : s.Stacked) (hc : s.Consistent) {after : AfterSwitch} {old : Option Slot}
  {s' : State n} {new : Slot}
  {cpu : Cpu}
include h

theorem Stacked.keepsBase (d : Fin n) : KeepsBase s.queue (s.cpus d) := (h.cpu d).base

include hc in
/-- A removal does not concern a CPU that is not removing the thread itself. -/
theorem Stacked.keepsBase_remove {d : Fin n} (hno : (s.cpus d).running = some id →
    ∀ base next slot, (s.cpus d).mode ≠ .exitRemove id base next slot) :
    KeepsBase (s.queue.remove id).1 (s.cpus d) := by
  refine KeepsBase.remove hc.wf (h.keepsBase d) ?_
  rintro x base next slot hm rfl
  have hinv := hc.modeInv hm
  exact hno hinv.1 base next slot hm

/-- A CPU that runs on the stack in its cell is on its way out. -/
theorem Stacked.doomed_of_retired (hmode : (s.cpus c).mode = .run)
    (hr : s.retired c = some (.slot i)) (hon : (s.cpus c).stack = .slot i) :
    doomed (s.cpus c).code = true := by
  rcases (h.cpu c).retired i hr hon with hd | ⟨new, hload⟩
  · exact hd
  · rw [hmode] at hload
    cases hload

section Frames

variable (hmode : (s.cpus c).mode = .run)

section Top

variable (hcode : (s.cpus c).code = f :: rest)
include hcode

/-- A frame with a loose hold lets go of it. -/
theorem Stacked.popHold {j : Fin 64} (hf : f.hold = some (u, j)) (hloose : u.loose = true) :
    SlotsInv s.queue (update s.cpus c { s.cpus c with code := rest }) s.retired s.kstackSlots ∧
      holders s.queue.threads (update s.cpus c { s.cpus c with code := rest }) s.retired j = 0 ∧
      u.Fits (s.kstackSlots j) ∧ ∀ d, (s.cpus d).stack ≠ .slot j := by
  obtain ⟨hpop, hcount⟩ := SlotsInv.pop h.slot hcode
  have hbefore : Holds s.queue.threads s.cpus s.retired (some c) u j :=
    .code (hcode ▸ List.mem_cons_self) hf
  have hj := hcount j
  rw [weight_self hf] at hj
  have hsingle := (h.slot j).single
  exact ⟨hpop, by omega, (h.slot j).fits _ _ hbefore, (h.slot j).unused hbefore hloose⟩

include hmode

/-- The frames, perhaps states of threads, and the CPU itself change, in no way that concerns stacks. -/
theorem Stacked.quietCpu {cpu : Cpu} (hq : s.queue.Safe q) (hrun : cpu.running = (s.cpus c).running)
    (hstack : cpu.stack = (s.cpus c).stack) (hnew : cpu.code = frames ++ rest)
    (hframes : ∀ g ∈ frames, g.idle) (hdoomed : doomed (f :: rest) = true → doomed (frames ++ rest) = true)
    (hunrun : ∀ id, .terminateRemove id ∈ frames → Unrun q s.cpus id) (hquiet : cpu.mode.exiting = false ∨
      (∃ purpose, cpu.mode = .select purpose) ∧ doomed (frames ++ rest) = true) :
    StackInv q (update s.cpus c cpu) s.retired s.kstackSlots := by
  have hcalm : cpu.mode.hold = none ∧ cpu.mode.parks = none ∧
      ∀ id base x slot, cpu.mode ≠ .exitRemove id base x slot := by
    rcases hquiet with hexit | ⟨⟨purpose, hm⟩, -⟩
    · exact Mode.calm hexit
    · rw [hm]
      exact ⟨rfl, rfl, fun _ _ _ _ => nofun⟩
  have hper : Persists s.queue q := .of_safe hq
  refine StackInv.quiet [f] h hcode hnew hper.shrinks (fun d _ => (h.keepsBase d).persists hper) hrun hstack
    hframes (fun _ _ _ => hdoomed) (fun new => by rw [hmode]; nofun) hcalm.1 hcalm.2.1 ?_
    (fun id base x slot hm => absurd hm (hcalm.2.2 id (some base) x slot)) hunrun
  intro hexit
  rcases hquiet with hno | ⟨-, hd⟩
  · rw [hno] at hexit
    cases hexit
  · exact hd

/-- The new frames have nothing to do with stacks. -/
theorem Stacked.calmCpu {cpu : Cpu} (frames : List Frame) (hrun : cpu.running = (s.cpus c).running)
    (hstack : cpu.stack = (s.cpus c).stack) (hnew : cpu.code = frames ++ rest)
    (hframes : frames.all Frame.calm = true)
    (hdoomed : doomed (f :: rest) = true → doomed (frames ++ rest) = true)
    (hquiet : cpu.mode.exiting = false ∨
      (∃ purpose, cpu.mode = .select purpose) ∧ doomed (frames ++ rest) = true) :
      (s.setCpu c cpu).Stacked := by
  obtain ⟨hsettled, hidle⟩ := Frame.calm_all hframes
  exact h.quietCpu hmode hcode .refl hrun hstack hnew hidle hdoomed
    (fun id hid => absurd hid ((Frame.settled_all hsettled).2 id)) hquiet

theorem Stacked.continueCalm (hq : s.queue.Safe q) (hframes : frames.all Frame.calm = true)
    (hdoomed : doomed (f :: rest) = false) : ((s.setQueue q).continueWith c frames rest).Stacked := by
  obtain ⟨hsettled, hidle⟩ := Frame.calm_all hframes
  refine h.quietCpu hmode hcode hq rfl rfl rfl hidle (by simp [hdoomed])
    (fun id hid => absurd hid ((Frame.settled_all hsettled).2 id)) (.inl ?_)
  show (s.cpus c).mode.exiting = false
  rw [hmode]
  rfl

/-- Frames that may hold slots take the place of one; none retires a stack. -/
theorem Stacked.replaceFrame {slots : Fin 64 → KernelStackSlot} (hq : Shrinks s.queue q)
    (hkeep : ∀ d, KeepsBase q (s.cpus d))
    (hslots : SlotsInv q (update s.cpus c { s.cpus c with code := frames ++ rest }) s.retired slots)
    (hframes : frames.all Frame.settled = true) (hdoomed : doomed (f :: rest) = false) :
    StackInv q (update s.cpus c { s.cpus c with code := frames ++ rest }) s.retired slots := by
  obtain ⟨hparks, hremove⟩ := Frame.settled_all hframes
  refine StackInv.frameStep h hmode hcode hq hkeep (fun _ _ => rfl) hslots ?_
    (Followed.append hparks) ?_ fun id hid => absurd hid (hremove id)
  · intro g hg base hbase
    rw [hparks g hg] at hbase
    cases hbase
  · intro i hr hon
    have hd := h.doomed_of_retired hmode hr hon
    rw [hcode, hdoomed] at hd
    cases hd

include hc

omit hmode in
/-- After a removal the stack of the thread, which `u` suits, passes to a new frame of CPU `c`. -/
theorem Stacked.removed_slots {g : Thread (Fin n) Context → Frame}
    (hg : ∀ t, (g t).hold = t.kernelStack.hold u) (hu : ∀ slot, (Use.thread id).Fits slot → u.Fits slot)
    (hmine : ∀ d, (s.cpus d).running = some id → Mine d (some id) (some c) u)
    (hframes : ∀ g ∈ frames, g.idle) : SlotsInv (s.queue.remove id).1 (update s.cpus c { s.cpus c with
      code := (s.queue.remove id).2.toList.map g ++ frames ++ rest }) s.retired s.kstackSlots := by
  have hshrunk : SlotsInv (s.queue.remove id).1 s.cpus s.retired s.kstackSlots :=
    SlotsInv.shrink h.slot (.remove hc.wf id)
  obtain ⟨hpop, hcount⟩ := hshrunk.pop hcode
  have hnone : ∀ g ∈ frames, g.hold = none := fun g hg => (hframes g hg).1
  cases hremove : (s.queue.remove id).2 with
  | none => exact hpop.pushIdle hnone
  | some t =>
    cases hstack : t.kernelStack with
    | outside =>
      refine hpop.pushIdle (List.forall_mem_cons.mpr ⟨?_, hnone⟩)
      rw [hg, hstack]
      rfl
    | slot j =>
      have hfree := SlotsInv.free_of_remove h.slot hremove hstack
      obtain ⟨slot, ht, hid, -, -⟩ := remove_eq_some hremove
      have hbefore : Holds s.queue.threads s.cpus s.retired none (.thread t.id) j := .thread ht hstack
      rw [hid] at hbefore
      have hj := hcount j
      refine hpop.pushHold (by rw [hg, hstack]; rfl) hnone (by omega) (hu _ ((h.slot j).fits _ _ hbefore)) ?_
      intro d hd
      have hrun := (h.slot j).runs hbefore hd
      rw [hrun]
      exact hmine d hrun

/-- A removed thread that runs on no CPU: its stack is freed. -/
theorem Stacked.removeFree (frames : List Frame)
    (hunrun : ∀ d, (s.cpus d).running ≠ some id) (hframes : frames.all Frame.calm = true)
    (hdoomed : doomed (f :: rest) = false) :
    ((s.setQueue (s.queue.remove id).1).continueWith c
      ((s.queue.remove id).2.toList.map (fun t => .stack (.free t.kernelStack)) ++ frames) rest).Stacked := by
  have hkeep : ∀ d, KeepsBase (s.queue.remove id).1 (s.cpus d) :=
    fun d => h.keepsBase_remove hc fun hrun => absurd hrun (hunrun d)
  obtain ⟨hsettled, hidle⟩ := Frame.calm_all hframes
  refine h.replaceFrame hmode hcode (.remove hc.wf id) hkeep (h.removed_slots hc hcode (fun _ => rfl)
    (fun _ hfits => hfits) (fun d hd => absurd hd (hunrun d)) hidle) ?_ hdoomed
  cases (s.queue.remove id).2 with
  | none | some t => exact hsettled

/-- A CPU removes the thread it runs: its stack is retired, and the code does not come back. -/
theorem Stacked.removeRetire {g : Frame} (hrun : (s.cpus c).running = some id)
    (hg : [g].all Frame.calm = true)
    (hdoomed : doomed (g :: rest) = true) : ((s.setQueue (s.queue.remove id).1).continueWith c
      ((s.queue.remove id).2.toList.map (fun t => .stack (.retire t.kernelStack)) ++ [g]) rest).Stacked := by
  have honly : ∀ d, (s.cpus d).running = some id → d = c := fun d hd => hc.exclusive d c id hd hrun
  have hkeep : ∀ d, KeepsBase (s.queue.remove id).1 (s.cpus d) :=
    fun d => h.keepsBase_remove hc fun hd => by rw [honly d hd, hmode]; nofun
  have hgone : ∀ slot t, (s.queue.remove id).1.threads slot = some t → (s.cpus c).running ≠ some t.id := by
    intro slot t ht heq
    rw [hrun] at heq
    exact ((remove_threads hc.wf id).mp ht).2 (Option.some.inj heq).symm
  obtain ⟨hsettled, hidle⟩ := Frame.calm_all hg
  refine StackInv.frameStep h hmode hcode (.remove hc.wf id) hkeep (fun _ _ => rfl) (h.removed_slots hc hcode
    (fun _ => rfl) (fun _ hfits => hfits) (fun d hd => .inr ⟨rfl, by rw [honly d hd]⟩) hidle) ?_ ?_ ?_ ?_
  · intro g' hg' base hbase
    rcases List.mem_append.mp hg' with hretire | hlast
    · obtain ⟨t, ht, rfl⟩ := List.mem_map.mp hretire
      cases hbase
      obtain ⟨slot, hslot, hid, -, -⟩ := remove_eq_some (Option.mem_toList.mp ht)
      exact ⟨(hc.cpu c).stack slot t hslot (by rw [hid]; exact hrun), hgone⟩
    · rw [(hidle g' hlast).2] at hbase
      cases hbase
  · intro hfol
    have hlast : Followed ([g] ++ rest) := hfol.append fun g' hg' => (hidle g' hg').2
    cases (s.queue.remove id).2 with
    | none => exact hlast
    | some t => exact ⟨fun _ => hdoomed, hlast⟩
  · intro i _ _
    cases (s.queue.remove id).2 with
    | none | some t => exact hdoomed
  · intro x hx
    rcases List.mem_append.mp hx with hretire | hlast
    · obtain ⟨t, -, hne⟩ := List.mem_map.mp hretire
      cases hne
    · exact absurd hlast ((Frame.settled_all hsettled).2 x)

end Top

include hmode

/-- `reclaim_current_cpu_kernel_stack`: the CPU is not on the stack in its cell, or it would not be
    here. -/
theorem Stacked.reclaim (hcode : (s.cpus c).code = .reclaim :: rest) :
    (s.runFrame c .reclaim rest a).Stacked := by
  have hclear : SlotsInv s.queue s.cpus (update s.retired c none) s.kstackSlots :=
    SlotsInv.clearRetired h.slot c rfl
  have hret : ∀ d, d ≠ c → update s.retired c none d = s.retired d :=
    fun d hd => update_of_ne hd ..
  have hcell : ∀ i, update s.retired c none c ≠ some (.slot i) := by
    intro i
    simp
  cases hprev : s.retired c with simp only [State.runFrame, hprev]
  | none =>
    refine StackInv.frameStep h hmode hcode .refl h.keepsBase hret
      ((hclear.pop hcode).1.pushIdle (by simp)) (by simp) (fun hfol => hfol) ?_ (by simp)
    intro i hr
    exact absurd hr (hcell i)
  | some base =>
    obtain ⟨hparks, hremove⟩ := Frame.settled_all (rfl : [Frame.stack (.free base)].all Frame.settled = true)
    refine StackInv.frameStep h hmode hcode .refl h.keepsBase hret ?_ ?_ (Followed.append hparks) ?_
      fun id hid => absurd hid (hremove id)
    · cases base with
      | outside =>
        refine (hclear.pop hcode).1.pushIdle fun g hg => ?_
        rw [List.mem_singleton.mp hg]
        rfl
      | slot j =>
        have hbefore : Holds s.queue.threads s.cpus s.retired (some c) .parked j := .retired hprev
        have hfits : Use.freeing.Fits (s.kstackSlots j) := (h.slot j).fits (some c) .parked hbefore
        obtain ⟨hpop, hcount⟩ := hclear.pop hcode
        have hj := hcount j
        have hcleared := holders_setRetired s.queue.threads s.cpus s.retired j c none
        have hone : retiredHolds j (s.retired c) = 1 := by
          rw [hprev]
          exact weight_self rfl
        have hzero : retiredHolds j (none : Option StackBase) = 0 := rfl
        have hsingle := (h.slot j).single
        have hfree : holders s.queue.threads (update s.cpus c { s.cpus c with code := rest })
            (update s.retired c none) j = 0 := by omega
        refine hpop.pushHold (u := .freeing) rfl (by simp) hfree hfits ?_
        intro d hd
        cases (h.slot j).parks hbefore hd
        have hdoom := h.doomed_of_retired hmode hprev hd
        rw [hcode] at hdoom
        cases hdoom
    · intro g hg base' hbase
      rw [hparks g hg] at hbase
      cases hbase
    · intro i hr
      exact absurd hr (hcell i)

/-- A stack operation in progress. -/
theorem Stacked.stackFrame
    (hcode : (s.cpus c).code = .stack op :: rest) : (s.runFrame c (.stack op) rest a).Stacked := by
  obtain ⟨hpop, hcount⟩ := SlotsInv.pop h.slot hcode
  obtain ⟨hqueue, hcpus, -⟩ := stackStep_fixes s c a.ok op
  have hmem : Frame.stack op ∈ (s.cpus c).code := hcode ▸ List.mem_cons_self
  have hown : ∀ base, op.parks = some base → (s.cpus c).stack = base ∧
      ∀ slot t, s.queue.threads slot = some t → (s.cpus c).running ≠ some t.id :=
    fun base hbase => (h.cpu c).own _ hmem base hbase
  have hslots : SlotsInv s.queue (update s.cpus c { s.cpus c with
      code := (s.stackStep c a.ok op).2.toList.map .stack ++ rest }) (s.stackStep c a.ok op).1.retired
      (s.stackStep c a.ok op).1.kstackSlots := by
    rw [← update_idem { s.cpus c with code := rest }]
    refine SlotsInv.stackStep h.slot hpop (SameStacks.update rfl rfl) ?_
      (fun base hbase => (hown base hbase).1) (update_self ..) rfl rfl ?_
    · intro u i hu
      refine ⟨.code hmem hu, ?_⟩
      have hi := hcount i
      have hsingle := (h.slot i).single
      rw [show (Frame.stack op).hold = op.hold from rfl, weight_self hu] at hi
      omega
    · cases (s.stackStep c a.ok op).2 with
      | none => exact .refl _
      | some next =>
        have hhold : (Frame.stack next).hold = next.hold := rfl
        simp only [Cpu.held, Option.toList_some, List.map_cons, List.map_nil,
          List.singleton_append, Option.bind_some, List.filterMap_cons, hhold]
        cases next.hold <;> exact .refl _
  show StackInv (s.stackStep c a.ok op).1.queue (update (s.stackStep c a.ok op).1.cpus c
    { (s.stackStep c a.ok op).1.cpus c with code := (s.stackStep c a.ok op).2.toList.map .stack ++ rest })
    (s.stackStep c a.ok op).1.retired (s.stackStep c a.ok op).1.kstackSlots
  rw [hqueue, hcpus]
  have hfol : (op.parks.isSome = true → doomed rest = true) ∧ Followed rest := by
    have := (h.cpu c).followed
    rwa [hcode] at this
  have hnexts : ∀ g ∈ (s.stackStep c a.ok op).2.toList.map Frame.stack, ∀ base, g.parks = some base →
      op.parks = some base := by
    intro g hg base hbase
    obtain ⟨next, hnext, rfl⟩ := List.mem_map.mp hg
    exact stackStep_parks (Option.mem_toList.mp hnext) hbase
  obtain ⟨hret, hcell⟩ := stackStep_retired s c a.ok op
  refine StackInv.frameStep h hmode hcode .refl h.keepsBase hret hslots ?_ ?_ ?_ ?_
  · intro g hg base hbase
    exact hown base (hnexts g hg base hbase)
  · intro _
    cases hnext : (s.stackStep c a.ok op).2 with
    | none => exact hfol.2
    | some next =>
      refine ⟨fun hsome => hfol.1 ?_, hfol.2⟩
      obtain ⟨base, hbase⟩ := Option.isSome_iff_exists.mp hsome
      rw [stackStep_parks hnext hbase]
      rfl
  · intro i hr hon
    have hrest : doomed rest = true := by
      rcases hcell with hsame | hsome
      · have hd := h.doomed_of_retired hmode (hsame ▸ hr) hon
        rwa [hcode] at hd
      · exact hfol.1 hsome
    cases (s.stackStep c a.ok op).2 with
    | none | some next => exact hrest
  · intro id hid
    obtain ⟨next, -, hne⟩ := List.mem_map.mp hid
    cases hne

theorem Stacked.allocate
    (hcode : (s.cpus c).code = .allocate spec :: rest) : (s.runFrame c (.allocate spec) rest a).Stacked := by
  simp only [State.runFrame]
  split
  · exact h.continueCalm hmode hcode .refl (calm_onFailure spec) rfl
  · rename_i i hempty
    have hmark : (s.kstackSlots i).mark = .empty := by
      unfold emptyStack at hempty
      simpa using List.find?_some hempty
    obtain ⟨hfree, hpages⟩ := (h.slot i).empty hmark
    have hunused : ∀ d, (s.cpus d).stack ≠ .slot i := by
      intro d hd
      rw [(h.slot i).pages d hd] at hpages
      cases hpages
    have hset : SlotsInv s.queue s.cpus s.retired
        (update s.kstackSlots i { s.kstackSlots i with mark := .reserved }) :=
      SlotsInv.setSlot h.slot hfree (by simp) fun d hd => absurd hd (hunused d)
    obtain ⟨hpop, hcount⟩ := hset.pop hcode
    have hzero :
      holders s.queue.threads (update s.cpus c { s.cpus c with code := rest }) s.retired i = 0 := by
      have := hcount i
      omega
    refine h.replaceFrame hmode hcode .refl h.keepsBase (hpop.pushHold (u := .building) rfl (by simp) hzero ?_
      fun d hd => absurd hd (hunused d)) rfl rfl
    show Use.building.Fits (update s.kstackSlots i _ i)
    rw [update_self]
    rfl

theorem Stacked.mapStack
    (hcode : (s.cpus c).code = .mapStack i spec :: rest) :
    (s.runFrame c (.mapStack i spec) rest a).Stacked := by
  obtain ⟨hpop, hfree, -, hunused⟩ := h.popHold hcode (u := .building) rfl rfl
  have hsame : SameStacks s.cpus (update s.cpus c { s.cpus c with code := rest }) :=
    SameStacks.update rfl rfl
  have hunused' : ∀ d, (update s.cpus c { s.cpus c with code := rest } d).stack ≠ .slot i :=
    fun d hd => hunused d ((hsame d).1 ▸ hd)
  simp only [State.runFrame]
  split
  · have hset : SlotsInv s.queue (update s.cpus c { s.cpus c with code := rest }) s.retired
        (update s.kstackSlots i ⟨.mapped, true⟩) :=
      hpop.setSlot hfree (by simp) fun d hd => absurd hd (hunused' d)
    refine h.replaceFrame hmode hcode .refl h.keepsBase (hset.pushHold (u := .spawning) rfl (by simp) hfree ?_
      fun d hd => absurd hd (hunused d)) rfl rfl
    show Use.spawning.Fits (update s.kstackSlots i _ i)
    rw [update_self]
    exact ⟨rfl, rfl⟩
  · have hset : SlotsInv s.queue (update s.cpus c { s.cpus c with code := rest }) s.retired
        (update s.kstackSlots i ⟨.empty, false⟩) :=
      hpop.setSlot hfree (fun _ => rfl) fun d hd => absurd hd (hunused' d)
    obtain ⟨hsettled, hidle⟩ := Frame.calm_all (calm_onFailure spec)
    exact h.replaceFrame hmode hcode .refl h.keepsBase (hset.pushIdle fun g hg => (hidle g hg).1) hsettled rfl

include hc

theorem Stacked.spawn (hcode : (s.cpus c).code = .spawn base spec :: rest) :
    (s.runFrame c (.spawn base spec) rest a).Stacked := by
  simp only [State.runFrame]
  unfold State.spawnThread
  dsimp only
  split
  · -- The queue is full, or the process takes no more threads: the stack goes back.
    obtain ⟨hsettled, hidle⟩ := Frame.calm_all (calm_onFailure spec)
    refine h.replaceFrame hmode hcode .refl h.keepsBase ?_ hsettled rfl
    cases base with
    | outside =>
      refine (SlotsInv.pop h.slot hcode).1.pushIdle fun g hg => ?_
      rcases List.mem_cons.mp hg with rfl | hg
      · rfl
      · exact (hidle g hg).1
    | slot j =>
      obtain ⟨hpop, hfree, hfits, hunused⟩ := h.popHold hcode (u := .spawning) rfl rfl
      exact hpop.pushHold (u := .freeing) rfl (fun g hg => (hidle g hg).1) hfree hfits
        fun d hd => absurd hd (hunused d)
  · rename_i q hpush
    obtain ⟨free, hslot, hthreads, -⟩ := push_eq_some hpush
    have hmain : ∀ frames : List Frame, frames.all Frame.calm = true →
        StackInv q (update s.cpus c { s.cpus c with code := frames ++ rest }) s.retired s.kstackSlots := by
      intro frames hframes
      have hquiet : StackInv s.queue (update s.cpus c { s.cpus c with code := frames ++ rest })
          s.retired s.kstackSlots :=
        h.continueCalm hmode hcode .refl hframes rfl
      have hsame : SameStacks s.cpus (update s.cpus c { s.cpus c with code := frames ++ rest }) :=
        SameStacks.update rfl rfl
      refine hquiet.grow hslot hthreads rfl ?_ (SlotsInv.giveThread hquiet.slot hslot hthreads rfl ?_)
      · intro d hd
        rw [(hsame d).2] at hd
        exact Nat.lt_irrefl _ ((hc.cpu d).fresh _ hd)
      · rintro j ⟨rfl⟩
        obtain ⟨-, hfree, hfits, hunused⟩ := h.popHold hcode (u := .spawning) rfl rfl
        refine ⟨?_, hfits, fun d hd => hunused d ((hsame d).1 ▸ hd)⟩
        -- The new frames hold nothing, so the slot is as free as after the old frame was dropped.
        have hold := holders_setCpu s.queue.threads s.cpus s.retired j c { s.cpus c with code := rest }
        have hnew :=
          holders_setCpu s.queue.threads s.cpus s.retired j c { s.cpus c with code := frames ++ rest }
        have hequal : cpuHolds j { s.cpus c with code := frames ++ rest } =
            cpuHolds j { s.cpus c with code := rest } := by
          simp only [cpuHolds, codeHolds_append, codeHolds_idle (Frame.calm_all hframes).2, Nat.zero_add]
        omega
    split <;> exact hmain _ rfl

theorem Stacked.terminateThread (hcode : (s.cpus c).code = .terminate id :: rest)
    (hann : ∀ d, (s.cpus d).running = some id → Announces (s.cpus d) id) :
    (s.terminateThread c id rest).Stacked := by
  obtain ⟨⟨q, hsafe, heq⟩, -, hret⟩ := markThreadTerminated_spec hc id
  unfold State.terminateThread
  generalize s.markThreadTerminated id = marked at heq hret ⊢
  obtain ⟨s', retained⟩ := marked
  dsimp only at heq hret ⊢
  subst heq
  split
  · exact h.continueCalm hmode hcode hsafe rfl rfl
  · split
    · exact h.continueCalm hmode hcode hsafe rfl rfl
    · refine h.quietCpu hmode hcode hsafe rfl rfl rfl (List.forall_mem_singleton.mpr ⟨rfl, rfl⟩)
        (by rintro ⟨⟩) (fun x hx => ?_) (.inl (by show (s.cpus c).mode.exiting = false; rw [hmode]; rfl))
      cases List.mem_singleton.mp hx
      exact unrun_of_retired (hret ‹_›) hann

theorem Stacked.retirePass {todo kept : List ThreadId}
    (hcode : (s.cpus c).code = .retirePass (id :: todo) kept :: rest)
    (hann : ∀ d, (s.cpus d).running = some id → Announces (s.cpus d) id) :
    (s.runFrame c (.retirePass (id :: todo) kept) rest a).Stacked := by
  simp only [State.runFrame]
  unfold removeQuiescent
  by_cases hcond : ((s.queue.get id).any fun t => t.state = .terminated && !s.cpuReferenced id) = true
  · obtain ⟨t, ht, hquiet⟩ := (Option.any_eq_true _ _).mp hcond
    simp only [Bool.and_eq_true, decide_eq_true_eq, Bool.not_eq_true'] at hquiet
    have hunrun : ∀ d, (s.cpus d).running ≠ some id :=
      fun d hrun => cpuReferenced_eq_false.mp hquiet.2 d (hann d hrun)
    have hfree := h.removeFree hc hmode hcode [.retirePass todo kept] hunrun rfl rfl
    simp only [hcond, if_true]
    cases hr : (s.queue.remove id).2 with
    | none =>
      obtain ⟨slot, -, hslot, hid⟩ := get_eq_some ht
      exact absurd hid ((remove_eq_none hr).2 slot t hslot)
    | some u =>
      rw [hr] at hfree
      exact hfree
  · simp only [hcond, Bool.false_eq_true, if_false]
    exact h.continueCalm hmode hcode .refl rfl rfl

/-- **Running a frame keeps the stacks safe.** -/
theorem Stacked.runFrame
    (hcode : (s.cpus c).code = f :: rest) (hok : s.orderly (.step c a) = true) :
    (s.runFrame c f rest a).Stacked := by
  have hf : FrameInv s.queue s.nextThreadId c (s.cpus c).running f :=
    (hc.cpu c).frames f (hcode ▸ List.mem_cons_self)
  have hrun : (s.cpus c).mode.exiting = false := by rw [hmode]; rfl
  cases f with
  | restoreInterrupts enabled =>
    exact h.calmCpu hmode hcode [] rfl rfl rfl rfl (fun hd => hd) (.inl hrun)
  | yieldNow =>
    simp only [State.runFrame, State.continueWith, enter, setCode, State.setCpu, update_idem, update_self]
    exact h.calmCpu hmode hcode [_] rfl rfl rfl rfl (fun hd => hd) (.inl rfl)
  | reclaim => exact h.reclaim hmode hcode
  | stack op => exact h.stackFrame hmode hcode
  | allocate spec => exact h.allocate hmode hcode
  | mapStack i spec => exact h.mapStack hmode hcode
  | spawn base spec => exact h.spawn hc hmode hcode
  | apStart id slot pc =>
    cases pc with
    | setRunning =>
      exact h.continueCalm hmode hcode (kept_setState s.queue id .running).safe rfl rfl
    | enableInterrupts =>
      exact h.calmCpu hmode hcode [_] rfl rfl rfl rfl (by rintro ⟨⟩) (.inl hrun)
    | switch =>
      simp only [State.runFrame, enter, setCode, State.setCpu, update_idem, update_self]
      exact h.calmCpu hmode hcode [] rfl rfl rfl rfl (by rintro ⟨⟩) (.inl rfl)
  | apFail =>
    exact h.calmCpu hmode hcode [_] rfl rfl hcode rfl (fun hd => hd) (.inl rfl)
  | exitProcess id =>
    simp only [State.runFrame]
    split
    · split
      · exact h.continueCalm hmode hcode .refl rfl rfl
      · exact Stacked.continueCalm (s := { s with stopping := _ }) h hmode hcode .refl rfl rfl
    · exact h.continueCalm hmode hcode .refl rfl rfl
  | processTerminate pid =>
    simp only [State.runFrame]
    split
    · exact h.continueCalm hmode hcode .refl rfl rfl
    · exact Stacked.continueCalm (s := { s with stopping := _ }) h hmode hcode .refl rfl rfl
  | retireThreads pid owner =>
    refine h.continueCalm hmode hcode .refl ?_ rfl
    simp [Frame.calm, Frame.settled, Frame.hold, Frame.parks]
  | retirePass todo kept =>
    cases todo with
    | nil =>
      cases kept with
      | nil =>
        exact h.continueCalm hmode hcode .refl rfl rfl
      | cons id kept =>
        exact h.continueCalm hmode hcode .refl rfl rfl
    | cons id todo => exact h.retirePass hc hmode hcode (orderly_strikes hok hmode hcode rfl)
  | retireCheck id todo kept =>
    simp only [State.runFrame]
    split
    · exact h.continueCalm hmode hcode .refl rfl rfl
    · exact h.continueCalm hmode hcode .refl rfl rfl
  | terminate id => exact h.terminateThread hc hmode hcode (orderly_strikes hok hmode hcode rfl)
  | terminateRemove id =>
    have hunrun := h.unrun id (.inl ⟨c, hcode ▸ List.mem_cons_self⟩)
    cases hr : (s.queue.remove id).2 with
    | none =>
      -- Somebody else has removed it.
      simp only [State.runFrame, hr, (remove_eq_none hr).1]
      exact h.continueCalm hmode hcode .refl rfl rfl
    | some t =>
      obtain ⟨slot, ht, hid, -, -⟩ := remove_eq_some hr
      have hfree := h.removeFree hc hmode hcode [] (hunrun slot t ht hid) rfl rfl
      rwa [List.append_nil] at hfree
  | terminateSelf id pc =>
    cases pc with
    | remove => exact h.removeRetire hc hmode hcode hf.1 rfl rfl
    | clear =>
      exact h.calmCpu hmode hcode [.yieldNow, .terminateSelf id .halt] rfl rfl rfl rfl
        (fun _ => rfl) (.inl hrun)
    | halt =>
      exact h.calmCpu hmode hcode [_] rfl rfl hcode rfl (fun hd => hd) (.inl rfl)
  | exit id pc =>
    cases pc with
    | begin =>
      obtain ⟨q, stopping, hs', hsafe⟩ := beginThreadExit_spec s id
      simp only [State.runFrame]
      split
      · rename_i s₁ pid hres
        rw [hres] at hs'
        cases hs'
        exact Stacked.continueCalm (s := { s with stopping := _ }) h hmode hcode hsafe rfl rfl
      · rename_i s₁ hres
        rw [hres] at hs'
        cases hs'
        exact Stacked.continueCalm (s := { s with stopping := _ }) h hmode hcode hsafe rfl rfl
    | setTerminated =>
      exact h.continueCalm hmode hcode (kept_setState s.queue id .terminated).safe rfl rfl
    | clear =>
      exact h.calmCpu hmode hcode [_] rfl rfl rfl rfl (by rintro ⟨⟩) (.inl hrun)
    | select =>
      simp only [State.runFrame, enter, setCode, State.setCpu, update_idem, update_self]
      exact h.calmCpu hmode hcode [_] rfl rfl rfl rfl (fun _ => rfl) (.inr ⟨⟨_, rfl⟩, rfl⟩)
    | remove => exact h.removeRetire hc hmode hcode hf.1 rfl rfl
    | halt =>
      exact h.calmCpu hmode hcode [_] rfl rfl hcode rfl (fun hd => hd) (.inl rfl)

end Frames

/-! ## Selecting, exiting and switching -/

/-- A CPU changes its mode and keeps its code. -/
theorem Stacked.setModeQuiet (hq : Shrinks s.queue q)
    (hkeep : ∀ d, d ≠ c → KeepsBase q (s.cpus d)) (hrun : cpu.running = (s.cpus c).running)
    (hstack : cpu.stack = (s.cpus c).stack) (hcode : cpu.code = (s.cpus c).code)
    (hload : ∀ new, (s.cpus c).mode ≠ .load new) (hhold : cpu.mode.hold = none)
    (hparks : cpu.mode.parks = none)
    (hexit : cpu.mode.exiting = true → (s.cpus c).mode.exiting = true) (hbase : KeepsBase q cpu) :
    StackInv q (update s.cpus c cpu) s.retired s.kstackSlots := by
  exact StackInv.quiet [] h rfl (hcode.trans (List.nil_append _).symm) hq hkeep hrun hstack
    nofun (fun _ _ _ hd => hd) hload hhold hparks (fun he => (h.cpu c).exiting (hexit he)) hbase nofun

/-- A CPU in `run` mode gets new code for which its stack does not matter. -/
theorem Stacked.setCodeQuiet (frames : List Frame) (hload : ∀ new, (s.cpus c).mode ≠ .load new)
    (hmode : cpu.mode.exiting = false) (hrun : cpu.running = (s.cpus c).running)
    (hstack : cpu.stack = (s.cpus c).stack) (hnew : cpu.code = frames ++ (s.cpus c).code)
    (hframes : frames.all Frame.calm = true)
    (hsafe : ∀ i, s.retired c = some (.slot i) → (s.cpus c).stack = .slot i →
      doomed (s.cpus c).code = true → doomed (frames ++ (s.cpus c).code) = true) :
        (s.setCpu c cpu).Stacked := by
  obtain ⟨hhold, hparks, hbase⟩ := Mode.calm hmode
  obtain ⟨hsettled, hidle⟩ := Frame.calm_all hframes
  refine StackInv.quiet [] h rfl hnew .refl (fun d _ => h.keepsBase d) hrun hstack hidle hsafe hload hhold
    hparks ?_ (fun x b y slot hm => absurd hm (hbase x (some b) y slot))
    fun id hid => absurd hid ((Frame.settled_all hsettled).2 id)
  intro he
  rw [hmode] at he
  cases he

theorem Stacked.exitRead (hmode : (s.cpus c).mode = .exitRead id next slot) :
    (s.setMode c (.exitRemove id ((s.queue.get id).map (·.kernelStack)) next slot)).Stacked := by
  refine h.setModeQuiet .refl (fun d _ => h.keepsBase d) rfl rfl rfl ?_ rfl rfl ?_ ?_
  · intro new
    rw [hmode]
    nofun
  · intro _
    rw [hmode]
    rfl
  · intro x base y slot' hm
    simp only [Mode.exitRemove.injEq] at hm
    obtain ⟨rfl, hbase, -, -⟩ := hm
    obtain ⟨t, ht, rfl⟩ := Option.map_eq_some_iff.mp hbase
    obtain ⟨i, -, hi, hid⟩ := get_eq_some ht
    exact ⟨i, t, hi, hid, rfl⟩

/-- A stack operation at the end of an exit. -/
theorem Stacked.exitStack (hmode : (s.cpus c).mode = .exitStack op next slot) :
    ((s.stackStep c a.ok op).1.setMode c (match (s.stackStep c a.ok op).2 with
        | none => .switchTo none next slot (.halt .exitSwitchReturned)
        | some op => .exitStack op next slot)).Stacked := by
  obtain ⟨hqueue, hcpus, -⟩ := stackStep_fixes s c a.ok op
  have hdoomed : doomed (s.cpus c).code = true := (h.cpu c).exiting (by rw [hmode]; rfl)
  have hdrop : SlotsInv s.queue (update s.cpus c { s.cpus c with mode := .run }) s.retired s.kstackSlots := by
    exact SlotsInv.drop h.slot rfl rfl rfl (((List.nil_sublist _).append_left _).subperm)
  have hslots : ∀ mode : Mode, mode.hold = (s.stackStep c a.ok op).2.bind StackOp.hold →
      SlotsInv s.queue (update s.cpus c { s.cpus c with mode := mode })
        (s.stackStep c a.ok op).1.retired (s.stackStep c a.ok op).1.kstackSlots := by
    intro mode hhold
    rw [← update_idem { s.cpus c with mode := .run }]
    refine SlotsInv.stackStep h.slot hdrop (SameStacks.update rfl rfl) ?_ ?_ (update_self ..) rfl rfl ?_
    · intro u i hu
      refine ⟨.mode (by rw [hmode]; exact hu), ?_⟩
      have hcount := holders_setCpu s.queue.threads s.cpus s.retired i c { s.cpus c with mode := .run }
      have hnew : cpuHolds i { s.cpus c with mode := .run } = codeHolds i (s.cpus c).code := rfl
      have hold : cpuHolds i (s.cpus c) = codeHolds i (s.cpus c).code + 1 := by
        rw [cpuHolds, hmode, Mode.hold, weight_self hu]
      have hsingle := (h.slot i).single
      omega
    · intro base hbase
      exact (h.cpu c).ownMode base (by rw [hmode]; exact hbase)
    · rw [Cpu.held, Cpu.held, hhold, show Mode.run.hold = none from rfl, Option.toList_none, List.append_nil]
      exact List.perm_append_comm.subperm
  show StackInv (s.stackStep c a.ok op).1.queue (update (s.stackStep c a.ok op).1.cpus c
    { (s.stackStep c a.ok op).1.cpus c with mode := _ })
    (s.stackStep c a.ok op).1.retired (s.stackStep c a.ok op).1.kstackSlots
  rw [hqueue, hcpus]
  have hret := (stackStep_retired s c a.ok op).1
  have hunrun : ∀ id, .terminateRemove id ∈ (s.cpus c).code → Unrun s.queue s.cpus id :=
    fun id hid => h.unrun id (.inl ⟨c, hid⟩)
  cases hnext : (s.stackStep c a.ok op).2 with
  | none =>
    exact StackInv.step h .refl (fun d _ => h.keepsBase d) hret rfl rfl (hslots _ (by rw [hnext]; rfl))
      ⟨(h.cpu c).own, by simp [Mode.parks], (h.cpu c).followed, fun _ => hdoomed, by simp,
        fun _ _ _ => .inl hdoomed⟩ hunrun
  | some op' =>
    refine StackInv.step h .refl (fun d _ => h.keepsBase d) hret rfl rfl
      (hslots _ (by rw [hnext]; rfl)) ⟨(h.cpu c).own, ?_, (h.cpu c).followed, fun _ => hdoomed,
        by simp, fun _ _ _ => .inl hdoomed⟩ hunrun
    intro base hbase
    exact (h.cpu c).ownMode base (by rw [hmode]; exact stackStep_parks hnext hbase)

theorem Stacked.switchReturns (hload : ∀ new, (s.cpus c).mode ≠ .load new)
    (after : AfterSwitch) : (s.switchReturns c after).Stacked := by
  cases after with
  | resume | halt reason =>
    exact h.setModeQuiet .refl (fun d _ => h.keepsBase d) rfl rfl rfl hload rfl rfl nofun nofun

theorem Stacked.switchPublish (hload : ∀ new, (s.cpus c).mode ≠ .load new) :
    (s.switchPublish c current old next slot after).Stacked := by
  unfold State.switchPublish
  dsimp only
  split
  · exact h.switchReturns hload after
  · split
    · exact h.switchReturns hload after
    · split
      · exact h.switchReturns hload after
      · split
        · exact h.setModeQuiet .refl (fun d _ => h.keepsBase d) rfl rfl rfl hload rfl rfl nofun nofun
        · exact h.setModeQuiet .refl (fun d _ => h.keepsBase d) rfl rfl rfl hload rfl rfl nofun nofun

include hc

theorem Stacked.selectStep {purpose : SelectFor}
    (hmode : (s.cpus c).mode = .select purpose) : (s.selectStep c purpose).Stacked := by
  have hper := selectNextThread_persists (c := c) hc
  have hkeep : ∀ d, d ≠ c → KeepsBase (s.queue.selectNextThread c (s.cpus c).current).1 (s.cpus d) :=
    fun d _ => (h.keepsBase d).persists hper
  have hload : ∀ new, (s.cpus c).mode ≠ .load new := by
    intro new
    rw [hmode]
    nofun
  unfold State.selectStep
  dsimp only
  split
  · exact h.setModeQuiet hper.shrinks hkeep rfl rfl rfl hload rfl rfl nofun nofun
  · split
    · exact h.setModeQuiet hper.shrinks hkeep rfl rfl rfl hload rfl rfl nofun nofun
    · exact h.setModeQuiet hper.shrinks hkeep rfl rfl rfl hload rfl rfl nofun nofun
  · exact h.setModeQuiet hper.shrinks hkeep rfl rfl rfl hload rfl rfl nofun nofun
  · refine h.setModeQuiet hper.shrinks hkeep rfl rfl rfl hload rfl rfl ?_ nofun
    intro _
    rw [hmode]
    rfl

/-- The exiting thread leaves the queue. -/
theorem Stacked.keepsBase_exit {base : Option StackBase}
     (hmode : (s.cpus c).mode = .exitRemove id base next slot) (d : Fin n) (hd : d ≠ c) :
    KeepsBase (s.queue.remove id).1 (s.cpus d) := by
  have hm := hc.modeInv hmode
  exact h.keepsBase_remove hc fun hrun => absurd (hc.exclusive d c id hrun hm.1) hd

/-- The CPU, still on the stack of the thread that just left the queue, is about to retire it. -/
theorem Stacked.exitRemove (hmode : (s.cpus c).mode = .exitRemove id (some base) next slot) :
    ((s.setQueue (s.queue.remove id).1).setMode c (.exitStack (.retire base) next slot)).Stacked := by
  have hm := hc.modeInv hmode
  have hrun : (s.cpus c).running = some id := hm.1
  obtain ⟨i, t, ht, hid, hbase⟩ := h.keepsBase c id base next slot hmode
  have hremove : (s.queue.remove id).2 = some t := by
    rw [ThreadQueue.remove, ← hid, hc.wf.slotIndex ht]
    exact ht
  have hrun' : (s.cpus c).running = some t.id := by
    rw [hid]
    exact hrun
  have hdoomed : doomed (s.cpus c).code = true := (h.cpu c).exiting (by rw [hmode]; rfl)
  have hshrunk : SlotsInv (s.queue.remove id).1 s.cpus s.retired s.kstackSlots :=
    SlotsInv.shrink h.slot (.remove hc.wf id)
  refine StackInv.step h (.remove hc.wf id) (h.keepsBase_exit hc hmode) (fun _ _ => rfl) rfl rfl ?_
    ⟨?_, ?_, (h.cpu c).followed, fun _ => hdoomed, by simp, fun _ _ _ => .inl hdoomed⟩ ?_
  · cases base with
    | outside => exact hshrunk.drop rfl rfl rfl (((List.nil_sublist _).append_left _).subperm)
    | slot j =>
      have hbefore : Holds s.queue.threads s.cpus s.retired none (.thread t.id) j := .thread ht hbase
      have hfits : Use.parked.Fits (s.kstackSlots j) := (h.slot j).fits none (.thread t.id) hbefore
      refine hshrunk.give (u := .parked) rfl rfl rfl
        (SlotsInv.free_of_remove h.slot hremove hbase) ?_ hfits ?_
      · exact (List.perm_append_singleton (Use.parked, j) _).subperm.trans
          (((List.sublist_append_left _ _).cons_cons _).subperm)
      · intro d hd
        exact .inr ⟨rfl, by rw [hc.exclusive d c t.id ((h.slot j).runs hbefore hd) hrun']⟩
  · intro f hf b hb
    exact absurd hrun' (((h.cpu c).own f hf b hb).2 i t ht)
  · intro b hb
    cases hb
    rw [← hbase]
    exact (hc.cpu c).stack i t ht hrun'
  · intro x hx
    exact (Shrinks.remove hc.wf id).unrun (h.unrun x (.inl ⟨c, hx⟩))

/-- A CPU whose thread lost its stack guard terminates it. The thread is still in the queue, so the CPU
    has not retired its stack. -/
theorem Stacked.pushTerminate {mode : Mode} {old : Slot} (hload : ∀ new, (s.cpus c).mode ≠ .load new)
    (hcur : (s.cpus c).current = some id) (hsw : (s.cpus c).mode.switching = false)
    (hslot : s.queue.slotIndex id = some old) (hmode : mode.exiting = false) :
    ((s.setMode c mode).setCode c (.terminate id :: (s.cpus c).code)).Stacked := by
  obtain ⟨t, ht, hid⟩ := slotIndex_eq_some hslot
  have hrun : (s.cpus c).running = some t.id := by
    rw [hid]
    exact (hc.cpu c).current id hcur hsw
  have hstack := (hc.cpu c).stack old t ht hrun
  rw [setMode_setCode]
  exact h.setCodeQuiet [_] hload hmode rfl rfl rfl rfl
    fun i hr hon _ => absurd (hstack ▸ hon) (SlotsInv.retired_ne h.slot hr ht)

theorem Stacked.switchStep
    (hmode : (s.cpus c).mode = .switchTo current next slot after) (guardIntact : Bool) :
    (s.switchStep c current next slot after guardIntact).Stacked := by
  have hload : ∀ new, (s.cpus c).mode ≠ .load new := by
    intro new
    rw [hmode]
    nofun
  unfold State.switchStep
  cases current with
  | none => exact h.switchPublish hload
  | some id =>
    dsimp only
    split
    · exact h.switchReturns hload after
    · rename_i old hslot
      split
      · exact h.switchPublish hload
      · have hm := hc.modeInv hmode
        have hsw : (s.cpus c).mode.switching = false := by rw [hmode]; rfl
        cases after with
        | resume | halt reason => exact h.pushTerminate hc hload hm.1 hsw hslot rfl

/-! ## Saving and loading -/

theorem Stacked.saveStep (hmode : (s.cpus c).mode = .save old new) :
    ((s.saveContext c old).setCpu c { s.cpus c with mode := .load new, code := [] }).Stacked := by
  have hcpu : ∀ q : Queue n, CpuStackInv q (s.retired c) { s.cpus c with mode := .load new, code := [] } :=
    fun q =>
    ⟨nofun, nofun, trivial, nofun, nofun, fun _ _ _ => .inr ⟨new, rfl⟩⟩
  cases old with
  | none =>
    refine StackInv.step h .refl (fun d _ => h.keepsBase d) (fun _ _ => rfl) rfl rfl ?_ (hcpu s.queue) nofun
    exact SlotsInv.drop h.slot rfl rfl rfl List.nil_subperm
  | some old =>
    have hm := hc.modeInv hmode
    obtain ⟨t, ht⟩ := hm.2
    unfold saveContext
    simp only [ht.here]
    exact StackInv.save h ht.here ht.running rfl rfl rfl

theorem Stacked.loadStep (hmode : (s.cpus c).mode = .load new) : (s.loadContext c new).Stacked := by
  have hm := hc.modeInv hmode
  obtain ⟨⟨t, ht⟩, -⟩ := hm
  unfold loadContext
  rw [ht.here]
  exact StackInv.load h hc hmode ht.here rfl rfl rfl rfl rfl rfl rfl

/-! ## Whole steps -/

theorem Stacked.cpuStep
    (hok : s.orderly (.step c a) = true) (hstep : s.cpuStep c a = some s') : s'.Stacked := by
  cases cpuStep_moves hstep with
  | run hmode hcode => exact h.runFrame hc hmode hcode hok
  | select hmode => exact h.selectStep hc hmode
  | exitRead hmode => exact h.exitRead hmode
  | @exitRemove id base next slot hmode =>
    cases base with
    | none =>
      exact h.setModeQuiet (.remove hc.wf id) (h.keepsBase_exit hc hmode) rfl rfl rfl
        (fun new => by rw [hmode]; nofun) rfl rfl nofun nofun
    | some base => exact h.exitRemove hc hmode
  | exitStack hmode => exact h.exitStack hmode
  | switchTo hmode => exact h.switchStep hc hmode a.ok
  | save hmode => exact h.saveStep hc hmode
  | load hmode => exact h.loadStep hc hmode
  | ack hmode =>
    exact h.setModeQuiet .refl (fun d _ => h.keepsBase d) rfl rfl rfl
      (fun new => by rw [hmode]; nofun) rfl rfl nofun nofun

/-- **Every orderly step keeps the stacks safe.** -/
theorem Stacked.step {l : Label n} (hok : s.orderly l = true) (hstep : s.step l = some s') : s'.Stacked := by
  cases step_moves hstep with
  | step hstep => exact h.cpuStep hc hok hstep
  | @call c call frames hmode hcode _ hframes =>
    refine Stacked.setCodeQuiet (s := { s with apsReleased := _ }) h _ (fun new => by rw [hmode]; nofun)
      ?_ rfl rfl ?_ (callFrames_calm hframes) ?_
    · show (s.cpus c).mode.exiting = false
      rw [hmode]
      rfl
    · show frames = frames ++ (s.cpus c).code
      rw [hcode, List.append_nil]
    · intro i _ _ hd
      change doomed (s.cpus c).code = true at hd
      rw [hcode] at hd
      cases hd
  | callNone hmode =>
    exact h.setModeQuiet .refl (fun d _ => h.keepsBase d) rfl rfl rfl (fun new => by rw [hmode]; nofun)
      rfl rfl nofun nofun
  | @interrupt c reschedule hmode =>
    have hframes : (Frame.reclaim :: (if reschedule then [.yieldNow] else []) ++
        [Frame.restoreInterrupts true]).all Frame.calm = true := by
      cases reschedule <;> rfl
    refine h.setCodeQuiet _ (fun new => by rw [hmode]; nofun) ?_ rfl rfl ?_ hframes ?_
    · show (s.cpus c).mode.exiting = false
      rw [hmode]
      rfl
    · simp
    · -- The interrupt finds the CPU on another stack than the one in its cell.
      intro i hr hon
      simp only [orderly, hr, hon, ne_eq, not_true_eq_false, decide_false, Bool.false_eq_true] at hok
  | @setInterrupts c enabled hmode _ =>
    exact h.setModeQuiet .refl (fun d _ => h.keepsBase d) rfl rfl rfl
      (fun new => by rw [hmode]; nofun) (by show (s.cpus c).mode.hold = none; rw [hmode]; rfl)
      (by show (s.cpus c).mode.parks = none; rw [hmode]; rfl) (fun he => he) (h.keepsBase c)
  | @async op => exact StackInv.persists h (.of_safe (safe_asyncOp s.queue op))
  | @boot c pid hmode =>
    have hm := hc.modeInv hmode
    have hidle : ∀ f ∈ [Frame.reclaim, .allocate ⟨pid, .idle, false⟩], f.idle := (Frame.calm_all rfl).2
    refine StackInv.quiet _ h (List.append_nil _).symm rfl .refl (fun d _ => h.keepsBase d) rfl rfl hidle ?_
      (fun new => by rw [hmode]; nofun) rfl rfl nofun nofun (by simp)
    -- The processor has run no thread yet, so it is on its boot stack.
    intro i _ hon
    rw [h.boot c hm.1] at hon
    cases hon

end Steps

theorem initial_exiting (bsp c : Fin n) : ((initial bsp).cpus c).mode.exiting = false := by
  show (if c = bsp then Mode.switchTo none 1 0 (.halt .startReturned) else .offline).exiting = false
  split <;> rfl

theorem stacked_initial (bsp : Fin n) : (initial bsp).Stacked where
  slot := by
    intro i
    have hthread : ∀ slot, threadHolds i ((initial bsp).queue.threads slot) = 0 := by
      intro slot
      cases ht : (initial bsp).queue.threads slot with
      | none => rfl
      | some t =>
        rw [(initial_threads ht).2]
        rfl
    have hcpu : ∀ c, cpuHolds i ((initial bsp).cpus c) = 0 := by
      intro c
      rw [cpuHolds, (Mode.calm (initial_exiting bsp c)).1]
      rfl
    have hzero : holders (initial bsp).queue.threads (initial bsp).cpus (initial bsp).retired i = 0 := by
      have hretired : total (retiredHolds i) (initial bsp).retired = 0 := total_eq_zero fun _ => rfl
      unfold holders
      rw [total_eq_zero hthread, total_eq_zero hcpu, hretired]
    refine ⟨by omega, ?_, fun _ => ⟨hzero, rfl⟩, by rintro _ ⟨⟩, by rintro _ ⟨⟩, by rintro _ _ ⟨⟩⟩
    intro o u hu
    have := hu.pos
    omega
  cpu := by
    intro c
    obtain ⟨-, hparks, hbase⟩ := Mode.calm (initial_exiting bsp c)
    refine ⟨by rintro _ ⟨⟩, by simp [hparks], trivial, by simp [initial_exiting], ?_, by rintro _ ⟨⟩⟩
    exact fun id base x slot hm => absurd hm (hbase id (some base) x slot)
  context := by
    intro slot t ht _ f hf
    rw [(initial_threads ht).2] at hf
    cases hf
  unrun := by
    rintro id (⟨c, hf⟩ | ⟨slot, t, ht, -, hf⟩)
    · cases hf
    rw [(initial_threads ht).2] at hf
    cases hf
  boot := fun _ _ => rfl

/-! ## Whole runs -/

/-- The stack each CPU executes on is mapped and reserved, belongs to no thread but the one the CPU
    executes, and no other CPU is on it. -/
def stacksSafe (s : State n) : Prop :=
  ∀ c i, (s.cpus c).stack = .slot i → (s.kstackSlots i).pages = true ∧ (s.kstackSlots i).mark ≠ .empty ∧
      (∀ slot t, s.queue.threads slot = some t → t.kernelStack = .slot i → (s.cpus c).running = some t.id) ∧
      ∀ d, (s.cpus d).stack = .slot i → d = c

theorem Stacked.stacksSafe (h : s.Stacked) : s.stacksSafe := by
  intro c i hon
  have hpages := (h.slot i).pages c hon
  refine ⟨hpages, ?_, ?_, fun d hd => (h.slot i).alone d c hd hon⟩
  · intro hmark
    rw [((h.slot i).empty hmark).2] at hpages
    cases hpages
  · intro slot t ht hk
    exact (h.slot i).runs (.thread ht hk) hon

end State

/-- **In a run of orderly steps, a stack is released or handed on only when no CPU executes on it.** For
    any number of CPUs and any interleaving, in every state reached the stack under each CPU is still mapped,
    still reserved and nobody else's. -/
theorem stack_in_use_is_kept {s : State n} (h : (scheduler n).Reach (fun s l => s.orderly l = true) s) :
    s.stacksSafe := by
  have hinv : s.Consistent ∧ s.Stacked := by
    refine System.Reach.invariant (I := fun s => s.Consistent ∧ s.Stacked) ?_ ?_ h
    · rintro _ ⟨bsp, rfl⟩
      exact ⟨State.consistent_initial bsp, State.stacked_initial bsp⟩
    · intro s l s' hs hok hstep
      exact ⟨hs.1.step hstep, hs.2.step hs.1 hok hstep⟩
  exact hinv.2.stacksSafe

/-- Two CPUs on the stacks of two threads, in an orderly run. -/
theorem stack_in_use_is_kept_yieldBoth :
    ∃ s, (scheduler 2).Reach (fun s l => s.orderly l = true) s ∧ (s.cpus 0).stack = .slot 1 ∧
      (s.cpus 1).stack = .slot 2 ∧ s.stacksSafe := by
  obtain ⟨s, hs, hp⟩ := System.reach_of_exec (scheduler 2) (fun s l => s.orderly l) (State.initial 0)
    (yieldBoth ++ goOn 1 2) (fun s => (s.cpus 0).stack = .slot 1 ∧ (s.cpus 1).stack = .slot 2) ⟨0, rfl⟩
    (by decide +kernel)
  exact ⟨s, hs, hp.1, hp.2, stack_in_use_is_kept hs⟩

/-- Two threads of one process exit together: thread 4 has cleared its announcement and goes on executing,
    thread 3 retires it as a sibling. -/
def exitTogether : List (Label 2) :=
  yieldBoth ++ goOn 1 2 ++ [.call 1 .exitTask] ++ goOn 1 3 ++ [.call 0 .exitTask] ++ goOn 0 6

/-- **The stack is released under the CPU**: CPU 1 executes thread 4 on a stack whose pages are gone. -/
theorem stack_in_use_released :
    ∃ s, (scheduler 2).Reachable s ∧ (s.cpus 1).running = some 4 ∧ (s.cpus 1).stack = .slot 2 ∧
      (s.kstackSlots 2).pages = false := by
  exact System.reachable_of_exec (scheduler 2) (State.initial 0) exitTogether _ ⟨0, rfl⟩ (by decide +kernel)

end Mnu.Task
