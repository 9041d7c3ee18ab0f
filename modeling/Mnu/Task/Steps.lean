import Mnu.Task.Exclusion

/-!
# `Mnu.Task.Steps` — the scheduler keeps the invariant

Every step of the machine is a change of the queue followed by a change of one CPU, so its proof is one
of the queue lemmas of `Mnu.Task.Exclusion` followed by `Consistent.setCpu`, which is the case of a CPU
that is not in the middle of a switch. The switch itself (publish, save, load) has its own lemmas.

The result is `consistent_of_reachable`, and from it `thread_runs_on_one_cpu` and `live_thread_is_kept`.
-/

namespace Mnu.Task

open Lib ThreadQueue Function

variable {n : Nat} {cpu : Cpu} {a : State.Answer}

namespace State

/-- The state satisfies the invariant of the machine. -/
abbrev Consistent (s : State n) : Prop := Inv s.queue s.cpus s.nextThreadId

/-- A frame that CPU `c` may add to its code. -/
structure Plans (s : State n) (c : Fin n) (f : Frame) : Prop where
  frame : FrameInv s.queue s.nextThreadId c (s.cpus c).running f
  retired : ∀ id, f = .terminateRemove id → Retired s.queue s.cpus id

/-- Frames that assume nothing about the thread they run in. -/
def plain : Frame → Bool
  | .terminate _ => false
  | .terminateRemove _ => false
  | .exitProcess _ => false
  | .exit _ _ => false
  | .terminateSelf _ _ => false
  | .apStart _ _ _ => false
  | .allocate _ => false
  | .mapStack _ _ => false
  | .spawn _ _ => false
  | _ => true

variable {s : State n} {c : Fin n} {f : Frame} {rest frames : List Frame}

theorem Plans.of_plain (h : plain f = true) : s.Plans c f := by
  refine ⟨?_, ?_⟩
  · cases f <;> trivial
  rintro id rfl
  cases h

theorem plain_onFailure (spec : ThreadSpec) : spec.onFailure.all plain = true := by
  unfold ThreadSpec.onFailure
  split <;> rfl

/-- A frame that names no thread to be removed only needs its own assumption. -/
theorem Plans.of_frame (h : FrameInv s.queue s.nextThreadId c (s.cpus c).running f)
    (hne : ∀ id, f ≠ .terminateRemove id) : s.Plans c f :=
  ⟨h, fun id hf => absurd hf (hne id)⟩

theorem Plans.all_plain (h : frames.all plain = true) : frames.Forall (s.Plans c) :=
  List.forall_iff_forall_mem.mpr fun f hf => .of_plain (List.all_eq_true.mp h f hf)

theorem modeInv_run {mode : Mode} (h : mode = .run) : ModeInv s.queue s.nextThreadId c cpu mode := by
  subst h
  trivial

variable {id next : ThreadId} {slot : Slot} {t : Thread (Fin n) Context}

/-- Stack operations touch neither the queue nor the CPUs. -/
theorem stackStep_fixes (s : State n) (c : Fin n) (ok : Bool) (op : StackOp) :
    (s.stackStep c ok op).1.queue = s.queue ∧ (s.stackStep c ok op).1.cpus = s.cpus ∧
      (s.stackStep c ok op).1.nextThreadId = s.nextThreadId := by
  cases op with
  | retire base | free base =>
    cases base with
    | outside => exact ⟨rfl, rfl, rfl⟩
    | slot i =>
      simp only [stackStep]
      split <;> exact ⟨rfl, rfl, rfl⟩
  | swap base | release i => exact ⟨rfl, rfl, rfl⟩

/-- `thread_is_cpu_referenced` is the announcement of some CPU. -/
theorem cpuReferenced_eq_false : s.cpuReferenced id = false ↔ ∀ c, ¬ Announces (s.cpus c) id := by
  simp [cpuReferenced, Announces]

/-- `begin_thread_exit` changes states of threads, and which processes are stopping. -/
theorem beginThreadExit_spec (s : State n) (id : ThreadId) :
    ∃ q stopping, (s.beginThreadExit id).1 = ({ s with stopping := stopping } : State n).setQueue q ∧
      s.queue.Safe q := by
  unfold beginThreadExit
  cases s.queue.get id with
  | none => exact ⟨s.queue, s.stopping, rfl, .refl⟩
  | some t =>
    dsimp only
    split
    · exact ⟨_, s.stopping, rfl, (kept_setState s.queue id .terminated).safe⟩
    · split
      · exact ⟨s.queue, update s.stopping t.processId true, rfl, .refl⟩
      · exact ⟨_, s.stopping, rfl, (kept_setState s.queue id .terminated).safe⟩

/-- The slot a switch resolves `next` to holds the thread `next`. -/
theorem resolved_spec {q : Queue n} {new : Slot}
    (h : (if (q.threads slot).any fun t => t.id = next then some slot else q.slotIndex next) = some new)
    (ht : q.threads new = some t) : t.id = next := by
  split at h
  · rename_i hany
    cases h
    obtain ⟨u, hu, hid⟩ := (Option.any_eq_true _ _).mp hany
    rw [ht] at hu
    cases hu
    exact of_decide_eq_true hid
  · obtain ⟨u, hu, hid⟩ := slotIndex_eq_some h
    rw [ht] at hu
    cases hu
    exact hid

theorem setMode_setCode (s : State n) (c : Fin n) (mode : Mode) (code : List Frame) :
    (s.setMode c mode).setCode c code = s.setCpu c { s.cpus c with mode := mode, code := code } := by
  simp only [State.setMode, setCode, State.setCpu, update_idem, update_self]

theorem safe_asyncOp (q : Queue n) (op : AsyncOp) : q.Safe (op.apply q) := by
  cases op with
  | wake id latchRunning => exact (kept_wakeWaiter q id latchRunning).safe
  | takePending id => exact (kept_takePendingWakeup q id).safe
  | setState id state => exact (kept_setState q id state.state).safe
  | suspend pid => exact (kept_suspendProcess q pid).safe
  | resume pid => exact (kept_resumeProcess q pid).safe
  | holdImage pid owner => exact (kept_holdImageSiblings q pid owner).safe
  | releaseHold id => exact (kept_releaseImageHold q id).safe

section Steps

variable (h : s.Consistent) {current : Option ThreadId} {after : AfterSwitch}
  {old : Option Slot} {s' : State n}
  {mode : Mode} {new : Slot} (hsw : (s.cpus c).mode.switching = false)
include h

/-! ## A CPU that is not switching -/

include hsw in
/-- **A CPU that is not switching moves on.** -/
theorem Consistent.setCpu
    (hrun : cpu.running = (s.cpus c).running) (hstack : cpu.stack = (s.cpus c).stack)
    (hcur : cpu.current = (s.cpus c).current ∨
      cpu.current = none ∧ ∀ id, (s.cpus c).running = some id → Dead s.queue id)
    (hfrom : ∀ id, cpu.switchingFrom = some id → (s.cpus c).switchingFrom = some id)
    (hmode : ModeInv s.queue s.nextThreadId c cpu cpu.mode)
    (hframes : ∀ f ∈ cpu.code, f ∈ (s.cpus c).code ∨ s.Plans c f) : (s.setCpu c cpu).Consistent := by
  refine Inv.update h ((h.cpu c).goto hsw hrun hstack hcur hmode ?_) hrun ?_ ?_
  · intro f hf
    rcases hframes f hf with hold | hnew
    · exact (h.cpu c).frames f hold
    · exact hnew.frame
  · intro id hid
    left
    rcases hid with hid | hid
    · rcases hcur with hcur | ⟨hnone, -⟩
      · exact .inl (hcur ▸ hid)
      · rw [hnone] at hid
        cases hid
    · exact .inr (hfrom id hid)
  · intro id hid
    rcases hframes _ hid with hold | hnew
    · exact h.gone id (.inl ⟨c, hold⟩)
    · exact ⟨hnew.frame, hnew.retired id rfl⟩

/-! ## Frames -/

theorem Consistent.stackStep (ok : Bool) (op : StackOp) : (s.stackStep c ok op).1.Consistent := by
  obtain ⟨hq, hc, hn⟩ := stackStep_fixes s c ok op
  show Inv _ _ _
  rw [hq, hc, hn]
  exact h

/-- Setting a thread to terminated. -/
theorem Consistent.setTerminated (id : ThreadId) :
    (s.setQueue (s.queue.setState id .terminated).1).Consistent ∧
    Dead (s.queue.setState id .terminated).1 id :=
  ⟨Inv.safe h (kept_setState s.queue id .terminated).safe, fun _ _ ht heq => setState_terminated h.wf ht heq⟩

/-- What `terminate_thread` and `retire_process_threads` know after their first critical section: the
    thread is dead, and if it need not be retained nobody announces it. -/
theorem markThreadTerminated_spec (id : ThreadId) :
    (∃ q, s.queue.Safe q ∧ (s.markThreadTerminated id).1 = s.setQueue q) ∧
      Dead (s.markThreadTerminated id).1.queue id ∧ ((s.markThreadTerminated id).2 ≠ some true →
        Retired (s.markThreadTerminated id).1.queue s.cpus id) := by
  unfold markThreadTerminated
  cases hget : s.queue.get id with
  | none =>
    have hno := get_eq_none.mp hget
    exact ⟨⟨s.queue, .refl, rfl⟩, fun slot t ht heq => absurd heq (hno slot t ht),
      fun _ slot t ht heq => absurd heq (hno slot t ht)⟩
  | some t =>
    obtain ⟨-, hdead⟩ := h.setTerminated id
    refine ⟨⟨_, (kept_setState s.queue id .terminated).safe, rfl⟩, hdead, fun hret slot u hu heq => ?_⟩
    have hunref : s.cpuReferenced id = false := by
      cases href : s.cpuReferenced id with
      | false => rfl
      | true =>
        simp only [href, Bool.or_true, ne_eq, not_true_eq_false] at hret
    exact ⟨hdead slot u hu heq, cpuReferenced_eq_false.mp hunref⟩

/-- `remove_quiescent_terminated_thread` removes only threads that no CPU announces. -/
theorem removeQuiescent_spec (id : ThreadId) :
    ∃ q, (s.removeQuiescent id).1 = s.setQueue q ∧ (s.setQueue q).Consistent := by
  unfold removeQuiescent
  split
  · rename_i hcond
    obtain ⟨t, ht, hquiet⟩ := (Option.any_eq_true _ _).mp hcond
    simp only [Bool.and_eq_true, decide_eq_true_eq, Bool.not_eq_true'] at hquiet
    refine ⟨_, rfl, Inv.remove h (h.free_of_retired ?_)⟩
    intro slot u hu heq
    obtain ⟨i, -, hi, hid⟩ := get_eq_some ht
    cases h.wf.ids slot i u t hu hi (heq.trans hid.symm)
    rw [hi] at hu
    cases hu
    exact ⟨hquiet.1, cpuReferenced_eq_false.mp hquiet.2⟩
  · exact ⟨s.queue, rfl, h⟩

theorem siblings_lt {id pid : Nat} {owner : Option ThreadId}
    (hid : id ∈ s.siblings pid owner) : id < s.nextThreadId := by
  obtain ⟨slot, -, hslot⟩ := List.mem_filterMap.mp hid
  obtain ⟨t, ht, hcond⟩ := Option.bind_eq_some_iff.mp hslot
  split at hcond
  · cases hcond
    exact h.fresh slot t ht
  · cases hcond

section Frames

variable (hmode : (s.cpus c).mode = .run)
include hmode

/-- The frames of a call are planned: those of an exit name the thread that runs. -/
theorem callFrames_plans {call : Call}
    (hen : s.callEnabled call = true) (hframes : s.callFrames (s.cpus c).current call = some frames) :
    frames.Forall (s.Plans c) := by
  have hrun : ∀ id, (s.cpus c).current = some id → (s.cpus c).running = some id :=
    fun id hid => (h.cpu c).current id hid (by rw [hmode]; rfl)
  have hget : ∀ t, (s.cpus c).current.bind s.queue.get = some t → (s.cpus c).running = some t.id := by
    intro t ht
    obtain ⟨id, hcur, hid⟩ := Option.bind_eq_some_iff.mp ht
    obtain ⟨-, -, -, heq⟩ := get_eq_some hid
    rw [heq]
    exact hrun id hcur
  cases call with
  | yieldNow =>
    cases hframes
    exact .of_plain rfl
  | exitTask | exitProcess =>
    obtain ⟨id, hcur, rfl⟩ := Option.map_eq_some_iff.mp hframes
    exact .of_frame (hrun id hcur) fun _ => nofun
  | terminate id =>
    cases hframes
    have hlt : id < s.nextThreadId := of_decide_eq_true hen
    exact Plans.of_frame hlt fun _ => nofun
  | processTerminate pid =>
    simp only [callFrames] at hframes
    split at hframes
    · rename_i t ht
      split at hframes
      · cases hframes
        exact .of_frame (hget t ht) fun _ => nofun
      · cases hframes
        exact .of_plain rfl
    · cases hframes
      exact .of_plain rfl
  | retireImageSiblings =>
    cases hframes
    refine Plans.all_plain ?_
    cases (s.cpus c).current.bind s.queue.get <;> rfl
  | spawn processId user suspended =>
    cases hframes
    refine ⟨.of_plain rfl, .of_frame ?_ fun _ => nofun⟩
    intro hkind
    cases user <;> cases hkind
  | releaseAps =>
    cases hframes
    trivial

/-- Removing the thread that CPU `c` itself runs. -/
theorem Consistent.removeOwn (hrun : (s.cpus c).running = some id) :
    (s.setQueue (s.queue.remove id).1).Consistent ∧ Dead (s.queue.remove id).1 id :=
  ⟨Inv.remove h (h.free_of_running hrun (by rw [hmode]; rfl)),
    fun _ _ ht heq => absurd heq ((remove_threads h.wf id).mp ht).2⟩

section Rest

variable (hrest : ∀ f ∈ rest, f ∈ (s.cpus c).code) {g : Frame}
include hrest

/-- A CPU in its code goes on with new frames before the rest. -/
theorem Consistent.goOn (frames : List Frame) (hcode : cpu.code = frames ++ rest)
    (hframes : frames.Forall (s.Plans c)) (hnew : ModeInv s.queue s.nextThreadId c cpu cpu.mode)
    (hcur : cpu.current = (s.cpus c).current ∨
      cpu.current = none ∧ ∀ id, (s.cpus c).running = some id → Dead s.queue id)
    (hfrom : cpu.switchingFrom = (s.cpus c).switchingFrom) (hrun : cpu.running = (s.cpus c).running)
    (hstack : cpu.stack = (s.cpus c).stack) : (s.setCpu c cpu).Consistent := by
  refine Consistent.setCpu h (by rw [hmode]; rfl) hrun hstack hcur (fun _ hid => hfrom ▸ hid) hnew fun f hf =>
    ?_
  rw [hcode] at hf
  rcases List.mem_append.mp hf with hadd | hold
  · exact .inr (List.forall_iff_forall_mem.mp hframes f hadd)
  · exact .inl (hrest f hold)

theorem Consistent.continueWith (hframes : frames.Forall (s.Plans c)) :
    (s.continueWith c frames rest).Consistent :=
  Consistent.goOn h hmode hrest frames rfl hframes (modeInv_run hmode) (.inl rfl) rfl rfl rfl

theorem Consistent.continuePlain (hframes : frames.all plain = true) :
    (s.continueWith c frames rest).Consistent :=
  h.continueWith hmode hrest (Plans.all_plain hframes)

/-- The same with interrupts off and a new mode. -/
theorem Consistent.enterWith {mode : Mode} (frames : List Frame) (hframes : frames.Forall (s.Plans c))
    (hnew : ModeInv s.queue s.nextThreadId c
      { s.cpus c with interrupts := false, mode := mode, code := frames ++ rest } mode) :
    ((s.continueWith c frames rest).enter c mode).Consistent := by
  have heq : (s.continueWith c frames rest).enter c mode =
      s.setCpu c { s.cpus c with interrupts := false, mode := mode, code := frames ++ rest } := by
    simp only [State.continueWith, enter, setCode, State.setCpu, update_idem, update_self]
  rw [heq]
  exact Consistent.goOn h hmode hrest frames rfl hframes hnew (.inl rfl) rfl rfl rfl

theorem Consistent.terminateThread (hid : id < s.nextThreadId) :
    (s.terminateThread c id rest).Consistent := by
  obtain ⟨⟨q, hsafe, heq⟩, hdead, hret⟩ := markThreadTerminated_spec h id
  unfold State.terminateThread
  generalize s.markThreadTerminated id = marked at heq hdead hret ⊢
  obtain ⟨s', retained⟩ := marked
  dsimp only at heq hdead hret ⊢
  subst heq
  have hq : (s.setQueue q).Consistent := Inv.safe h hsafe
  split
  · refine hq.continueWith hmode hrest (Plans.of_frame ⟨?_, hdead⟩ fun _ => nofun)
    exact (h.cpu c).current id ‹_› (by rw [hmode]; rfl)
  · split
    · exact hq.continuePlain hmode hrest rfl
    · refine hq.continueWith hmode hrest (Plans.mk hid ?_)
      rintro _ ⟨rfl⟩
      exact hret ‹_›

/-- `add_thread`: refused, or in the queue with a fresh id; an idle thread belongs to its creator. -/
theorem Consistent.spawnThread {base : StackBase} {spec : ThreadSpec}
    (hidle : spec.kind = .idle → (s.cpus c).running = none) :
    (s.spawnThread c base spec a rest).Consistent := by
  unfold State.spawnThread
  dsimp only
  split
  · rename_i hrefused
    have hskip : ({ s with nextThreadId := s.nextThreadId + 1 } : State n).Consistent := Inv.skip_id h
    exact hskip.continuePlain hmode hrest (plain_onFailure spec)
  · rename_i q hpush
    have hq : ({ s with nextThreadId := s.nextThreadId + 1, queue := q } : State n).Consistent :=
      Inv.push h hpush rfl ⟨rfl, rfl, rfl⟩
    split
    · rename_i slot hkind hslot
      refine Consistent.continueWith hq hmode hrest
        (Plans.of_frame ⟨hidle hkind, Nat.lt_succ_self _, ?_⟩ fun _ => nofun)
      intro i t ht heq
      obtain ⟨free, -, hthreads, -⟩ := push_eq_some hpush
      change q.threads i = some t at ht
      rw [hthreads] at ht
      rcases of_update_eq ht with ⟨rfl, ⟨⟩⟩ | ⟨-, ht⟩
      · show (if spec.kind = .idle then some c else none) = some c
        rw [if_pos hkind]
      · have hlt := h.fresh i t ht
        rw [heq] at hlt
        exact absurd hlt (Nat.lt_irrefl _)
    · exact Consistent.continuePlain hq hmode hrest rfl

/-- Continue with one frame. -/
theorem Consistent.continueOne
    (hg : FrameInv s.queue s.nextThreadId c (s.cpus c).running g) (hne : ∀ id, g ≠ .terminateRemove id) :
    (s.continueWith c [g] rest).Consistent :=
  h.continueWith hmode hrest (Plans.of_frame hg hne)

/-- `exit_current_task` and `terminate_thread` of the current thread after its removal. -/
theorem Consistent.removeOwnAndContinue
    (hrun : (s.cpus c).running = some id) (hg : ∀ (q : Queue n), Dead q id →
      FrameInv q s.nextThreadId c (some id) g) (hne : ∀ id, g ≠ .terminateRemove id) :
    ((s.setQueue (s.queue.remove id).1).continueWith c
      ((s.queue.remove id).2.toList.map (fun t => .stack (.retire t.kernelStack)) ++ [g])
      rest).Consistent := by
  obtain ⟨hrem, hdead⟩ := h.removeOwn hmode hrun
  have hlast : Plans (s.setQueue (s.queue.remove id).1) c g := by
    refine Plans.of_frame ?_ hne
    show FrameInv (s.queue.remove id).1 s.nextThreadId c (s.cpus c).running g
    rw [hrun]
    exact hg _ hdead
  refine hrem.continueWith hmode hrest ?_
  cases (s.queue.remove id).2 with
  | none => exact hlast
  | some t => exact ⟨.of_plain rfl, hlast⟩

end Rest

/-- **Running a frame keeps the invariant.** -/
theorem Consistent.runFrame
    (hcode : (s.cpus c).code = f :: rest) (a : Answer) : (s.runFrame c f rest a).Consistent := by
  have hrest : ∀ g ∈ rest, g ∈ (s.cpus c).code := fun g hg => hcode ▸ List.mem_cons_of_mem f hg
  have hf : FrameInv s.queue s.nextThreadId c (s.cpus c).running f :=
    (h.cpu c).frames f (hcode ▸ List.mem_cons_self)
  have hsw : (s.cpus c).mode.switching = false := by rw [hmode]; rfl
  cases f with simp only [State.runFrame]
  | restoreInterrupts enabled =>
    exact Consistent.goOn h hmode hrest [] rfl trivial (modeInv_run hmode) (.inl rfl) rfl rfl rfl
  | yieldNow =>
    exact h.enterWith hmode hrest [_] (.of_plain rfl) trivial
  | reclaim =>
    have hret : (s.setRetired c none).Consistent := h
    refine hret.continuePlain hmode hrest ?_
    split <;> rfl
  | stack op =>
    have hstep := h.stackStep (c := c) a.ok op
    obtain ⟨-, hcpus, -⟩ := stackStep_fixes s c a.ok op
    refine hstep.continuePlain (by rw [hcpus]; exact hmode) (by rw [hcpus]; exact hrest) ?_
    cases (s.stackStep c a.ok op).2 <;> rfl
  | allocate spec =>
    split
    · exact h.continuePlain hmode hrest (plain_onFailure spec)
    · exact Consistent.continueOne (s := s.setStack _ _) h hmode hrest hf fun _ => nofun
  | mapStack i spec =>
    split
    · exact Consistent.continueOne (s := s.setStack _ _) h hmode hrest hf fun _ => nofun
    · exact Consistent.continuePlain (s := s.setStack _ _) h hmode hrest (plain_onFailure spec)
  | spawn base spec => exact h.spawnThread hmode hrest hf
  | apStart id slot pc =>
    cases pc with
    | setRunning =>
      have hsafe := (kept_setState s.queue id .running).safe
      have hq : (s.setQueue (s.queue.setState id .running).1).Consistent := Inv.safe h hsafe
      refine hq.continueOne hmode hrest ⟨hf.1, hf.2.1, ?_⟩ fun _ => nofun
      intro i t' ht' heq
      obtain ⟨t, ht, hsame⟩ := hsafe.tame.backward ht'
      rw [hsame.cpuAffinity]
      exact hf.2.2 i t ht (hsame.id.symm.trans heq)
    | enableInterrupts =>
      exact Consistent.goOn h hmode hrest [_] rfl (Plans.of_frame hf fun _ => nofun) (modeInv_run hmode)
        (.inl rfl) rfl rfl rfl
    | switch =>
      refine h.enterWith hmode hrest [] trivial ⟨?_, hf.2.1, hf.2.2, ?_⟩
      · intro x hx
        rw [show (s.cpus c).running = some x from hx] at hf
        cases hf.1
      · show (s.cpus c).running ≠ some id
        rw [hf.1]
        nofun
  | apFail =>
    exact Consistent.setCpu h hsw rfl rfl (.inl rfl) (fun _ hid => hid) trivial fun g hg => .inl hg
  | exitProcess id =>
    split
    · split
      · exact h.continueOne hmode hrest hf fun _ => nofun
      · exact Consistent.continueWith (s := { s with stopping := _ }) h hmode hrest
          ⟨.of_plain rfl, .of_frame hf fun _ => nofun⟩
    · exact h.continueOne hmode hrest hf fun _ => nofun
  | processTerminate pid =>
    split
    · exact h.continuePlain hmode hrest rfl
    · exact Consistent.continuePlain (s := { s with stopping := _ }) h hmode hrest rfl
  | retireThreads pid owner =>
    refine h.continueWith hmode hrest ((List.forall_append ..).mpr ⟨?_, .of_plain rfl⟩)
    refine List.forall_iff_forall_mem.mpr (List.forall_mem_map.mpr fun id hid => ?_)
    exact .of_frame (siblings_lt h hid) fun _ => nofun
  | retirePass todo kept =>
    cases todo with
    | nil =>
      cases kept with
      | nil => exact h.continuePlain hmode hrest rfl
      | cons id kept => exact h.continuePlain hmode hrest rfl
    | cons id todo =>
      obtain ⟨q, hq, hcons⟩ := removeQuiescent_spec h id
      dsimp only
      split
      · rename_i s' t hres
        rw [hres] at hq
        cases hq
        exact hcons.continuePlain hmode hrest rfl
      · rename_i s' hres
        rw [hres] at hq
        cases hq
        exact hcons.continuePlain hmode hrest rfl
  | retireCheck id todo kept =>
    split
    · exact h.continuePlain hmode hrest rfl
    · exact h.continuePlain hmode hrest rfl
  | terminate id => exact h.terminateThread hmode hrest hf
  | terminateRemove id =>
    obtain ⟨-, hret⟩ := h.gone id (.inl ⟨c, hcode ▸ List.mem_cons_self⟩)
    have hq : (s.setQueue (s.queue.remove id).1).Consistent := Inv.remove h (h.free_of_retired hret)
    refine hq.continuePlain hmode hrest ?_
    cases (s.queue.remove id).2 <;> rfl
  | terminateSelf id pc =>
    cases pc with
    | remove =>
      exact h.removeOwnAndContinue hmode hrest hf.1 (fun q hd => ⟨rfl, hd⟩) fun _ => nofun
    | clear =>
      refine Consistent.goOn h hmode hrest [_, _] rfl
        ⟨.of_plain rfl, .of_frame hf fun _ => nofun⟩ (modeInv_run hmode)
        (.inr ⟨rfl, fun x hx => ?_⟩) rfl rfl rfl
      rw [hf.1] at hx
      cases hx
      exact hf.2
    | halt =>
      exact Consistent.setCpu h hsw rfl rfl (.inl rfl) (fun _ hid => hid) trivial fun g hg => .inl hg
  | exit id pc =>
    cases pc with
    | begin =>
      obtain ⟨q, stopping, hbegin, hsafe⟩ := beginThreadExit_spec s id
      have hq : (({ s with stopping := stopping } : State n).setQueue q).Consistent := Inv.safe h hsafe
      dsimp only
      split
      · rename_i s' pid hres
        rw [hres] at hbegin
        cases hbegin
        exact hq.continueWith hmode hrest ⟨.of_plain rfl, .of_frame hf fun _ => nofun⟩
      · rename_i s' hres
        rw [hres] at hbegin
        cases hbegin
        exact hq.continueOne hmode hrest hf fun _ => nofun
    | setTerminated =>
      obtain ⟨hq, hdead⟩ := h.setTerminated id
      exact hq.continueOne hmode hrest ⟨hf, hdead⟩ fun _ => nofun
    | clear =>
      refine Consistent.goOn h hmode hrest [_] rfl (Plans.of_frame hf fun _ => nofun) (modeInv_run hmode)
        (.inr ⟨rfl, fun x hx => ?_⟩) rfl rfl rfl
      rw [hf.1] at hx
      cases hx
      exact hf.2
    | select =>
      refine h.enterWith hmode hrest [.exit id .remove] (.of_frame hf fun _ => nofun) ⟨hf.1, ?_⟩
      intro x hx
      rw [show (s.cpus c).running = some x from hx] at hf
      cases hf.1
      exact hf.2
    | remove =>
      exact h.removeOwnAndContinue hmode hrest hf.1 (fun q hd => ⟨rfl, hd⟩) fun _ => nofun
    | halt =>
      exact Consistent.setCpu h hsw rfl rfl (.inl rfl) (fun _ hid => hid) trivial fun g hg => .inl hg

end Frames

/-! ## Selecting and switching -/

include hsw in
/-- Only the mode changes. -/
theorem Consistent.setMode
    (hmode : ModeInv s.queue s.nextThreadId c { s.cpus c with mode := mode } mode) :
    (s.setMode c mode).Consistent :=
  Consistent.setCpu h hsw rfl rfl (.inl rfl) (fun _ hid => hid) hmode fun _ hg => .inl hg

/-- A selected thread is pending: it belongs to the CPU now, and it is not the thread that runs, which is
    dead or still announced. -/
theorem Consistent.pending {q' : Queue n} {t' : Thread (Fin n) Context}
     (hw : q'.Wf) (hsel : Selected s.queue q' c id slot t t')
    (hother : ∀ x, (s.cpus c).running = some x → Dead s.queue x ∨ x ≠ id) :
    Pending q' s.nextThreadId c (s.cpus c).running id where
  fresh := by
    rw [← hsel.id]
    exact h.fresh slot t hsel.before
  owner := by
    intro i u hu heq
    have hid : t'.id = id := hsel.same.1.trans hsel.id
    cases hw.ids i slot u t' hu hsel.after (heq.trans hid.symm)
    rw [hsel.after] at hu
    cases hu
    exact hsel.claimed
  idle := by
    intro hrun
    rcases hother id hrun with hdead | hne
    · exact hsel.alive (hdead slot t hsel.before hsel.id)
    · exact hne rfl

theorem Consistent.selectStep {purpose : SelectFor}
    (hmode : (s.cpus c).mode = .select purpose) : (s.selectStep c purpose).Consistent := by
  have hsw : (s.cpus c).mode.switching = false := by rw [hmode]; rfl
  have hm := h.modeInv hmode
  cases hsel : (s.queue.selectNextThread c (s.cpus c).current).2 with
  | none =>
    have hq : (s.setQueue (s.queue.selectNextThread c (s.cpus c).current).1).Consistent :=
      Inv.safe h (selectNextThread_none hsel)
    unfold State.selectStep
    simp only [hsel]
    cases purpose with
    | yield => exact hq.setMode hsw trivial
    | exit id b =>
      exact Consistent.setCpu hq hsw rfl rfl (.inl rfl) (fun _ hid => hid) trivial fun _ hg => .inl hg
  | some found =>
    obtain ⟨next, slot⟩ := found
    obtain ⟨⟨t, t', hselected⟩, hw⟩ := selectNextThread_some h.wf hsel
    have hq : (s.setQueue (s.queue.selectNextThread c (s.cpus c).current).1).Consistent :=
      Inv.select h hw hselected
    unfold State.selectStep
    simp only [hsel]
    cases purpose with
    | yield =>
      dsimp only
      split
      · exact hq.setMode hsw trivial
      · rename_i hne
        have hpend := h.pending hw hselected fun x hx => ((h.cpu c).marked x hx hsw).imp_right
          fun hcur heq => hne (by rw [hcur, heq])
        have hmarked := (hq.cpu c).marked
        generalize (s.queue.selectNextThread c (s.cpus c).current).1 = q' at hpend hmarked hq ⊢
        refine hq.setMode hsw ?_
        cases hcur : (s.cpus c).current with
        | none =>
          refine ⟨?_, hpend⟩
          intro x hx
          rcases hmarked x hx hsw with hdead | hann
          · exact hdead
          · change (s.cpus c).current = some x at hann
            rw [hcur] at hann
            cases hann
        | some x => exact ⟨hcur, hpend⟩
    | exit id b =>
      have hpend := h.pending hw hselected fun x hx => .inl (hm.2 x hx)
      refine hq.setMode hsw ⟨hm.1, ?_, hpend⟩
      have hafter := (hq.cpu c).mode
      change ModeInv _ _ _ (s.cpus c) (s.cpus c).mode at hafter
      rw [hmode] at hafter
      exact hafter.2

include hsw in
theorem Consistent.switchReturns
    (after : AfterSwitch) : (s.switchReturns c after).Consistent := by
  cases after with
  | resume | halt reason => exact h.setMode hsw trivial

/-- A live pending thread can be resumed: no CPU runs it, so its context is saved. -/
theorem Consistent.pending_saved (hp : Pending s.queue s.nextThreadId c (s.cpus c).running id)
    (ht : s.queue.threads slot = some t) (hid : t.id = id) (halive : t.state ≠ .terminated) :
    t.context.saved = true ∧ t.context.stack = t.kernelStack := by
  have hsaved : t.context.saved = true := by
    cases hs : t.context.saved with
    | true => rfl
    | false =>
      obtain ⟨d, hd⟩ := h.saved slot t ht halive hs
      by_cases hdc : d = c
      · rw [hdc, hid] at hd
        exact absurd hd hp.idle
      · exact absurd hd (h.others_of_owner ht (hp.owner slot t ht hid) hdc).1
  exact ⟨hsaved, (h.ctx slot t ht hsaved).stack⟩

/-- **The publication of a switch**: from here on the CPU announces both threads. -/
theorem Consistent.switchPublish
    (hmode : (s.cpus c).mode = .switchTo current next slot after)
    (hold : ∀ id, current = some id → ∃ o, old = some o ∧ s.queue.slotIndex id = some o)
    (hnone : current = none → old = none) : (s.switchPublish c current old next slot after).Consistent := by
  have hsw : (s.cpus c).mode.switching = false := by rw [hmode]; rfl
  have hm := h.modeInv hmode
  have hp : Pending s.queue s.nextThreadId c (s.cpus c).running next := by
    cases current with
    | none | some id => exact hm.2
  unfold State.switchPublish
  dsimp only
  split
  · exact h.switchReturns hsw after
  · rename_i new hresolved
    split
    · exact h.switchReturns hsw after
    · rename_i t ht
      split
      · exact h.switchReturns hsw after
      · rename_i halive
        split
        · exact h.setMode hsw trivial
        · have hid : t.id = next := resolved_spec hresolved ht
          obtain ⟨hsaved, -⟩ := h.pending_saved hp ht hid halive
          have hin : ∃ t, Incoming s.queue c { s.cpus c with
                switchingFrom := current
                current := some next
                currentSlot := some new
                mode := .save old new } new t :=
            ⟨t, ht, by rw [hid], hp.owner new t ht hid, by rw [hid]; exact hp.idle, hsaved⟩
          refine Inv.update h ⟨(h.cpu c).fresh, (h.cpu c).owner, nofun,
            nofun, (h.cpu c).stack, ?_, (h.cpu c).frames⟩ rfl ?_ ?_
          · cases current with
            | none =>
              cases hnone rfl
              exact ⟨hin, hm.1⟩
            | some id =>
              obtain ⟨o, rfl, ho⟩ := hold id rfl
              obtain ⟨u, hu, huid⟩ := slotIndex_eq_some ho
              refine ⟨hin, u, hu, ?_, by rw [huid]⟩
              show (s.cpus c).running = some u.id
              rw [huid]
              exact (h.cpu c).current id hm.1 hsw
          · rintro id (hcur | hfrom)
            · cases hcur
              exact .inr fun hdead => halive (hdead new t ht hid)
            · left
              cases current with
              | none => cases hfrom
              | some x => exact .inl (hm.1.trans hfrom)
          · intro id hf
            exact h.gone id (.inl ⟨c, hf⟩)

include hsw in
/-- `terminate_thread` is called with the CPU in some other mode. -/
theorem Consistent.setModeCode
    (hmode : ∀ cpu, ModeInv s.queue s.nextThreadId c cpu mode) (hid : id < s.nextThreadId) :
    ((s.setMode c mode).setCode c (.terminate id :: (s.cpus c).code)).Consistent := by
  rw [setMode_setCode]
  refine Consistent.setCpu h hsw rfl rfl (.inl rfl) (fun _ hid => hid) (hmode _) ?_
  intro g hg
  rcases List.mem_cons.mp hg with rfl | hg
  · exact .inr (Plans.of_frame hid fun _ => nofun)
  · exact .inl hg

theorem Consistent.switchStep
    (hmode : (s.cpus c).mode = .switchTo current next slot after) (guardIntact : Bool) :
    (s.switchStep c current next slot after guardIntact).Consistent := by
  have hsw : (s.cpus c).mode.switching = false := by rw [hmode]; rfl
  unfold State.switchStep
  cases current with
  | none => exact h.switchPublish hmode nofun fun _ => rfl
  | some id =>
    dsimp only
    split
    · exact h.switchReturns hsw after
    · rename_i old hslot
      split
      · refine h.switchPublish hmode ?_ nofun
        rintro _ ⟨rfl⟩
        exact ⟨old, rfl, hslot⟩
      · have hm := h.modeInv hmode
        have hlt : id < s.nextThreadId := (h.cpu c).fresh id ((h.cpu c).current id hm.1 hsw)
        cases after with
        | resume | halt reason => exact h.setModeCode hsw (fun _ => trivial) hlt

/-! ## Whole steps -/

/-- The store of the outgoing context, and the new mode. -/
theorem Consistent.saveStep (hmode : (s.cpus c).mode = .save old new) :
    ((s.saveContext c old).setCpu c { s.cpus c with mode := .load new, code := [] }).Consistent := by
  have hm := h.modeInv hmode
  cases old with
  | none =>
    refine Inv.toLoad h hmode ?_
    intro slot t ht hrun halive
    exact absurd (hm.2 t.id hrun slot t ht rfl) halive
  | some old =>
    obtain ⟨t, ht⟩ := hm.2
    have hsaved : (s.setQueue (s.queue.put old
        { t with context := ⟨(s.cpus c).code, (s.cpus c).stack, false, true⟩ })).Consistent :=
      Inv.save h ht.here ht.running ⟨rfl, fun c hc => hc, rfl, fun hd => hd⟩ rfl rfl rfl rfl
    unfold saveContext
    simp only [ht.here]
    refine Inv.toLoad hsaved hmode ?_
    intro slot u hu hrun halive
    -- The only thread with this id is the one just saved.
    rcases put_cases hu with ⟨rfl, rfl⟩ | ⟨hne, hu⟩
    · rfl
    have hrun' : (s.cpus c).running = some u.id := hrun
    rw [ht.running] at hrun'
    exact absurd (h.wf.ids slot old u t hu ht.here (Option.some.inj hrun').symm) hne

theorem Consistent.loadStep (hmode : (s.cpus c).mode = .load new) : (s.loadContext c new).Consistent := by
  have hm := h.modeInv hmode
  obtain ⟨⟨t, ht⟩, -⟩ := hm
  unfold loadContext
  rw [ht.here]
  exact Inv.load h hmode ht.here ⟨rfl, fun c hc => hc, rfl, fun hd => hd⟩ rfl rfl rfl rfl rfl rfl rfl rfl

theorem Consistent.cpuStep (hstep : s.cpuStep c a = some s') : s'.Consistent := by
  have hm := (h.cpu c).mode
  cases cpuStep_moves hstep with rw [hmode] at hm
  | run hmode hcode => exact h.runFrame hmode hcode a
  | select hmode => exact h.selectStep hmode
  | exitRead hmode =>
    exact h.setMode (by rw [hmode]; rfl) hm
  | @exitRemove id base next slot hmode =>
    have hq : (s.setQueue (s.queue.remove id).1).Consistent :=
      Inv.remove h (h.free_of_running hm.1 (by rw [hmode]; rfl))
    have hafter := (hq.cpu c).mode
    change ModeInv _ _ _ (s.cpus c) (s.cpus c).mode at hafter
    rw [hmode] at hafter
    refine hq.setMode (by show (s.cpus c).mode.switching = false; rw [hmode]; rfl) ?_
    cases base with
    | none | some base => exact hafter.2
  | @exitStack op next slot hmode =>
    have hs := h.stackStep (c := c) a.ok op
    obtain ⟨-, hcpus, -⟩ := stackStep_fixes s c a.ok op
    have hafter := (hs.cpu c).mode
    rw [show ((s.stackStep c a.ok op).1.cpus c).mode = .exitStack op next slot by
      rw [hcpus, hmode]] at hafter
    refine hs.setMode (by rw [hcpus, hmode]; rfl) ?_
    split
    · exact hafter
    · exact hafter
  | switchTo hmode => exact h.switchStep hmode a.ok
  | save hmode => exact h.saveStep hmode
  | load hmode => exact h.loadStep hmode
  | ack hmode =>
    exact Consistent.setCpu h (by rw [hmode]; rfl) rfl rfl (.inl rfl) nofun trivial fun _ hg => .inl hg

/-- **Every step keeps the invariant.** -/
theorem Consistent.step {l : Label n} (hstep : s.step l = some s') : s'.Consistent := by
  cases step_moves hstep with
  | step hstep => exact h.cpuStep hstep
  | @call c call frames hmode _ hen hframes =>
    have hplans := callFrames_plans h hmode hen hframes
    refine Consistent.goOn (s := { s with apsReleased := _ }) h hmode (List.forall_mem_nil _) frames
      (List.append_nil _).symm ?_ (modeInv_run hmode) (.inl rfl) rfl rfl rfl
    exact hplans.imp fun f hf => ⟨hf.frame, hf.retired⟩
  | callNone hmode =>
    exact Consistent.setCpu h (by rw [hmode]; rfl) rfl rfl (.inl rfl) (fun _ hid => hid) trivial fun f hf =>
      .inl hf
  | @interrupt c reschedule hmode =>
    refine Consistent.goOn h hmode (fun _ hf => hf)
      (.reclaim :: (if reschedule then [.yieldNow] else []) ++ [.restoreInterrupts true]) (by simp)
        (Plans.all_plain ?_) (modeInv_run hmode) (.inl rfl) rfl rfl rfl
    cases reschedule <;> rfl
  | @setInterrupts c enabled hmode _ =>
    exact Consistent.goOn h hmode (fun _ hf => hf) [] rfl trivial (modeInv_run hmode) (.inl rfl) rfl rfl rfl
  | @async op => exact Inv.safe h (safe_asyncOp s.queue op)
  | @boot c pid hmode =>
    have hm := h.modeInv hmode
    refine Consistent.setCpu h (by rw [hmode]; rfl) rfl rfl (.inl rfl) (fun _ hid => hid) trivial ?_
    refine fun f hf => .inr (List.forall_iff_forall_mem.mp ?_ f hf)
    exact ⟨.of_plain rfl, .of_frame (fun _ => hm.1) fun _ => nofun⟩

end Steps

/-- At the start there is one thread, bound to the bootstrap processor. -/
theorem initial_threads {bsp : Fin n}
    (ht : (initial bsp).queue.threads slot = some t) : slot = 0 ∧ t = coreThread bsp := by
  simp only [initial, update_apply] at ht
  split at ht
  · cases ht
    exact ⟨‹_›, rfl⟩
  · cases ht

theorem consistent_initial (bsp : Fin n) : (initial bsp).Consistent where
  wf := by
    refine ⟨?_, ?_⟩
    · intro i j a b ha hb _
      rw [(initial_threads ha).1, (initial_threads hb).1]
    · intro i
      simp only [initial, update_apply]
      split <;> rfl
  fresh := by
    intro slot t ht
    rw [(initial_threads ht).2]
    exact Nat.lt_succ_self 1
  cpu := by
    intro c
    refine ⟨fun _ hid => (nomatch hid), fun _ hid => (nomatch hid), fun _ hid => (nomatch hid),
      fun _ hid => (nomatch hid), fun _ _ _ hid => (nomatch hid), ?_, fun _ hf => (nomatch hf)⟩
    show ModeInv _ _ _ _ (if c = bsp then _ else _)
    split
    · rename_i hc
      refine ⟨nofun, Nat.lt_succ_self 1, ?_, nofun⟩
      intro slot t ht _
      rw [(initial_threads ht).2, hc]
      rfl
    · exact ⟨rfl, rfl⟩
  ctx := by
    intro slot t ht _
    rw [(initial_threads ht).2]
    exact ⟨rfl, nofun⟩
  exclusive := nofun
  saved := by
    intro slot t ht _ hsaved
    rw [(initial_threads ht).2] at hsaved
    cases hsaved
  gone := by
    rintro id (⟨c, hf⟩ | ⟨slot, t, ht, -, hf⟩)
    · cases hf
    rw [(initial_threads ht).2] at hf
    cases hf

end State

/-- **The invariant holds in every reachable state.** -/
theorem consistent_of_reachable {s : State n} (h : (scheduler n).Reachable s) : s.Consistent := by
  refine System.Reach.invariant ?_ ?_ h
  · rintro _ ⟨bsp, rfl⟩
    exact State.consistent_initial bsp
  · intro s l s' hs _ hstep
    exact hs.step hstep

/-- **A thread runs on one CPU at a time, and is resumed only from a finished save.** In every reachable
    state, for any number of CPUs, no two CPUs execute the same thread; and a CPU that is about to load a
    context finds in the slot a thread whose context is its latest, stored by the CPU that ran it last,
    and that no CPU executes any more. -/
theorem thread_runs_on_one_cpu {s : State n} (h : (scheduler n).Reachable s) :
    (∀ c d id, (s.cpus c).running = some id → (s.cpus d).running = some id → c = d) ∧
      ∀ c new, (s.cpus c).mode = .load new → ∃ t, s.queue.threads new = some t ∧ t.context.saved = true ∧
          ∀ d, (s.cpus d).running ≠ some t.id := by
  have hs := consistent_of_reachable h
  refine ⟨hs.exclusive, ?_⟩
  intro c new hmode
  have hload := hs.modeInv hmode
  obtain ⟨⟨t, ht⟩, -⟩ := hload
  refine ⟨t, ht.here, ht.saved, ?_⟩
  intro d
  by_cases hd : d = c
  · rw [hd]
    exact ht.idle
  · exact (hs.others_of_owner ht.here ht.owner hd).1

/-- **No live thread is lost.** In every reachable state it is saved on its own kernel stack, or executed on
    that stack by the CPU it is bound to and by no other. Outside of a switch it is then the current thread of
    that CPU. -/
theorem live_thread_is_kept {s : State n} (h : (scheduler n).Reachable s) {slot t}
    (ht : s.queue.threads slot = some t) (hlive : t.state ≠ .terminated) :
    t.context.saved = true ∧ t.context.stack = t.kernelStack ∨ ∃ c, t.cpuAffinity = some c ∧
      (s.cpus c).stack = t.kernelStack ∧ (∀ d, (s.cpus d).running = some t.id ↔ d = c) ∧
      ((s.cpus c).mode.switching = false → (s.cpus c).current = some t.id) := by
  have hs := consistent_of_reachable h
  cases hsaved : t.context.saved with
  | true => exact .inl ⟨rfl, (hs.ctx slot t ht hsaved).stack⟩
  | false =>
    obtain ⟨c, hc⟩ := hs.saved slot t ht hlive hsaved
    refine .inr ⟨c, (hs.cpu c).owner _ hc slot t ht rfl, (hs.cpu c).stack slot t ht hc, fun d => ⟨?_, ?_⟩, ?_⟩
    · exact fun hd => hs.exclusive d c _ hd hc
    · exact fun hd => hd ▸ hc
    · intro hmode
      rcases (hs.cpu c).marked _ hc hmode with hdead | hcurrent
      · exact absurd (hdead slot t ht rfl) hlive
      · exact hcurrent

/-! ## Two CPUs -/

/-- CPU `c` goes on for `k` steps; every page-table operation succeeds, processes take eight threads. -/
def goOn (c : Fin 2) (k : Nat) : List (Label 2) := List.replicate k (.step c ⟨true, some 8⟩)

/-- Boot both CPUs and let the core thread make two threads of process 5. -/
def spawnTwo : List (Label 2) :=
  goOn 0 4 ++ [.call 0 .releaseAps, .boot 1 2] ++ goOn 1 11 ++
    [.call 0 (.spawn 5 true false)] ++ goOn 0 4 ++ [.call 0 (.spawn 5 true false)] ++ goOn 0 4

/-- Each CPU yields to one of them; CPU 1 stops right before it loads the context. -/
def yieldBoth : List (Label 2) :=
  spawnTwo ++ [.call 0 .yieldNow] ++ goOn 0 6 ++ [.call 1 .yieldNow] ++ goOn 1 4

/-- The run in which both CPUs switch to a thread of the same process. -/
theorem thread_runs_on_one_cpu_yieldBoth :
    ∃ s, (scheduler 2).Reachable s ∧ (s.cpus 0).running = some 3 ∧ (s.cpus 1).mode = .load 3 ∧
      (∀ c d id, (s.cpus c).running = some id → (s.cpus d).running = some id → c = d) ∧
      ∃ t, s.queue.threads 3 = some t ∧ t.context.saved = true ∧ ∀ d, (s.cpus d).running ≠ some t.id := by
  obtain ⟨s, hs, hp⟩ := System.reachable_of_exec (scheduler 2) (State.initial 0) yieldBoth
    (fun s => (s.cpus 0).running = some 3 ∧ (s.cpus 1).mode = .load 3) ⟨0, rfl⟩ (by decide +kernel)
  obtain ⟨hone, htwo⟩ := thread_runs_on_one_cpu hs
  exact ⟨s, hs, hp.1, hp.2, hone, htwo 1 3 hp.2⟩

theorem live_thread_is_kept_yieldBoth : ∃ s t, (scheduler 2).Reachable s ∧ s.queue.threads 2 = some t ∧
    ∃ c, t.cpuAffinity = some c ∧ (s.cpus c).stack = t.kernelStack := by
  obtain ⟨s, hs, t, ht, hlive, hrun⟩ := System.reachable_of_exec (scheduler 2) (State.initial 0) yieldBoth
    (fun s => ∃ t ∈ s.queue.threads 2, t.state ≠ .terminated ∧ ¬ t.context.saved) ⟨0, rfl⟩ (by decide +kernel)
  obtain ⟨c, hc, hstack, -⟩ := (live_thread_is_kept hs ht hlive).resolve_left (hrun ·.1)
  exact ⟨s, t, hs, ht, c, hc, hstack⟩

end Mnu.Task
