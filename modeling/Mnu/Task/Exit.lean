import Mnu.Task.Live

/-!
# `Mnu.Task.Exit` — what a CPU does after its thread has exited

An exiting thread selects its successor in one critical section and switches to it in another. If the
switch comes back the CPU has no thread left to run and halts for good, so everything depends on the
successor being still there. `sparing` is the condition: the selection finds a thread, and nobody terminates
the thread that such a CPU has selected before it has switched.

This module has the definitions, and the inversion lemma for frames (`runFrame_moves`): everything the later
proofs need to know about `runFrame` is in `FrameMoves`.
-/

namespace Mnu.Task

open Lib ThreadQueue Function

variable {n : Nat} {code frames rest : List Frame} {view : Option ProcessView}

/-! ## The condition -/

/-- Inside the `yield_now` of `terminate_thread`: the CPU halts if that yield returns. -/
def selfHalts : List Frame → Bool
  | .restoreInterrupts _ :: .terminateSelf _ .halt :: _ => true
  | _ => false

namespace Cpu

/-- The CPU is about to make the selection its exit depends on. -/
def lastSelect (cpu : Cpu) : Bool :=
  match cpu.mode with
  | .select (.exit _ _) => true
  | .select .yield => selfHalts cpu.code
  | _ => false

/-- The thread the CPU has selected and not yet switched to. -/
def successor (cpu : Cpu) : Option ThreadId :=
  match cpu.mode with
  | .exitRead _ next _ => some next
  | .exitRemove _ _ next _ => some next
  | .exitStack _ next _ => some next
  | .switchTo _ next _ _ => some next
  | .save _ _ => cpu.current
  | .load _ => cpu.current
  | _ => none

end Cpu

namespace State

/-- Some thread is ready and allowed to run on CPU `c`. -/
def runnableOn (s : State n) (c : Fin n) : Bool :=
  ThreadQueue.slots.any fun slot => (s.queue.threads slot).any fun t =>
    t.selectable && t.cpuAffinity.all fun owner => owner = c

/-- The thread whose code CPU `c` executes is terminated, or gone from the queue. -/
def executesDead (s : State n) (c : Fin n) : Bool :=
  (s.cpus c).running.all fun id => (s.queue.get id).all fun t => t.state = .terminated

/-- A step that makes the last selection of an exit only if it will find a thread, and that does not
    terminate the thread that a CPU has selected to leave a dead one for. -/
def sparing (s : State n) : Label n → Bool
  | .step c _ =>
    (!(s.cpus c).lastSelect || s.runnableOn c) &&
      match (s.cpus c).mode, (s.cpus c).code with
      | .run, .terminate id :: _ =>
        (List.finRange n).all fun d => !s.executesDead d || (s.cpus d).successor ≠ some id
      | _, _ => true
  | _ => true

end State

/-! ## Frames of an exit -/

namespace Frame

/-- The thread a frame is about to end. -/
def victim : Frame → Option ThreadId
  | .terminate id => some id
  | .exit id .begin => some id
  | .exit id .setTerminated => some id
  | _ => none

/-- Frames that lead to a halt. -/
def deadEnd : Frame → Bool
  | .exit _ .remove => true
  | .exit _ .halt => true
  | .terminateSelf _ .halt => true
  | _ => false

/-- Frames that a CPU has only after it took its announcement back. -/
def late : Frame → Bool
  | .exit _ .select => true
  | f => f.deadEnd

/-- Frames that never return to the code below them. -/
def final : Frame → Bool
  | .apStart _ _ _ => true
  | .apFail => true
  | .exit _ _ => true
  | .terminateSelf _ _ => true
  | .allocate spec => spec.kind = .idle
  | .mapStack _ spec => spec.kind = .idle
  | .spawn _ spec => spec.kind = .idle
  | _ => false

end Frame

/-- Every dead end is the halt of `terminate_thread`, right below the yield that should prevent it; `y` says
    whether the list itself is below a yield. -/
def Shielded : Bool → List Frame → Prop
  | _, [] => True
  | y, f :: rest =>
    (f.deadEnd = true → y = true ∧ ∃ id, f = .terminateSelf id .halt) ∧ Shielded (decide (f = .yieldNow)) rest

theorem Shielded.mono (h : Shielded false code) (y : Bool) : Shielded y code := by
  cases code with
  | nil => trivial
  | cons f rest => exact ⟨fun hd => (nomatch (h.1 hd).1), h.2⟩

theorem Shielded.append (hframes : ∀ g ∈ frames, g.deadEnd = false)
    (hrest : Shielded false rest) (y : Bool) : Shielded y (frames ++ rest) := by
  induction frames generalizing y with
  | nil => exact hrest.mono y
  | cons f frames ih =>
    refine ⟨fun hd => ?_, ih (fun g hg => hframes g (List.mem_cons_of_mem f hg)) _⟩
    rw [hframes f List.mem_cons_self] at hd
    cases hd

theorem Shielded.of_no_dead_ends (h : ∀ g ∈ code, g.deadEnd = false) (y : Bool) : Shielded y code := by
  have hnil : Shielded false [] := trivial
  have happ : Shielded y (code ++ []) := Shielded.append h hnil y
  rwa [List.append_nil] at happ

/-! ## How far an exit has come -/

/-- The number of steps a stack operation takes at most. -/
def StackOp.steps : StackOp → Nat
  | .retire _ => 4
  | .swap _ => 3
  | .free _ => 2
  | .release _ => 1

/-- A bound on the steps from code of a thread marked terminated to the end of its switch, `none` if the
    code does not lead there. On top of the exit there can be what a timer interrupt put there, or the
    call of `terminate_thread` for a broken stack guard. -/
def leaves (current : Option ThreadId) : List Frame → Option Nat
  | [] => none
  | .terminate id :: rest => if current = some id ∧ (leaves current rest).isSome then some 12 else none
  | .terminateSelf _ .remove :: _ => some 11
  | .terminateSelf _ .clear :: _ => some 6
  | .terminateSelf _ .halt :: _ => some 0
  | .exit _ .clear :: _ => some 11
  | .exit _ .select :: _ => some 10
  | .restoreInterrupts _ :: rest => (leaves current rest).map (· + 1)
  | .yieldNow :: rest => (leaves current rest).map (· + if current = none then 5 else 16)
  | .reclaim :: rest => (leaves current rest).map (· + 3)
  | .stack op :: rest => (leaves current rest).map (· + op.steps)
  | _ => none

/-- The same for a CPU: it is leaving a thread that was marked terminated, and has not published the switch
    yet. -/
def Cpu.leaving (cpu : Cpu) : Option Nat :=
  match cpu.mode with
  | .run => leaves cpu.current cpu.code
  | .select .yield => (leaves cpu.current cpu.code).map (· + if cpu.current = none then 3 else 14)
  | .switchTo none _ _ .resume => (leaves cpu.current cpu.code).map (· + 2)
  | .switchTo (some _) _ _ .resume => (leaves cpu.current cpu.code).map (· + 13)
  | .select (.exit _ _) => some 9
  | .exitRead _ _ _ => some 8
  | .exitRemove _ _ _ _ => some 7
  | .exitStack op _ _ => some (op.steps + 2)
  | .switchTo none _ _ (.halt .exitSwitchReturned) => some 2
  | _ => none

/-! ## Running a frame -/

/-- `frames` are a continuation of the frame `f` above `rest`: they add no late frame, they return only if `f`
    does, and they are closer to the end of an exit. -/
structure GoesTo (current : Option ThreadId) (rest : List Frame) (f : Frame)
    (frames : List Frame) : Prop where
  late : ∀ g ∈ frames, g.late = false
  final : f.final = true → frames.any Frame.final = true
  rank : ∀ k, leaves current (f :: rest) = some k → ∃ j, leaves current (frames ++ rest) = some j ∧ j < k

/-- Frames an exit never has above it. -/
theorem Frame.not_late (h : frames.any Frame.late = false) : ∀ g ∈ frames, g.late = false := by
  intro g hg
  simpa using List.any_eq_false.mp h g hg

theorem GoesTo.of_leaves_none {current : Option ThreadId} {f : Frame}
    (hlate : frames.any Frame.late = false) (hfinal : f.final = true → frames.any Frame.final = true)
    (hnone : leaves current (f :: rest) = none) : GoesTo current rest f frames where
  late := Frame.not_late hlate
  final := hfinal
  rank := by
    intro k hk
    rw [hnone] at hk
    cases hk

/-- What running the frame `f` above `rest` makes of a CPU. -/
inductive FrameMoves (cpu : Cpu) (rest : List Frame) : Frame → Cpu → Prop where
  | go {f frames interrupts} : f ≠ .yieldNow → GoesTo cpu.current rest f frames →
      FrameMoves cpu rest f { cpu with interrupts := interrupts, code := frames ++ rest }
  | yield : FrameMoves cpu rest .yieldNow { cpu with
        interrupts := false
        mode := .select .yield
        code := .restoreInterrupts cpu.interrupts :: rest }
  | start {id slot} : FrameMoves cpu rest (.apStart id slot .switch)
      { cpu with interrupts := false, mode := .switchTo none id slot (.halt .apReturned), code := rest }
  | fail : FrameMoves cpu rest .apFail { cpu with interrupts := false, mode := .halt .apSpawnFailed }
  | clearSelf {id} : FrameMoves cpu rest (.terminateSelf id .clear) { cpu with
        current := none
        currentSlot := none
        code := .yieldNow :: .terminateSelf id .halt :: rest }
  | clearExit {id} : FrameMoves cpu rest (.exit id .clear)
      { cpu with current := none, currentSlot := none, code := .exit id .select :: rest }
  | select {id} : FrameMoves cpu rest (.exit id .select) { cpu with
        interrupts := false
        mode := .select (.exit id cpu.interrupts)
        code := .exit id .remove :: rest }
  | halts {f cpu'} : f.deadEnd = true → FrameMoves cpu rest f cpu'

/-! ## What a step does to the queue -/

/-- Threads older than `next` stay where they are, and dead if they were. -/
def Buries (next : ThreadId) (q q' : Queue n) : Prop :=
  ∀ slot t', q'.threads slot = some t' → t'.id < next →
    ∃ t, q.threads slot = some t ∧ t'.id = t.id ∧ (t.state = .terminated → t'.state = .terminated)

/-- Only the victim may die, no thread comes back, and every saved context was there before or is that of a
    new thread. -/
structure Treats (next : ThreadId) (victim : Option ThreadId) (q q' : Queue n) : Prop where
  spares : Spares victim q q'
  buries : Buries next q q'
  contexts : ∀ slot t', q'.threads slot = some t' → t'.context.saved = true →
    t'.context.code = [] ∨ ∃ t, q.threads slot = some t ∧ t.context = t'.context

section Treats

variable {q q' : Queue n} {next : ThreadId} {victim : Option ThreadId} {id : ThreadId}

/-- The dead stay dead. -/
theorem Buries.dead (h : Buries next q q') (hdead : Dead q id) (hid : id < next) : Dead q' id := by
  intro slot t' ht' heq
  obtain ⟨t, ht, hsame, hstate⟩ := h slot t' ht' (heq ▸ hid)
  exact hstate (hdead slot t ht (hsame.symm.trans heq))

theorem buries_put {slot : Slot} {t t' : Thread (Fin n) Context} (ht : q.threads slot = some t)
    (hid : t'.id = t.id) (hstate : t'.state = t.state) : Buries next q (q.put slot t') := by
  intro i u hu _
  rcases put_cases hu with ⟨rfl, rfl⟩ | ⟨-, hu⟩
  · exact ⟨t, ht, hid, fun hd => hstate.trans hd⟩
  · exact ⟨u, hu, rfl, fun hd => hd⟩

theorem Treats.of_safe (hspares : Spares victim q q') (hsafe : q.Safe q') : Treats next victim q q' where
  spares := hspares
  buries := by
    intro slot t' ht' _
    obtain ⟨t, ht, hsame⟩ := hsafe.tame.backward ht'
    exact ⟨t, ht, hsame.id, hsame.dead⟩
  contexts := by
    intro slot t' ht' _
    obtain ⟨t, ht, hsame⟩ := hsafe.tame.backward ht'
    exact .inr ⟨t, ht, hsame.context.symm⟩

theorem Treats.refl {next : ThreadId} {victim : Option ThreadId} {q : Queue n} : Treats next victim q q :=
  .of_safe .refl .refl

theorem treats_setState (hw : q.Wf) {state : ThreadState} (h : state ≠ .terminated ∨ victim = some id) :
    Treats next victim q (q.setState id state).1 :=
  .of_safe (spares_setState hw h) (kept_setState q id state).safe

theorem treats_asyncOp (hw : q.Wf) (op : AsyncOp) : Treats next none q (op.apply q) :=
  .of_safe (spares_asyncOp hw op) (State.safe_asyncOp q op)

theorem treats_remove (hw : q.Wf) (hdead : Dead q id) : Treats next victim q (q.remove id).1 where
  spares := spares_remove hw hdead
  buries := fun _ t ht _ => ⟨t, ((remove_threads hw id).mp ht).1, rfl, fun hd => hd⟩
  contexts := fun _ t ht _ => .inr ⟨t, ((remove_threads hw id).mp ht).1, rfl⟩

theorem treats_push {thread : Thread (Fin n) Context}
    (h : q.push view thread = some q') (hid : thread.id = next) (hcode : thread.context.code = []) :
    Treats next victim q q' := by
  obtain ⟨free, -, hthreads, -⟩ := push_eq_some h
  have hcases : ∀ slot t', q'.threads slot = some t' → q.threads slot = some t' ∨
      (t'.id = next ∧ t'.context.code = []) := by
    intro slot t' ht'
    rw [hthreads] at ht'
    rcases of_update_eq ht' with ⟨rfl, ⟨⟩⟩ | ⟨-, ht'⟩
    · exact .inr ⟨hid, hcode⟩
    · exact .inl ht'
  refine ⟨spares_push h, ?_, ?_⟩
  · intro slot t' ht' hlt
    rcases hcases slot t' ht' with hold | ⟨hnew, -⟩
    · exact ⟨t', hold, rfl, fun hd => hd⟩
    · rw [hnew] at hlt
      exact absurd hlt (Nat.lt_irrefl next)
  · intro slot t' ht' _
    rcases hcases slot t' ht' with hold | ⟨-, hnil⟩
    · exact .inr ⟨t', hold, rfl⟩
    · exact .inl hnil

/-- Selection terminates no thread. -/
theorem treats_selectNextThread {c : Fin n} (hw : q.Wf) (current : Option ThreadId) :
    Treats next none q (q.selectNextThread c current).1 := by
  cases hsel : (q.selectNextThread c current).2 with
  | none => exact .of_safe (spares_selectNextThread hw c current) (selectNextThread_none hsel)
  | some found =>
    obtain ⟨x, chosen⟩ := found
    obtain ⟨⟨t₀, t₁, hselected⟩, -⟩ := selectNextThread_some hw hsel
    have hcases : ∀ slot t', (q.selectNextThread c current).1.threads slot = some t' →
        ∃ t, q.threads slot = some t ∧ t'.id = t.id ∧ t.context = t'.context ∧
          (t.state = .terminated → t'.state = .terminated) := by
      intro slot t' ht'
      by_cases hs : slot = chosen
      · subst hs
        rw [hselected.after] at ht'
        cases ht'
        exact ⟨t₀, hselected.before, hselected.same.1, hselected.same.2.2.1.symm,
          fun hd => absurd hd hselected.alive⟩
      · have hother := hselected.others slot hs
        rw [ht'] at hother
        generalize q.threads slot = old at hother ⊢
        cases hother with
        | some hsame => exact ⟨_, rfl, hsame.id, hsame.context.symm, hsame.dead⟩
    refine ⟨spares_selectNextThread hw c current, ?_, ?_⟩
    · intro slot t' ht' _
      obtain ⟨t, ht, hid, -, hdead⟩ := hcases slot t' ht'
      exact ⟨t, ht, hid, hdead⟩
    · intro slot t' ht' _
      obtain ⟨t, ht, -, hctx, -⟩ := hcases slot t' ht'
      exact .inr ⟨t, ht, hctx⟩

end Treats

namespace State

variable {s m : State n} {c : Fin n} {f : Frame} {rest frames : List Frame} {a : Answer} {after : AfterSwitch}
  {next : ThreadId}
  (hcpus : m.cpus = s.cpus) (hqueue : Treats s.nextThreadId f.victim s.queue m.queue)
  (hf : (f == .yieldNow) = false)

@[simp]
theorem setCpu_self (s : State n) (c : Fin n) (cpu : Cpu) : (s.setCpu c cpu).cpus c = cpu := by
  show update s.cpus c cpu c = cpu
  rw [update_self]

/-- The state after a frame: what became of the CPU and of the queue. -/
structure Moves (s : State n) (c : Fin n) (f : Frame) (rest : List Frame) (s' : State n) : Prop where
  cpu : ∃ cpu, s'.cpus = update s.cpus c cpu ∧ FrameMoves (s.cpus c) rest f cpu
  queue : Treats s.nextThreadId f.victim s.queue s'.queue

include hcpus hqueue hf in
/-- A frame that only goes on with other frames. -/
theorem Moves.continueWith
        (hgo : GoesTo (s.cpus c).current rest f frames) :
        s.Moves c f rest (m.continueWith c frames rest) where
  cpu := by
    refine ⟨{ s.cpus c with code := frames ++ rest }, ?_, .go (ne_of_beq_false hf) hgo⟩
    rw [State.continueWith, setCode, setCpu, hcpus]
  queue := hqueue

theorem late_onFailure (spec : ThreadSpec) : spec.onFailure.any Frame.late = false := by
  unfold ThreadSpec.onFailure
  split <;> rfl

theorem final_onFailure (spec : ThreadSpec) :
    (decide (spec.kind = .idle) && !spec.onFailure.any Frame.final) = false := by
  unfold ThreadSpec.onFailure
  by_cases h : spec.kind = .idle <;> simp [h, Frame.final]

/-- The steps of a stack operation are counted down. -/
theorem stackStep_steps {ok : Bool} {op op' : StackOp} (h : (s.stackStep c ok op).2 = some op') :
    op'.steps < op.steps := by
  cases op with
  | retire base =>
    cases base with
    | outside =>
      cases h
      decide
    | slot i =>
      simp only [stackStep] at h
      split at h
      · cases h
        exact Nat.lt_succ_self 3
      · cases h
  | swap base =>
    obtain ⟨b, -, rfl⟩ := Option.map_eq_some_iff.mp h
    exact Nat.lt_succ_self 2
  | free base =>
    cases base with
    | outside => cases h
    | slot i =>
      simp only [stackStep] at h
      split at h
      · cases h
        exact Nat.lt_succ_self 1
      · cases h
  | release i => cases h

include hcpus hqueue hf in
/-- A frame that nothing below returns through, and that neither ends an exit nor delays one. -/
theorem Moves.plain
        (hlate : frames.any Frame.late = false) (hfinal : (f.final && !frames.any Frame.final) = false)
    (hnone : leaves (s.cpus c).current (f :: rest) = none) :
    s.Moves c f rest (m.continueWith c frames rest) :=
  .continueWith hcpus hqueue hf (.of_leaves_none hlate (fun h => by simpa [h] using hfinal) hnone)

/-- `add_thread` puts the thread where its id can be found. -/
theorem slotIndex_of_push {q q' : Queue n} {t : Thread (Fin n) Context}
    (h : q.push view t = some q') : q'.slotIndex t.id ≠ none := by
  obtain ⟨free, -, hthreads, -⟩ := push_eq_some h
  intro hnone
  refine slotIndex_eq_none.mp hnone free { t with processObject := t.processObject || view.isSome } ?_ rfl
  rw [hthreads, update_self]

/-- **`spawn`.** -/
theorem spawnThread_moves {base : StackBase} {spec : ThreadSpec} :
    s.Moves c (.spawn base spec) rest (s.spawnThread c base spec a rest) := by
  unfold spawnThread
  dsimp only
  split
  · exact Moves.plain rfl .refl rfl (late_onFailure spec) (final_onFailure spec) rfl
  · rename_i q hpush
    have hpushed : Treats s.nextThreadId none s.queue q := treats_push hpush rfl rfl
    split
    · exact Moves.plain rfl hpushed rfl rfl (Bool.and_false _) rfl
    · rename_i hnot
      obtain ⟨slot, hslot⟩ := Option.ne_none_iff_exists'.mp (slotIndex_of_push hpush)
      have hkind : spec.kind ≠ .idle := fun hidle => hnot slot hidle hslot
      exact Moves.plain rfl hpushed rfl rfl (by simp [Frame.final, hkind]) rfl

/-- **`terminate`.** -/
theorem terminateThread_moves {id : ThreadId} (h : s.Consistent) :
    s.Moves c (.terminate id) rest (s.terminateThread c id rest) := by
  have hmark : (s.markThreadTerminated id).1.cpus = s.cpus ∧
      Treats s.nextThreadId (some id) s.queue (s.markThreadTerminated id).1.queue := by
    unfold markThreadTerminated
    split
    · exact ⟨rfl, .refl⟩
    · exact ⟨rfl, treats_setState h.wf (.inr rfl)⟩
  unfold terminateThread
  generalize s.markThreadTerminated id = marked at hmark ⊢
  obtain ⟨s', retained⟩ := marked
  dsimp only at hmark ⊢
  split
  · refine .continueWith hmark.1 hmark.2 rfl ⟨Frame.not_late rfl, fun _ => rfl, ?_⟩
    intro k hk
    refine ⟨11, rfl, ?_⟩
    simp only [leaves] at hk
    split at hk
    · cases hk
      decide
    · cases hk
  · rename_i hother
    have hnone : leaves (s.cpus c).current (.terminate id :: rest) = none := if_neg fun hand => hother hand.1
    split
    · exact .plain hmark.1 hmark.2 rfl rfl rfl hnone
    · exact .plain hmark.1 hmark.2 rfl rfl rfl hnone

/-- The removal of the thread that runs the frame. -/
theorem removeOwn_moves {id : ThreadId} (h : s.Consistent) (hdead : Dead s.queue id) :
    s.Moves c (.terminateSelf id .remove) rest ((s.setQueue (s.queue.remove id).1).continueWith c
      ((s.queue.remove id).2.toList.map (fun t => .stack (.retire t.kernelStack)) ++
        [.terminateSelf id .clear]) rest) := by
  refine .continueWith rfl (treats_remove h.wf hdead) rfl ⟨Frame.not_late ?_, ?_, ?_⟩
  · cases (s.queue.remove id).2 <;> rfl
  · intro _
    rw [List.any_append]
    exact Bool.or_true _
  · intro k hk
    cases hk
    cases (s.queue.remove id).2 with
    | none => exact ⟨6, rfl, by decide⟩
    | some t => exact ⟨10, rfl, by decide⟩

/-- **What running a frame does**, as far as the later proofs look. -/
theorem runFrame_moves (h : s.Consistent) (hcode : (s.cpus c).code = f :: rest) (a : Answer) :
    s.Moves c f rest (s.runFrame c f rest a) := by
  have hf : FrameInv s.queue s.nextThreadId c (s.cpus c).running f :=
    (h.cpu c).frames f (hcode ▸ List.mem_cons_self)
  cases f with simp only [State.runFrame]
  | restoreInterrupts enabled =>
    have hgo : GoesTo (s.cpus c).current rest (.restoreInterrupts enabled) [] := by
      refine ⟨by simp, by simp [Frame.final], fun k hk => ?_⟩
      obtain ⟨j, hj, rfl⟩ := Option.map_eq_some_iff.mp hk
      exact ⟨j, hj, Nat.lt_succ_self j⟩
    have hmoves : FrameMoves (s.cpus c) rest (.restoreInterrupts enabled)
        { s.cpus c with interrupts := enabled, code := [] ++ rest } := .go (by simp) hgo
    exact ⟨⟨_, rfl, hmoves⟩, .refl⟩
  | yieldNow =>
    refine ⟨⟨_, ?_, .yield⟩, .refl⟩
    simp only [State.continueWith, enter, setCode, setCpu, update_idem, update_self, List.singleton_append]
  | reclaim =>
    refine Moves.continueWith (m := s.setRetired c none) rfl .refl rfl
      ⟨Frame.not_late ?_, by simp [Frame.final], ?_⟩
    · split <;> rfl
    · intro k hk
      obtain ⟨j, hj, rfl⟩ := Option.map_eq_some_iff.mp hk
      split
      · exact ⟨j, hj, by omega⟩
      · exact ⟨j + 2, Option.map_eq_some_iff.mpr ⟨j, hj, rfl⟩, Nat.lt_succ_self _⟩
  | stack op =>
    obtain ⟨hq, hcpus, -⟩ := stackStep_fixes s c a.ok op
    show s.Moves c (.stack op) rest ((s.stackStep c a.ok op).1.continueWith c
      ((s.stackStep c a.ok op).2.toList.map .stack) rest)
    refine Moves.continueWith hcpus (hq ▸ .refl) rfl ⟨Frame.not_late ?_, by simp [Frame.final], ?_⟩
    · cases (s.stackStep c a.ok op).2 <;> rfl
    · intro k hk
      obtain ⟨j, hj, rfl⟩ := Option.map_eq_some_iff.mp hk
      cases hnext : (s.stackStep c a.ok op).2 with
      | none => exact ⟨j, hj, Nat.lt_add_of_pos_right (by cases op <;> exact Nat.succ_pos _)⟩
      | some op' =>
        refine ⟨j + op'.steps, Option.map_eq_some_iff.mpr ⟨j, hj, rfl⟩, ?_⟩
        exact Nat.add_lt_add_left (stackStep_steps hnext) j
  | allocate spec =>
    split
    · exact .plain rfl .refl rfl (late_onFailure spec) (final_onFailure spec) rfl
    · exact Moves.plain (m := s.setStack _ _) rfl .refl rfl rfl (by simp [Frame.final]) rfl
  | mapStack i spec =>
    split
    · exact Moves.plain (m := s.setStack _ _) rfl .refl rfl rfl (by simp [Frame.final]) rfl
    · exact Moves.plain (m := s.setStack _ _) rfl .refl rfl (late_onFailure spec) (final_onFailure spec) rfl
  | spawn base spec => exact spawnThread_moves
  | apStart id slot pc =>
    cases pc with
    | setRunning =>
      exact .plain rfl (treats_setState h.wf (.inl (by simp))) rfl rfl rfl rfl
    | enableInterrupts =>
      have hgo : GoesTo (s.cpus c).current rest (.apStart id slot .enableInterrupts)
        [.apStart id slot .switch] :=
        .of_leaves_none rfl (fun _ => rfl) rfl
      have hmoves : FrameMoves (s.cpus c) rest (.apStart id slot .enableInterrupts)
          { s.cpus c with interrupts := true, code := [.apStart id slot .switch] ++ rest } :=
        .go (by simp) hgo
      exact ⟨⟨_, rfl, hmoves⟩, .refl⟩
    | switch =>
      refine ⟨⟨_, ?_, .start⟩, .refl⟩
      simp only [enter, setCode, setCpu, update_idem, update_self]
  | apFail => exact ⟨⟨_, rfl, .fail⟩, .refl⟩
  | exitProcess id =>
    split
    · split
      · exact .plain rfl .refl rfl rfl rfl rfl
      · exact Moves.plain (m := { s with stopping := _ }) rfl .refl rfl rfl rfl rfl
    · exact .plain rfl .refl rfl rfl rfl rfl
  | processTerminate pid =>
    split
    · exact .plain rfl .refl rfl rfl rfl rfl
    · exact Moves.plain (m := { s with stopping := _ }) rfl .refl rfl rfl rfl rfl
  | retireThreads pid owner =>
    refine .plain rfl .refl rfl ?_ rfl rfl
    simp [Frame.late, Frame.deadEnd]
  | retirePass todo kept =>
    cases todo with
    | nil =>
      cases kept with
      | nil => exact .plain rfl .refl rfl rfl rfl rfl
      | cons id kept =>
        exact .plain rfl .refl rfl rfl rfl rfl
    | cons id todo =>
      have hquiet : (s.removeQuiescent id).1.cpus = s.cpus ∧
          Treats s.nextThreadId none s.queue (s.removeQuiescent id).1.queue := by
        unfold removeQuiescent
        split
        · rename_i hcond
          refine ⟨rfl, treats_remove h.wf fun slot u hu heq => ?_⟩
          obtain ⟨t, ht, hstate⟩ := (Option.any_eq_true _ _).mp hcond
          rw [← heq, h.wf.get hu] at ht
          cases ht
          exact of_decide_eq_true (Bool.and_eq_true _ _ ▸ hstate).1
        · exact ⟨rfl, .refl⟩
      dsimp only
      split
      · rename_i s' t hres
        rw [hres] at hquiet
        exact .plain hquiet.1 hquiet.2 rfl rfl rfl rfl
      · rename_i s' hres
        rw [hres] at hquiet
        exact .plain hquiet.1 hquiet.2 rfl rfl rfl rfl
  | retireCheck id todo kept =>
    split
    · exact .plain rfl .refl rfl rfl rfl rfl
    · exact .plain rfl .refl rfl rfl rfl rfl
  | terminate id => exact terminateThread_moves h
  | terminateRemove id =>
    obtain ⟨-, hret⟩ := h.gone id (.inl ⟨c, hcode ▸ List.mem_cons_self⟩)
    refine .plain rfl (treats_remove h.wf fun slot t ht heq => (hret slot t ht heq).1) rfl ?_ rfl rfl
    cases (s.queue.remove id).2 <;> rfl
  | terminateSelf id pc =>
    cases pc with
    | remove => exact removeOwn_moves h hf.2
    | clear => exact ⟨⟨_, rfl, .clearSelf⟩, .refl⟩
    | halt => exact ⟨⟨_, rfl, .halts rfl⟩, .refl⟩
  | exit id pc =>
    cases pc with
    | begin =>
      have hbegin : (s.beginThreadExit id).1.cpus = s.cpus ∧
          Treats s.nextThreadId (some id) s.queue (s.beginThreadExit id).1.queue := by
        unfold beginThreadExit
        split
        · exact ⟨rfl, .refl⟩
        · split
          · exact ⟨rfl, treats_setState h.wf (.inr rfl)⟩
          · split
            · exact ⟨rfl, .refl⟩
            · exact ⟨rfl, treats_setState h.wf (.inr rfl)⟩
      dsimp only
      split
      · rename_i s' pid hres
        rw [hres] at hbegin
        exact .plain hbegin.1 hbegin.2 rfl rfl rfl rfl
      · rename_i s' hres
        rw [hres] at hbegin
        exact .plain hbegin.1 hbegin.2 rfl rfl rfl rfl
    | setTerminated =>
      exact .plain rfl (treats_setState h.wf (.inr rfl)) rfl rfl rfl rfl
    | clear => exact ⟨⟨_, rfl, .clearExit⟩, .refl⟩
    | select =>
      refine ⟨⟨_, ?_, .select⟩, .refl⟩
      simp only [enter, setCode, setCpu, update_idem, update_self]
    | remove => exact ⟨⟨_, rfl, .halts rfl⟩, treats_remove h.wf hf.2⟩
    | halt => exact ⟨⟨_, rfl, .halts rfl⟩, .refl⟩

/-! ## Selecting and switching -/

/-- What `select_next_thread` and its caller make of the state. -/
inductive Selects (s : State n) (c : Fin n) : SelectFor → State n → Prop where
  | nothing : (s.queue.selectNextThread c (s.cpus c).current).2 = none → Selects s c .yield
        ((s.setQueue (s.queue.selectNextThread c (s.cpus c).current).1).setMode c .run)
  | itself {next slot} : (s.queue.selectNextThread c (s.cpus c).current).2 = some (next, slot) →
      some next = (s.cpus c).current → Selects s c .yield
        ((s.setQueue (s.queue.selectNextThread c (s.cpus c).current).1).setMode c .run)
  | other {next slot} : (s.queue.selectNextThread c (s.cpus c).current).2 = some (next, slot) →
      Selects s c .yield ((s.setQueue (s.queue.selectNextThread c (s.cpus c).current).1).setMode c
          (.switchTo (s.cpus c).current next slot .resume))
  | exitNothing {id interrupts s'} : (s.queue.selectNextThread c (s.cpus c).current).2 = none →
      Selects s c (.exit id interrupts) s'
  | exitOther {id interrupts next slot} : (s.queue.selectNextThread c (s.cpus c).current).2 =
      some (next, slot) →
      Selects s c (.exit id interrupts)
        ((s.setQueue (s.queue.selectNextThread c (s.cpus c).current).1).setMode c (.exitRead id next slot))

/-- **Every selection has one of these outcomes.** -/
theorem selectStep_selects (purpose : SelectFor) : s.Selects c purpose (s.selectStep c purpose) := by
  unfold selectStep
  cases hsel : (s.queue.selectNextThread c (s.cpus c).current).2 with
  | none =>
    simp only [hsel]
    cases purpose with
    | yield => exact .nothing hsel
    | exit id interrupts => exact .exitNothing hsel
  | some found =>
    obtain ⟨next, slot⟩ := found
    simp only [hsel]
    cases purpose with
    | yield =>
      dsimp only
      split
      · exact .itself hsel ‹_›
      · exact .other hsel
    | exit id interrupts => exact .exitOther hsel

/-- What `switch_to_thread_with_slots` makes of the state: it publishes the switch to a live thread, or
    returns, and without an outgoing thread only because the next one is dead; or it finds the stack guard
    of the outgoing thread broken and terminates that. -/
inductive Switches (s : State n) (c : Fin n) (next : ThreadId) (after : AfterSwitch) :
    Option ThreadId → State n → Prop where
  | publish {current old new t} : s.queue.threads new = some t → t.id = next → t.state ≠ .terminated →
      (current = none → old = none) → Switches s c next after current (s.setCpu c { s.cpus c with
          switchingFrom := current
          current := some next
          currentSlot := some new
          mode := .save old new })
  | refuse {current} : (current = none → ¬ s.queue.Live next) →
      Switches s c next after current (s.switchReturns c after)
  | guard {id} : Switches s c next after (some id)
      ((s.switchReturns c after).setCode c (.terminate id :: (s.cpus c).code))

theorem Consistent.switchPublish_switches {current : Option ThreadId} {old : Option Slot}
    {slot : Slot} (h : s.Consistent)
    (hp : Pending s.queue s.nextThreadId c (s.cpus c).running next) (hold : current = none → old = none) :
    s.Switches c next after current (s.switchPublish c current old next slot after) := by
  unfold State.switchPublish
  dsimp only
  -- The next thread is found where its id says, if it is in the queue at all.
  split
  · rename_i hresolved
    refine .refuse fun _ => ?_
    rintro ⟨i, t, ht, hid, -⟩
    split at hresolved
    · cases hresolved
    · exact slotIndex_eq_none.mp hresolved i t ht hid
  · rename_i new hresolved
    have hthere : ∀ i t, s.queue.threads i = some t → t.id = next → i = new := by
      intro i t ht hid
      split at hresolved
      · rename_i hany
        cases hresolved
        obtain ⟨u, hu, huid⟩ := (Option.any_eq_true _ _).mp hany
        exact h.wf.ids i _ t u ht hu (hid.trans (of_decide_eq_true huid).symm)
      · rw [← hid, h.wf.slotIndex ht] at hresolved
        exact Option.some.inj hresolved
    split
    · rename_i hempty
      refine .refuse fun _ => ?_
      rintro ⟨i, t, ht, hid, -⟩
      cases hthere i t ht hid
      rw [hempty] at ht
      cases ht
    · rename_i t ht
      have hid : t.id = next := resolved_spec hresolved ht
      split
      · rename_i hdead
        refine .refuse fun _ => ?_
        rintro ⟨i, u, hu, huid, halive⟩
        cases hthere i u hu huid
        rw [ht] at hu
        cases hu
        exact halive hdead
      · rename_i halive
        split
        · rename_i hinvalid
          exact absurd (h.pending_saved hp ht hid halive).2 hinvalid
        · exact .publish ht hid halive hold

/-- **Every step of a switch, too.** -/
theorem Consistent.switchStep_switches {current : Option ThreadId} {slot : Slot}
    (h : s.Consistent) (hmode : (s.cpus c).mode = .switchTo current next slot after) (guardIntact : Bool) :
    s.Switches c next after current (s.switchStep c current next slot after guardIntact) := by
  have hm := h.modeInv hmode
  unfold State.switchStep
  cases current with
  | none => exact h.switchPublish_switches hm.2 fun _ => rfl
  | some id =>
    dsimp only
    split
    · exact .refuse nofun
    · split
      · exact h.switchPublish_switches hm.2 nofun
      · exact .guard

end State

end Mnu.Task
