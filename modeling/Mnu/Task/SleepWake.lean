import Mnu.Task.Sleep

/-!
# `Mnu.Task.SleepWake` — a registered wakeup reaches its thread

What a step leaves alone, for the protocols that are built on the sleep call: a thread that does not act keeps
its place in the code, what it is owed and its latch (`step_frame`, `step_keeps`). Then the result: in a run
in which no CPU leaves a thread that is about to see its latch, no registered wakeup is lost
(`Rechecks.resolves` is its core); and the run in which the timer does exactly that.
-/

namespace Mnu.Task

open Mnu.Lib Function ThreadQueue

variable {ι κ : Type} {ts : List (Thread ι κ)}

namespace Sleep

section Frame

variable {idle : Idle ι} {s s' : State ι κ} [DecidableEq ι] {t : Thread ι κ} {g : Thread ι κ → Thread ι κ}
  {l : Label ι} {slot : Slot} {id : ThreadId} (h : Inv idle s) (ht : s.queue.threads slot = some t)

/-! ## What a step leaves alone -/

/-- The thread takes a step of its sleep call. -/
def acts (s : State ι κ) (id : ThreadId) : Label ι → Prop
  | .call c => s.cpu c = some id
  | .advance c => s.cpu c = some id
  | .yield c => s.cpu c = some id
  | _ => False

theorem select_pc (s : State ι κ) (c : ι) : (select s c).pc = s.pc ∧ (select s c).owed = s.owed ∧
    ∀ c', c' ≠ c → (select s c).cpu c' = s.cpu c' := by
  unfold select
  split
  · exact ⟨rfl, rfl, fun _ _ => rfl⟩
  · exact ⟨rfl, rfl, fun _ hne => update_of_ne hne _ _⟩

omit [DecidableEq ι] in
theorem withState_keeps {state : ThreadState} (hstate : state ≠ .terminated) (t : Thread ι κ) :
    (withState state t).id = t.id ∧ (t.state ≠ .terminated → (withState state t).state ≠ .terminated) := by
  unfold withState
  split
  · exact ⟨rfl, id⟩
  · exact ⟨rfl, fun _ => hstate⟩

/-- How many critical sections of the sleep call are to come at most. -/
def Pc.rank : Pc → Nat
  | .outside => 0
  | .yielding => 0
  | .makeReady => 1
  | .second => 2
  | .fallAsleep => 3
  | .first => 4

omit [DecidableEq ι] in
/-- What a critical section of a sleep call is: it rewrites its own thread, and the call is further on. -/
theorem advance_cases (hw : s.queue.Wf) (hs : advance s id = some s') :
    ∃ g queue pc, s' = { s with queue := queue }.setPc id pc ∧ s.queue.Maps queue (only id g) ∧
      (∀ t, (g t).id = t.id ∧ (t.state ≠ .terminated → (g t).state ≠ .terminated)) ∧
      pc.rank < (s.pc id).rank := by
  unfold advance at hs
  generalize hpc : s.pc id = p at hs
  cases p with
  | outside | yielding =>
    cases hs
  | first | second =>
    cases hs
    refine ⟨_, _, _, rfl, takePendingWakeup_maps hw id, fun _ => ⟨rfl, fun h0 => h0⟩, ?_⟩
    split <;> decide
  | fallAsleep =>
    cases hs
    exact ⟨_, _, _, rfl, setState_maps hw id .sleeping, withState_keeps (by decide), by decide⟩
  | makeReady =>
    cases hs
    exact ⟨_, _, _, rfl, setState_maps hw id .ready, withState_keeps (by decide), by decide⟩

/-- **What a step leaves alone.** A thread that does not act keeps its place in the code and what it is owed.
    Only a selection changes which thread a CPU runs, and only on its CPU. -/
theorem step_frame (hw : s.queue.Wf) (hs : step idle s l = some s') :
    (∀ id, ¬ acts s id l → s'.pc id = s.pc id ∧ (s.owed id = true → s'.owed id = true)) ∧
      (s'.cpu = s.cpu ∨ ∃ c, (l = .yield c ∨ l = .preempt c) ∧ ∀ c', c' ≠ c → s'.cpu c' = s.cpu c') := by
  cases l with simp only [step] at hs
  | call c =>
    split at hs
    · cases hs
    rename_i k hc
    split at hs
    · cases hs
    cases hs
    refine ⟨fun id hnot => ?_, .inl rfl⟩
    have hne : id ≠ k := fun h0 => hnot (h0 ▸ hc)
    exact ⟨update_of_ne hne _ _, fun howed => (update_of_ne hne _ _).trans howed⟩
  | advance c =>
    obtain ⟨k, hc, hadv⟩ := Option.bind_eq_some_iff.mp hs
    obtain ⟨_, _, _, rfl, _⟩ := advance_cases hw hadv
    refine ⟨fun id hnot => ?_, .inl rfl⟩
    have hne : id ≠ k := fun h0 => hnot (h0 ▸ hc)
    exact ⟨update_of_ne hne _ _, fun h0 => h0⟩
  | wake k latch =>
    cases hs
    refine ⟨fun id _ => ⟨rfl, fun howed => ?_⟩, .inl rfl⟩
    dsimp only
    split
    · rw [update_apply]
      split
      · rfl
      · exact howed
    · exact howed
  | yield c =>
    split at hs
    · cases hs
    rename_i k hc
    split at hs
    · cases hs
      obtain ⟨hpc, howed, hcpu⟩ := select_pc s c
      refine ⟨fun id hnot => ?_, .inr ⟨c, .inl rfl, hcpu⟩⟩
      have hne : id ≠ k := fun h0 => hnot (h0 ▸ hc)
      refine ⟨(update_of_ne hne _ _).trans (by rw [hpc]), fun h0 => ?_⟩
      show (select s c).owed id = true
      rw [howed]
      exact h0
    · cases hs
  | preempt c =>
    cases hs
    obtain ⟨hpc, howed, hcpu⟩ := select_pc s c
    exact ⟨fun id _ => ⟨by rw [hpc], fun h0 => by rw [howed]; exact h0⟩, .inr ⟨c, .inr rfl, hcpu⟩⟩
  | suspend pid | hold pid owner =>
    split at hs
    · cases hs
    cases hs
    exact ⟨fun _ _ => ⟨rfl, fun h0 => h0⟩, .inl rfl⟩
  | resume pid | release k =>
    cases hs
    exact ⟨fun _ _ => ⟨rfl, fun h0 => h0⟩, .inl rfl⟩

/-- What every step does to every thread: it stays itself and alive, and only its own steps clear its latch.
    -/
def Keeps (l : Label ι) (s : State ι κ) (g : Thread ι κ → Thread ι κ) : Prop :=
  ∀ t, (g t).id = t.id ∧ (t.state ≠ .terminated → (g t).state ≠ .terminated) ∧
    (t.pendingWakeup = true → (∀ c, l = .advance c → s.cpu c ≠ some t.id) → (g t).pendingWakeup = true)

omit [DecidableEq ι] in
theorem keeps_flags
    (hkeep : ∀ t, (g t).id = t.id ∧ (g t).state = t.state ∧ (g t).pendingWakeup = t.pendingWakeup) :
    Keeps l s g := by
  intro t
  obtain ⟨hid, hstate, hpending⟩ := hkeep t
  exact ⟨hid, by rw [hstate]; exact id, fun h0 _ => by rw [hpending]; exact h0⟩

omit [DecidableEq ι] in
/-- The critical sections of the current thread of `c`. -/
theorem keeps_own {c : ι} (hc : s.cpu c = some id)
    (hkeep : ∀ t, (g t).id = t.id ∧ (t.state ≠ .terminated → (g t).state ≠ .terminated)) :
    Keeps (.advance c) s (only id g) := by
  intro t
  unfold only
  split
  · rename_i hid
    refine ⟨(hkeep t).1, (hkeep t).2, fun _ hnot => ?_⟩
    exact absurd (by rw [hid]; exact hc) (hnot c rfl)
  · exact ⟨rfl, fun h0 => h0, fun h0 _ => h0⟩

theorem keeps_select (h : Inv idle s) (l : Label ι) (c : ι) :
    ∃ g, s.queue.Maps (select s c).queue g ∧ Keeps l s g := by
  cases hfound : (s.queue.selectNextThread c (s.cpu c)).2 with
  | none =>
    rw [select_eq_none hfound]
    refine ⟨_, selectNextThread_none_maps h.wf hfound, fun t => ?_⟩
    obtain ⟨h1, _, _, _, h5, _, h7⟩ := requeued_fields (s.cpu c) t
    exact ⟨h1, h7, fun h0 _ => by rw [h5]; exact h0⟩
  | some found =>
    rw [select_eq_some hfound]
    refine ⟨_, (selectNextThread_maps h.wf hfound).1, fun t => ?_⟩
    unfold switched
    split
    · exact ⟨rfl, nofun, fun h0 _ => h0⟩
    · obtain ⟨h1, _, _, _, h5, _, h7⟩ := requeued_fields (s.cpu c) t
      exact ⟨h1, h7, fun h0 _ => by rw [h5]; exact h0⟩

theorem step_keeps (h : Inv idle s) (hs : step idle s l = some s') :
    ∃ g, s.queue.Maps s'.queue g ∧ Keeps l s g := by
  cases l with simp only [step] at hs
  | call c =>
    split at hs
    · cases hs
    rename_i id _
    split at hs
    · cases hs
    cases hs
    refine ⟨_, maps_same s.queue id, keeps_flags fun t => ?_⟩
    unfold only
    split <;> exact ⟨rfl, rfl, rfl⟩
  | advance c =>
    obtain ⟨id, hc, hadv⟩ := Option.bind_eq_some_iff.mp hs
    obtain ⟨_, _, _, rfl, hmap, hkeep, _⟩ := advance_cases h.wf hadv
    exact ⟨_, hmap, keeps_own hc hkeep⟩
  | wake id latch =>
    cases hs
    refine ⟨_, wakeWaiter_maps h.wf id latch, fun t => ?_⟩
    unfold only
    split
    · refine ⟨(woken_fields latch t).1, fun hd => (lively_woken hd).alive, fun h0 _ => ?_⟩
      unfold woken
      split
      · exact h0
      · exact h0
      · rfl
      · split
        · rfl
        · exact h0
      · exact h0
    · exact ⟨rfl, fun h0 => h0, fun h0 _ => h0⟩
  | yield c =>
    split at hs
    · cases hs
    split at hs
    · cases hs
      exact keeps_select h _ c
    · cases hs
  | preempt c =>
    cases hs
    exact keeps_select h _ c
  | suspend pid =>
    split at hs
    · cases hs
    cases hs
    exact ⟨_, suspendProcess_maps _ pid, keeps_flags (suspend_fields pid)⟩
  | resume pid =>
    cases hs
    exact ⟨_, resumeProcess_maps _ pid, keeps_flags (resume_fields pid)⟩
  | hold pid owner =>
    split at hs
    · cases hs
    cases hs
    exact ⟨_, holdImageSiblings_maps _ pid owner, keeps_flags (hold_fields pid owner)⟩
  | release id =>
    cases hs
    exact ⟨_, releaseImageHold_maps h.wf id, keeps_flags (release_fields id)⟩

/-! ## No wakeup is lost -/

include h ht in
omit [DecidableEq ι] in
theorem advance_makeReady
    (hpc : s.pc t.id = .makeReady) (hd : t.state ≠ .terminated) : ∃ s', advance s t.id = some s' ∧
      s'.queue.threads slot = some { t with state := .ready } := by
  refine ⟨_, by rw [advance, hpc], ?_⟩
  show (s.queue.setState t.id .ready).1.threads slot = _
  rw [(setState_maps h.wf t.id .ready).forward ht, only, if_pos rfl, withState_of_alive hd]

/-- The thread in this slot, current on `c`, is ready after `n` steps of its own. -/
def ReadyAfter (idle : Idle ι) (s : State ι κ) (slot : Slot) (c : ι) (n : Nat) : Prop :=
  ∃ s' t', (sleepers idle).exec (fun _ _ => true) s (List.replicate n (.advance c)) = some s' ∧
    s'.queue.threads slot = some t' ∧ t'.state = .ready

include h ht in
/-- No more than two steps of its own make a rechecking thread ready. -/
theorem Rechecks.resolves
    (hr : Rechecks s t) : ∃ c n, s.cpu c = some t.id ∧ n ≤ 2 ∧ ReadyAfter idle s slot c n := by
  obtain ⟨hsleep, ⟨c, hc⟩, ⟨hpc, hset⟩ | hpc⟩ := hr
  · -- the second look finds the latch, the step after it makes the thread ready
    have hd : t.state ≠ .terminated := by rw [hsleep]; decide
    have hinv := inv_second h hc hpc
    have hmid := (takePendingWakeup_maps h.wf t.id).forward ht
    rw [only, if_pos rfl] at hmid
    rw [takePendingWakeup_result h.wf ht, hset] at hinv
    obtain ⟨s', hadv, ht'⟩ := advance_makeReady hinv hmid (update_self _ _ _) hd
    refine ⟨c, 2, hc, Nat.le_refl _, s', _, ?_, ht', rfl⟩
    have hfirst : advance s t.id = some ({ s with queue := (s.queue.takePendingWakeup t.id).1 }.setPc t.id
        .makeReady) := by
      simp [advance, hpc, takePendingWakeup_result h.wf ht, hset]
    simp only [List.replicate, System.exec, if_true, sleepers, step, hc, Option.bind_some, hfirst]
    show ((s.cpu c).bind _).bind _ = _
    rw [hc]
    exact congrArg (fun x => Option.bind x some) hadv
  · have hd : t.state ≠ .terminated := by rw [hsleep]; decide
    obtain ⟨s', hadv, ht'⟩ := advance_makeReady h ht hpc hd
    refine ⟨c, 1, hc, by decide, s', _, ?_, ht', rfl⟩
    simp [List.replicate, System.exec, sleepers, step, hc, hadv]

/-- A thread can go on: it is ready or running, or on its CPU and no more than two steps of its own away from
    being ready; and unless it is suspended or held, it is on a CPU or its ready bit is set. -/
def Awake (idle : Idle ι) (s : State ι κ) (slot : Slot) (t : Thread ι κ) : Prop :=
  (t.state = .ready ∨ t.state = .running ∨ ∃ c n, s.cpu c = some t.id ∧ n ≤ 2 ∧ ReadyAfter idle s slot c n) ∧
    (t.isSchedulingSuspended = false → s.queue.readyBitmap slot = true ∨ OnCpu s t.id)

include h ht in
theorem Inv.awake_of_owed
    (howed : s.owed t.id = true) (halive : t.state ≠ .terminated) : Awake idle s slot t := by
  have hs := h.sound slot t ht
  rcases hs.delivered howed halive with (hready | hrun) | hr
  · refine ⟨.inl hready, fun hsusp => .inl ?_⟩
    rw [h.wf.bits slot, ht]
    simp [Thread.selectable, hready, hsusp]
  · exact ⟨.inr (.inl hrun), fun _ => .inr (hs.running hrun)⟩
  · exact ⟨.inr (.inr (hr.resolves h ht)), fun _ => .inr hr.2.1⟩

/-- **No registered wakeup is lost**, in every run in which no CPU takes up another thread while its own is
    about to see its latch. A thread with a wakeup since its sleep call began, or with one latched before, is
    ready, running, or on its CPU no more than two steps away from being ready; and unless it is suspended or
    held, it is on a CPU or its ready bit is set. -/
theorem wake_is_not_lost (h : (sleepers idle).Reach (fun s l => calm s l = true) s) {slot : Slot}
    {t : Thread ι κ} (ht : s.queue.threads slot = some t) (howed : s.owed t.id = true)
    (halive : t.state ≠ .terminated) :
    (t.state = .ready ∨ t.state = .running ∨ ∃ c n, s.cpu c = some t.id ∧ n ≤ 2 ∧
      ReadyAfter idle s slot c n) ∧
      (t.isSchedulingSuspended = false → s.queue.readyBitmap slot = true ∨ OnCpu s t.id) :=
  (inv_reach h).awake_of_owed ht howed halive

end Frame

/-! ## Machines with given threads -/

/-- The queue with these threads in its first slots. -/
def queueOf (ts : List (Thread ι κ)) : ThreadQueue ι κ where
  threads slot := ts[slot.val]?
  readyBitmap slot := (ts[slot.val]?).any Thread.selectable
  rrCursor := 0
  count := ts.length

/-- These threads, with a current one on every CPU. -/
def machineOf (ts : List (Thread ι κ)) (cpu : ι → ThreadId) : State ι κ :=
  ⟨queueOf ts, fun c => some (cpu c), fun _ => .outside, fun _ => false⟩

theorem wf_queueOf (h : (ts.map Thread.id).Nodup) : (queueOf ts).Wf := by
  refine ⟨fun i j a b ha hb hid => ?_, fun _ => rfl⟩
  obtain ⟨hi, rfl⟩ := List.getElem?_eq_some_iff.mp ha
  obtain ⟨hj, rfl⟩ := List.getElem?_eq_some_iff.mp hb
  have hne := List.pairwise_iff_getElem.mp (List.pairwise_map.mp h)
  rcases Nat.lt_trichotomy i.val j.val with hlt | heq | hgt
  · exact absurd hid (hne _ _ hi hj hlt)
  · exact Fin.ext heq
  · exact absurd hid.symm (hne _ _ hj hi hgt)

/-- A machine starts when each CPU has its idle thread and runs one of the threads. -/
theorem start_machineOf {idle : Idle ι} {cpu : ι → ThreadId}
    (hlen : ts.length ≤ 64) (hids : (ts.map Thread.id).Nodup)
    (hidle : ∀ c, ∃ t ∈ ts, t.id = idle.thread c ∧ t.cpuAffinity = some c ∧
      (t.state = .ready ∨ t.state = .running) ∧ t.isSchedulingSuspended = false ∧
      idle.process t.processId = true)
    (hcurrent : ∀ c, ∃ t ∈ ts, t.id = cpu c ∧ t.cpuAffinity = some c ∧ t.state = .running)
    (hrunning : ∀ t ∈ ts, t.state = .running → ∃ c, cpu c = t.id) : Start idle (machineOf ts cpu) := by
  have hslot : ∀ t ∈ ts, ∃ slot, (queueOf ts).threads slot = some t := by
    intro t ht
    obtain ⟨i, hi, rfl⟩ := List.mem_iff_getElem.mp ht
    exact ⟨⟨i, by omega⟩, List.getElem?_eq_getElem hi⟩
  refine ⟨wf_queueOf hids, ?_, ?_, ?_, fun _ => rfl, fun _ => rfl⟩
  · intro c
    obtain ⟨t, ht, hid, haff, hlive, hsusp, hproc⟩ := hidle c
    obtain ⟨slot, hs⟩ := hslot t ht
    exact ⟨slot, t, hs, hid, haff, hlive, hsusp, hproc, rfl⟩
  · intro c id hc
    cases hc
    obtain ⟨t, ht, hid, haff, hrun⟩ := hcurrent c
    obtain ⟨slot, hs⟩ := hslot t ht
    exact ⟨slot, t, hs, hid, haff, hrun⟩
  · intro slot t ht hrun
    obtain ⟨hi, rfl⟩ := List.getElem?_eq_some_iff.mp ht
    obtain ⟨c, hc⟩ := hrunning _ (List.getElem_mem hi) hrun
    exact ⟨c, congrArg some hc⟩

/-- A thread of a process of its own, on its CPU. -/
def threadOf (id : ThreadId) (c : ι) (state : ThreadState) : Thread ι Unit :=
  { id := id, processId := id, processObject := true, state := state, schedulingSuspended := false,
    imageHeld := false, cpuAffinity := some c, context := (), kernelStack := .outside,
    pendingWakeup := false }

/-- Two CPUs with their idle threads. -/
def twoCpus : Idle Bool := ⟨fun c => if c then 1 else 0, fun pid => pid = 0 || pid = 1⟩

/-- Threads 2 and 3 run on them. -/
def twoThreads : State Bool Unit :=
  machineOf [threadOf 0 false .ready, threadOf 1 true .ready, threadOf 2 false .running,
    threadOf 3 true .running]
    fun c => if c then 3 else 2

theorem start_twoThreads : Start twoCpus twoThreads := by
  refine start_machineOf (by decide) (by decide) ?_ ?_ ?_
  · intro c
    cases c
    · exact ⟨threadOf 0 false .ready, by simp, rfl, rfl, .inl rfl, rfl, rfl⟩
    · exact ⟨threadOf 1 true .ready, by simp, rfl, rfl, .inl rfl, rfl, rfl⟩
  · intro c
    cases c
    · exact ⟨threadOf 2 false .running, by simp, rfl, rfl, rfl⟩
    · exact ⟨threadOf 3 true .running, by simp, rfl, rfl, rfl⟩
  · intro t ht hrun
    simp only [List.mem_cons, List.not_mem_nil, or_false] at ht
    rcases ht with rfl | rfl | rfl | rfl
    · cases hrun
    · cases hrun
    · exact ⟨false, rfl⟩
    · exact ⟨true, rfl⟩

/-! ## A wakeup that is lost -/

/-- Thread 2 looks at its latch, thread 3 wakes it while it still runs, and it becomes sleeping. -/
def wokenBetween : List (Label Bool) := [.call false, .advance false, .wake 2 true, .advance false]

theorem wake_is_not_lost_between : ∃ s : State Bool Unit,
    (sleepers twoCpus).Reach (fun s l => calm s l = true) s ∧ ∃ t, s.queue.threads 2 = some t ∧
      t.state = .sleeping ∧ ((t.state = .ready ∨ t.state = .running ∨
        ∃ c n, s.cpu c = some t.id ∧ n ≤ 2 ∧ ReadyAfter twoCpus s 2 c n) ∧
      (t.isSchedulingSuspended = false → s.queue.readyBitmap 2 = true ∨ OnCpu s t.id)) := by
  obtain ⟨s, hs, hp⟩ := System.reach_of_exec (sleepers twoCpus) calm twoThreads wokenBetween
    (fun s => (s.queue.threads 2).any (fun t => t.id == 2 && t.state == .sleeping) ∧ s.owed 2)
    start_twoThreads (by decide +kernel)
  simp only [Bool.and_eq_true, Option.any_eq_true, beq_iff_eq] at hp
  obtain ⟨⟨t, ht, hid, hstate⟩, howed⟩ := hp
  refine ⟨s, hs, t, ht, hstate, ?_⟩
  exact wake_is_not_lost hs ht (by rw [hid]; exact howed) (by rw [hstate]; decide)

/-- **The timer can lose a wakeup.** It comes after thread 2 became sleeping and before its second look: the
    thread is left sleeping with the wakeup in its latch, not suspended, off the CPUs and not ready. -/
theorem wake_lost_to_preemption : ∃ s : State Bool Unit, (sleepers twoCpus).Reachable s ∧ ∃ t,
    s.queue.threads 2 = some t ∧ t.id = 2 ∧ s.owed 2 = true ∧ t.state = .sleeping ∧
      t.isSchedulingSuspended = false ∧ s.queue.readyBitmap 2 = false ∧ ∀ c, s.cpu c ≠ some 2 := by
  obtain ⟨s, hs, hp⟩ := System.reachable_of_exec (sleepers twoCpus) twoThreads
    (wokenBetween ++ [.preempt false])
    (fun s => (s.queue.threads 2).any (fun t =>
        t.id == 2 && (t.state == .sleeping && t.isSchedulingSuspended == false)) ∧
      s.owed 2 ∧ s.queue.readyBitmap 2 = false ∧ ∀ c, s.cpu c ≠ some 2) start_twoThreads (by decide +kernel)
  simp only [Bool.and_eq_true, Option.any_eq_true, beq_iff_eq] at hp
  obtain ⟨⟨t, ht, hid, hstate, hsusp⟩, howed, hbit, hcpu⟩ := hp
  exact ⟨s, hs, t, ht, hid, howed, hstate, hsusp, hbit, hcpu⟩

end Sleep

end Mnu.Task
