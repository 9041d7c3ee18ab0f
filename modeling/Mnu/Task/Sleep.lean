import Mnu.Lib.Run
import Mnu.Task.QueueMaps

/-!
# `Mnu.Task.Sleep` — `sleep_thread_unless_woken` against wakeups, preemption and suspension

A thread that waits takes its wake latch, becomes sleeping, takes the latch once more and becomes ready again
if it was set in between: four critical sections on the queue, with the rest of the machine in between. After
a sleep that was not called off it gives up the CPU. `Pc` says how far a thread is, and every label is one
critical section, or one selection with its switch.

Every CPU has an idle thread of its own that never sleeps and whose process nobody has a handle for, so that
selection always finds a thread and a sleeping thread that yields is off the CPU.

`State.owed` remembers a wakeup: it is set by `wake_registered_waiter`, and a thread that calls
`sleep_thread_unless_woken` keeps of it what its latch holds.

The invariant is about one thread at a time (`Sound`), and each step is a rewriting of the threads, so each
step needs the one lemma that its rewriting keeps `Sound`.
-/

namespace Mnu.Task

open Mnu.Lib Function ThreadQueue

variable {ι κ : Type}

namespace Sleep

/-! ## The machine -/

/-- How far a thread is in `sleep_thread_unless_woken`: the critical section that comes next, or the
    `yield_now` that its caller makes when it did sleep. -/
inductive Pc where
  | outside
  | first
  | fallAsleep
  | second
  | makeReady
  | yielding
  deriving DecidableEq, Repr

/-- The queue, the CPUs, and the sleep calls. -/
structure State (ι κ : Type) where
  queue : ThreadQueue ι κ
  /-- The current thread of each CPU. -/
  cpu : ι → Option ThreadId
  pc : ThreadId → Pc
  owed : ThreadId → Bool

/-- The idle thread of each CPU (`core`, `ap-idle-n`), and the processes they belong to. -/
structure Idle (ι : Type) where
  thread : ι → ThreadId
  process : ProcessId → Bool

/-- A step of a sleep call, a wake, or scheduling. -/
inductive Label (ι : Type) where
  /-- The current thread of the CPU calls `sleep_thread_unless_woken`. -/
  | call (c : ι)
  /-- Its next critical section. -/
  | advance (c : ι)
  /-- `wake_registered_waiter`, or `wake_thread` if it is not latched. -/
  | wake (id : ThreadId) (latchRunning : Bool)
  /-- The `yield_now` after a sleep that was not called off. -/
  | yield (c : ι)
  /-- Any other selection on the CPU: the timer, or a yield outside of the protocol. -/
  | preempt (c : ι)
  | suspend (pid : ProcessId)
  | resume (pid : ProcessId)
  | hold (pid : ProcessId) (owner : ThreadId)
  | release (id : ThreadId)
  deriving DecidableEq

/-- A sleep call goes on. -/
def State.setPc (s : State ι κ) (id : ThreadId) (pc : Pc) : State ι κ :=
  { s with pc := update s.pc id pc }

/-- The critical sections of `sleep_thread_unless_woken(id)`. -/
def advance (s : State ι κ) (id : ThreadId) : Option (State ι κ) :=
  match s.pc id with
  | .outside => none
  | .first =>
    let (queue, woken) := s.queue.takePendingWakeup id
    some ({ s with queue := queue }.setPc id (if woken then .outside else .fallAsleep))
  | .fallAsleep => some ({ s with queue := (s.queue.setState id .sleeping).1 }.setPc id .second)
  | .second =>
    let (queue, woken) := s.queue.takePendingWakeup id
    some ({ s with queue := queue }.setPc id (if woken then .makeReady else .yielding))
  | .makeReady => some ({ s with queue := (s.queue.setState id .ready).1 }.setPc id .outside)
  | .yielding => none

/-- `select_next_thread` on a CPU and the switch to what it found. -/
def select [DecidableEq ι] (s : State ι κ) (c : ι) : State ι κ :=
  match s.queue.selectNextThread c (s.cpu c) with
  | (queue, none) => { s with queue := queue }
  | (queue, some (id, _)) => { s with queue := queue, cpu := update s.cpu c (some id) }

/-- Whether the wake latch of a thread is set. -/
def latched (s : State ι κ) (id : ThreadId) : Bool := (s.queue.get id).any fun t => t.pendingWakeup

/-- A sleep call goes on; wakes and selections come in between. -/
def step [DecidableEq ι] (idle : Idle ι) (s : State ι κ) : Label ι → Option (State ι κ)
  | .call c =>
    match s.cpu c with
    | none => none
    | some id =>
      if id = idle.thread c ∨ s.pc id ≠ .outside then none
      else some ({ s with owed := update s.owed id (latched s id) }.setPc id .first)
  | .advance c => (s.cpu c).bind (advance s)
  | .wake id latchRunning =>
    some { s with
      queue := s.queue.wakeWaiter id latchRunning
      owed := if latchRunning then update s.owed id true else s.owed }
  | .yield c =>
    match s.cpu c with
    | none => none
    | some id => if s.pc id = .yielding then some ((select s c).setPc id .outside) else none
  | .preempt c => some (select s c)
  | .suspend pid =>
    if idle.process pid then none else some { s with queue := s.queue.suspendProcess pid }
  | .resume pid => some { s with queue := s.queue.resumeProcess pid }
  | .hold pid owner =>
    if idle.process pid then none else some { s with queue := s.queue.holdImageSiblings pid owner }
  | .release id => some { s with queue := s.queue.releaseImageHold id }

/-- The idle thread of a CPU is there, never sleeps and can always be selected on it. -/
def IdleReady (idle : Idle ι) (s : State ι κ) (c : ι) : Prop :=
  ∃ slot t, s.queue.threads slot = some t ∧ t.id = idle.thread c ∧ t.cpuAffinity = some c ∧
    (t.state = .ready ∨ t.state = .running) ∧ t.isSchedulingSuspended = false ∧
    idle.process t.processId = true ∧ s.pc t.id = .outside

/-- Any set of threads, of which exactly those on a CPU run; nobody is in a sleep call. -/
structure Start (idle : Idle ι) (s : State ι κ) : Prop where
  wf : s.queue.Wf
  idle : ∀ c, IdleReady idle s c
  current : ∀ c id, s.cpu c = some id →
    ∃ slot t, s.queue.threads slot = some t ∧ t.id = id ∧ t.cpuAffinity = some c ∧ t.state = .running
  running : ∀ slot t, s.queue.threads slot = some t → t.state = .running → ∃ c, s.cpu c = some t.id
  outside : ∀ id, s.pc id = .outside
  settled : ∀ id, s.owed id = false

/-- The threads of the machine, each of which may call `sleep_thread_unless_woken` whenever it runs. -/
def sleepers [DecidableEq ι] (idle : Idle ι) : System (State ι κ) (Label ι) where
  init := Start idle
  step := step idle

/-! ## What is true of each thread -/

/-- The thread is current on a CPU. -/
def OnCpu (s : State ι κ) (id : ThreadId) : Prop := ∃ c, s.cpu c = some id

/-- A thread that is sleeping with a wakeup at hand: it is on its CPU, and will see the latch, or has seen it
    and will be ready. -/
def Rechecks (s : State ι κ) (t : Thread ι κ) : Prop :=
  t.state = .sleeping ∧ OnCpu s t.id ∧ (s.pc t.id = .second ∧ t.pendingWakeup = true ∨ s.pc t.id = .makeReady)

/-- Ready or running. -/
def Lively (t : Thread ι κ) : Prop := t.state = .ready ∨ t.state = .running

/-- The invariant of one thread. -/
structure Sound (s : State ι κ) (t : Thread ι κ) : Prop where
  running : t.state = .running → OnCpu s t.id
  /-- A thread is awake when it begins to sleep. -/
  awake : s.pc t.id = .first ∨ s.pc t.id = .fallAsleep → Lively t
  current : s.pc t.id = .outside → OnCpu s t.id → Lively t
  /-- A wakeup that came since is in the latch. -/
  latched : s.pc t.id = .first ∨ s.pc t.id = .fallAsleep → s.owed t.id = true → t.pendingWakeup = true
  present : s.pc t.id = .makeReady → OnCpu s t.id ∧ t.state ≠ .terminated
  delivered : s.owed t.id = true → t.state ≠ .terminated → Lively t ∨ Rechecks s t

/-- The invariant of queue, CPUs and calls. -/
structure Inv (idle : Idle ι) (s : State ι κ) : Prop where
  wf : s.queue.Wf
  idle : ∀ c, IdleReady idle s c
  placed : ∀ c id, s.cpu c = some id →
    ∃ slot t, s.queue.threads slot = some t ∧ t.id = id ∧ t.cpuAffinity = some c ∧ t.state ≠ .terminated
  sound : ∀ slot t, s.queue.threads slot = some t → Sound s t

/-- The condition on a run: no CPU takes up another thread while its own is between its transition to sleeping
    and its second look at a latch that is set, or between that look and being ready again. -/
def calm (s : State ι κ) : Label ι → Bool
  | .preempt c => (s.cpu c).all fun id => s.pc id != .makeReady && !(s.pc id == .second && latched s id)
  | _ => true

section Preservation

variable {idle : Idle ι} {s s' : State ι κ} {t : Thread ι κ} {c c' : ι} {id : ThreadId}
  {g : Thread ι κ → Thread ι κ}
  {latch : Bool} {slot : Slot}

/-- The invariant of a thread reads its state and its latch, and where it is. -/
theorem Sound.frame {t' : Thread ι κ} (h : Sound s t) (hid : t'.id = t.id) (hstate : t'.state = t.state)
    (hpending : t'.pendingWakeup = t.pendingWakeup) (hcpu : OnCpu s' t.id ↔ OnCpu s t.id)
    (hpc : s'.pc t.id = s.pc t.id) (howed : s'.owed t.id = s.owed t.id) : Sound s' t' := by
  refine ⟨?_, ?_, ?_, ?_, ?_, ?_⟩
  · rw [hid, hstate, hcpu]
    exact h.running
  · rw [hid, hpc, Lively, hstate]
    exact h.awake
  · rw [hid, hpc, hcpu, Lively, hstate]
    exact h.current
  · rw [hid, hpc, howed, hpending]
    exact h.latched
  · rw [hid, hpc, hcpu, hstate]
    exact h.present
  · rw [hid, howed, Lively, Rechecks, hid, hpc, hcpu, hstate, hpending]
    exact h.delivered

theorem Lively.alive (h : Lively t) : t.state ≠ .terminated := by
  rcases h with h | h <;> rw [h] <;> decide

theorem woken_eq_of_lively (latch : Bool) (h : Lively t) : (woken latch t).state = t.state ∧
      (latch = true → (woken latch t).pendingWakeup = true) ∧
      (t.pendingWakeup = true → (woken latch t).pendingWakeup = true) := by
  rcases h with h | h
  · simp [woken, h]
  · cases latch <;> simp [woken, h]

theorem lively_woken (h : t.state ≠ .terminated) : Lively (woken latch t) := by
  cases hstate : t.state with
  | ready =>
    have hlive : Lively t := .inl hstate
    rw [Lively, (woken_eq_of_lively latch hlive).1]
    exact hlive
  | running =>
    have hlive : Lively t := .inr hstate
    rw [Lively, (woken_eq_of_lively latch hlive).1]
    exact hlive
  | blocked | sleeping => simp [Lively, woken, hstate]
  | terminated => exact absurd hstate h

theorem woken_running (h : (woken latch t).state = .running) : t.state = .running := by
  by_cases hlive : Lively t
  · rw [← (woken_eq_of_lively latch hlive).1]
    exact h
  · cases hstate : t.state with
    | ready => exact absurd (.inl hstate) hlive
    | running => rfl
    | blocked | sleeping | terminated => simp [woken, hstate] at h

theorem requeued_fields (current : Option ThreadId) (t : Thread ι κ) : (requeued current t).id = t.id ∧
      (requeued current t).cpuAffinity = t.cpuAffinity ∧ (requeued current t).processId = t.processId ∧
      (requeued current t).isSchedulingSuspended = t.isSchedulingSuspended ∧
      (requeued current t).pendingWakeup = t.pendingWakeup ∧ (Lively t → Lively (requeued current t)) ∧
      (t.state ≠ .terminated → (requeued current t).state ≠ .terminated) := by
  unfold requeued
  split
  · exact ⟨rfl, rfl, rfl, rfl, rfl, fun _ => .inl rfl, nofun⟩
  · exact ⟨rfl, rfl, rfl, rfl, rfl, id, id⟩

/-- The invariant holds at the start. -/
theorem inv_start (h : Start idle s) : Inv idle s := by
  refine ⟨h.wf, h.idle, ?_, ?_⟩
  · intro c id hc
    obtain ⟨slot, t, ht, hid, haff, hrun⟩ := h.current c id hc
    exact ⟨slot, t, ht, hid, haff, by rw [hrun]; decide⟩
  · intro slot t ht
    have hout := h.outside t.id
    refine ⟨h.running slot t ht, ?_, ?_, ?_, ?_, ?_⟩
    · rw [hout]
      rintro (h0 | h0) <;> cases h0
    · rintro _ ⟨c, hc⟩
      obtain ⟨slot', t', ht', hid, _, hrun⟩ := h.current c t.id hc
      rw [h.wf.unique ht ht' hid.symm]
      exact .inr hrun
    · rw [hout]
      rintro (h0 | h0) <;> cases h0
    · rw [hout]
      intro h0
      cases h0
    · rw [h.settled]
      intro h0
      cases h0

section Steps

variable (h : Inv idle s) (hc : s.cpu c = some id) {queue : ThreadQueue ι κ} {pid : ProcessId}
include h

theorem Inv.latched_eq {slot : Slot} (ht : s.queue.threads slot = some t) :
    latched s t.id = t.pendingWakeup := by
  simp [latched, h.wf.get ht]

/-- **Step rule.** An operation that rewrites every thread and leaves the CPUs alone keeps the invariant if it
    keeps that of each thread, and does nothing to an idle one. -/
theorem Inv.map (hmap : s.queue.Maps s'.queue g) (hsafe : s.queue.Safe s'.queue) (hcpu : s'.cpu = s.cpu)
    (halive : ∀ t, t.state ≠ .terminated → (g t).state ≠ .terminated)
    (hidle : ∀ c t, t.id = idle.thread c → idle.process t.processId = true → s.pc t.id = .outside → Lively t →
      t.isSchedulingSuspended = false → Lively (g t) ∧ (g t).isSchedulingSuspended = false ∧
        s'.pc t.id = .outside)
    (hsound : ∀ slot t, s.queue.threads slot = some t → Sound s t → Sound s' (g t)) : Inv idle s' := by
  have hsame : ∀ slot t, s.queue.threads slot = some t → SameThread t (g t) := by
    intro slot t ht
    obtain ⟨t', ht', hs⟩ := hsafe.tame.forward ht
    rw [hmap.forward ht] at ht'
    cases ht'
    exact hs
  refine ⟨hsafe.wf h.wf, ?_, ?_, ?_⟩
  · intro c
    obtain ⟨slot, t, ht, hid, haff, hlive, hsusp, hproc, hpc⟩ := h.idle c
    obtain ⟨hlive', hsusp', hpc'⟩ := hidle c t hid hproc hpc hlive hsusp
    have hs := hsame slot t ht
    exact ⟨slot, g t, hmap.forward ht, hs.id.trans hid, hs.cpuAffinity.trans haff, hlive', hsusp',
      by rw [hs.processId]; exact hproc, by rw [hs.id]; exact hpc'⟩
  · intro c id hc
    rw [hcpu] at hc
    obtain ⟨slot, t, ht, hid, haff, hdead⟩ := h.placed c id hc
    have hs := hsame slot t ht
    exact ⟨slot, g t, hmap.forward ht, hs.id.trans hid, hs.cpuAffinity.trans haff, halive t hdead⟩
  · intro slot t' ht'
    obtain ⟨t, ht, rfl⟩ := hmap.backward ht'
    exact hsound slot t ht (h.sound slot t ht)

/-- The step rule for an operation on one thread. -/
theorem Inv.only
    (hmap : s.queue.Maps s'.queue (ThreadQueue.only id g)) (hsafe : s.queue.Safe s'.queue)
    (hcpu : s'.cpu = s.cpu)
    (hpc : ∀ k, k ≠ id → s'.pc k = s.pc k) (howed : ∀ k, k ≠ id → s'.owed k = s.owed k)
    (halive : ∀ t, t.state ≠ .terminated → (g t).state ≠ .terminated)
    (hidle : ∀ c t, id = idle.thread c → s.pc id = .outside → Lively t → t.isSchedulingSuspended = false →
      Lively (g t) ∧ (g t).isSchedulingSuspended = false ∧ s'.pc id = .outside)
    (hsound : ∀ slot t, s.queue.threads slot = some t → t.id = id → Sound s t → Sound s' (g t)) :
    Inv idle s' := by
  refine h.map hmap hsafe hcpu ?_ ?_ ?_
  · intro t hdead
    unfold ThreadQueue.only
    split
    · exact halive t hdead
    · exact hdead
  · intro c t hid _ hout hlive hsusp
    unfold ThreadQueue.only
    split
    · rename_i heq
      subst heq
      exact hidle c t hid hout hlive hsusp
    · rename_i hne
      exact ⟨hlive, hsusp, by rw [hpc _ hne]; exact hout⟩
  · intro slot t ht hs
    unfold ThreadQueue.only
    split
    · rename_i heq
      exact hsound slot t ht heq hs
    · rename_i hne
      exact hs.frame rfl rfl rfl (by rw [OnCpu, hcpu]; rfl) (hpc _ hne) (howed _ hne)

/-! ## Wakeups and suspension -/

theorem inv_wake (id : ThreadId) (latch : Bool) : Inv idle { s with
      queue := s.queue.wakeWaiter id latch
      owed := if latch then update s.owed id true else s.owed } := by
  refine h.only (wakeWaiter_maps h.wf id latch) (kept_wakeWaiter _ _ _).safe rfl (fun _ _ => rfl) ?_ ?_ ?_ ?_
  · intro k hk
    cases latch with
    | false => rfl
    | true => exact update_of_ne hk _ _
  · intro t hd
    exact (lively_woken hd).alive
  · intro _ t _ hpc hlive hsusp
    exact ⟨lively_woken hlive.alive, (woken_fields latch t).2.trans hsusp, hpc⟩
  · rintro slot t ht rfl hs
    have hid := (woken_fields latch t).1
    refine ⟨?_, ?_, ?_, ?_, ?_, ?_⟩
    · intro hrun
      rw [hid]
      exact hs.running (woken_running hrun)
    · rw [hid]
      intro hpc
      exact lively_woken (hs.awake hpc).alive
    · rw [hid]
      intro hpc hon
      exact lively_woken (hs.current hpc hon).alive
    · rw [hid]
      intro hpc howed
      have hkeep := woken_eq_of_lively latch (hs.awake hpc)
      cases latch with
      | true => exact hkeep.2.1 rfl
      | false => exact hkeep.2.2 (hs.latched hpc howed)
    · rw [hid]
      intro hpc
      obtain ⟨hon, hd⟩ := hs.present hpc
      exact ⟨hon, (lively_woken hd).alive⟩
    · intro _ hd
      refine .inl (lively_woken fun hterm => hd ?_)
      simp [woken, hterm]

/-- Suspension, holding and their ends rewrite the two flags of threads of processes that are not idle. -/
theorem inv_flags (hmap : s.queue.Maps queue g) (hsafe : s.queue.Safe queue)
    (hkeep : ∀ t, (g t).id = t.id ∧ (g t).state = t.state ∧ (g t).pendingWakeup = t.pendingWakeup)
    (hidle : ∀ t, idle.process t.processId = true → t.isSchedulingSuspended = false →
      (g t).isSchedulingSuspended = false) : Inv idle { s with queue := queue } := by
  refine h.map hmap hsafe rfl ?_ ?_ ?_
  · intro t hd
    rw [(hkeep t).2.1]
    exact hd
  · intro _ t _ hproc hpc hlive hsusp
    refine ⟨?_, hidle t hproc hsusp, hpc⟩
    rw [Lively, (hkeep t).2.1]
    exact hlive
  · intro _ t _ hs
    exact hs.frame (hkeep t).1 (hkeep t).2.1 (hkeep t).2.2 Iff.rfl rfl rfl

/-- What the flag operations do to a thread: nothing that the invariant of the thread reads. -/
theorem inv_suspend (hpid : idle.process pid = false) :
    Inv idle { s with queue := s.queue.suspendProcess pid } := by
  refine inv_flags h (suspendProcess_maps _ pid) (kept_suspendProcess _ _).safe (suspend_fields pid) ?_
  intro t hproc hsusp
  have hne : t.processId ≠ pid := ne_of_apply_ne idle.process (by rw [hproc, hpid]; decide)
  simp [suspended, hne, hsusp]

theorem inv_resume (pid : ProcessId) : Inv idle { s with queue := s.queue.resumeProcess pid } := by
  refine inv_flags h (resumeProcess_maps _ pid) (kept_resumeProcess _ _).safe (resume_fields pid) ?_
  intro t _ hsusp
  simp only [Thread.isSchedulingSuspended, Bool.or_eq_false_iff] at hsusp
  simp [resumed, Thread.resume, Thread.isSchedulingSuspended, hsusp]

theorem inv_hold (hpid : idle.process pid = false) (owner : ThreadId) :
    Inv idle { s with queue := s.queue.holdImageSiblings pid owner } := by
  refine inv_flags h (holdImageSiblings_maps _ pid owner) (kept_holdImageSiblings _ _ _).safe
    (hold_fields pid owner) ?_
  intro t hproc hsusp
  have hne : t.processId ≠ pid := ne_of_apply_ne idle.process (by rw [hproc, hpid]; decide)
  simp [held, hne, hsusp]

theorem inv_release (id : ThreadId) : Inv idle { s with queue := s.queue.releaseImageHold id } := by
  refine inv_flags h (releaseImageHold_maps h.wf id) (kept_releaseImageHold _ _).safe (release_fields id) ?_
  intro t _ hsusp
  simp only [Thread.isSchedulingSuspended, Bool.or_eq_false_iff] at hsusp
  unfold only
  split <;> simp [released, Thread.isSchedulingSuspended, hsusp]

/-! ## The critical sections of a sleeping thread -/

include hc

/-- A thread is current on one CPU only. -/
theorem Inv.cpu_unique (hc' : s.cpu c' = some id) : c = c' := by
  obtain ⟨slot, t, ht, hid, haff, _⟩ := h.placed c id hc
  obtain ⟨slot', t', ht', hid', haff', _⟩ := h.placed c' id hc'
  rw [h.wf.unique ht ht' (hid.trans hid'.symm), haff'] at haff
  exact (Option.some.inj haff).symm

omit hc in
/-- An idle thread is current on its own CPU only. -/
theorem Inv.idle_cpu (hc : s.cpu c = some (idle.thread c')) : c = c' := by
  obtain ⟨slot, t, ht, hid, haff, _⟩ := h.placed c _ hc
  obtain ⟨slot', t', ht', hid', haff', _⟩ := h.idle c'
  rw [h.wf.unique ht ht' (hid.trans hid'.symm), haff'] at haff
  exact (Option.some.inj haff).symm

/-- A thread in a sleep call takes a step of its own: the rest of the machine is as before. -/
theorem Inv.ownStep (hout : s.pc id ≠ .outside) {pc : Pc}
    (hmap : s.queue.Maps queue (ThreadQueue.only id g)) (hsafe : s.queue.Safe queue)
    (halive : ∀ t, t.state ≠ .terminated → (g t).state ≠ .terminated)
    (hsound : ∀ slot t, s.queue.threads slot = some t → t.id = id → t.state ≠ .terminated → Sound s t →
      Sound ({ s with queue := queue }.setPc id pc) (g t)) : Inv idle
        ({ s with queue := queue }.setPc id pc) := by
  refine h.only hmap hsafe rfl ?_ (fun _ _ => rfl) halive ?_ ?_
  · intro k hk
    exact update_of_ne hk _ _
  · intro _ _ _ hpc
    exact absurd hpc hout
  · intro slot t ht hid hs
    obtain ⟨slot', t', ht', hid', _, hdead⟩ := h.placed c id hc
    rw [← h.wf.unique ht ht' (hid.trans hid'.symm)] at hdead
    exact hsound slot t ht hid hdead hs

/-- **The first look at the latch.** -/
theorem inv_first (hpc : s.pc id = .first) :
    Inv idle ({ s with queue := (s.queue.takePendingWakeup id).1 }.setPc id
      (if (s.queue.takePendingWakeup id).2 then .outside else .fallAsleep)) := by
  refine h.ownStep hc (by rw [hpc]; decide) (takePendingWakeup_maps h.wf id)
    (kept_takePendingWakeup _ _).safe (fun _ hd => hd) ?_
  rintro slot t ht rfl _ hs
  rw [takePendingWakeup_result h.wf ht]
  have hlive : Lively (unlatched t) := hs.awake (.inl hpc)
  refine ⟨hs.running, fun _ => hlive, fun _ _ => hlive, ?_, ?_, fun _ _ => .inl hlive⟩
  · -- a latch that was not set says that no wakeup came since the call
    intro hnext howed
    have hset := hs.latched (.inl hpc) howed
    simp [State.setPc, hset, unlatched] at hnext
  · intro hnext
    simp only [State.setPc, unlatched, update_self] at hnext
    split at hnext <;> cases hnext

/-- **The thread is put to sleep.** -/
theorem inv_fallAsleep (hpc : s.pc id = .fallAsleep) :
    Inv idle ({ s with queue := (s.queue.setState id .sleeping).1 }.setPc id .second) := by
  refine h.ownStep hc (by rw [hpc]; decide) (setState_maps h.wf id .sleeping) (kept_setState _ _ _).safe ?_ ?_
  · intro t hd
    rw [withState_of_alive hd]
    exact nofun
  · rintro slot t ht rfl hd hs
    rw [withState_of_alive hd]
    have hnext : ({ s with queue := (s.queue.setState t.id .sleeping).1 }.setPc t.id .second : State ι κ).pc
        t.id = .second := update_self _ _ _
    refine ⟨nofun, ?_, ?_, ?_, ?_, ?_⟩
    · rintro (h0 | h0) <;> exact absurd (hnext.symm.trans h0) (by decide)
    · intro h0
      exact absurd (hnext.symm.trans h0) (by decide)
    · rintro (h0 | h0) <;> exact absurd (hnext.symm.trans h0) (by decide)
    · intro h0
      exact absurd (hnext.symm.trans h0) (by decide)
    · -- a wakeup since the first look is in the latch, and the second look is still to come
      intro howed _
      exact .inr ⟨rfl, ⟨c, hc⟩, .inl ⟨hnext, hs.latched (.inr hpc) howed⟩⟩

/-- **The second look.** -/
theorem inv_second (hpc : s.pc id = .second) :
    Inv idle ({ s with queue := (s.queue.takePendingWakeup id).1 }.setPc id
      (if (s.queue.takePendingWakeup id).2 then .makeReady else .yielding)) := by
  refine h.ownStep hc (by rw [hpc]; decide) (takePendingWakeup_maps h.wf id)
    (kept_takePendingWakeup _ _).safe (fun _ hd => hd) ?_
  rintro slot t ht rfl hd hs
  rw [takePendingWakeup_result h.wf ht]
  have hnext : ∀ x : Pc, x ≠ .makeReady → x ≠ .yielding → ({ s with queue := (s.queue.takePendingWakeup
      t.id).1 }.setPc t.id (if t.pendingWakeup then .makeReady else .yielding) : State ι κ).pc t.id ≠ x := by
    intro x h1 h2 h0
    simp only [State.setPc, update_self] at h0
    split at h0
    · exact h1 h0.symm
    · exact h2 h0.symm
  refine ⟨hs.running, ?_, ?_, ?_, fun _ => ⟨⟨c, hc⟩, hd⟩, ?_⟩
  · rintro (h0 | h0) <;> exact absurd h0 (hnext _ (by decide) (by decide))
  · intro h0
    exact absurd h0 (hnext _ (by decide) (by decide))
  · rintro (h0 | h0) <;> exact absurd h0 (hnext _ (by decide) (by decide))
  · intro howed _
    rcases hs.delivered howed hd with hlive | ⟨hsleep, _, ⟨_, hset⟩ | hready⟩
    · exact .inl hlive
    · refine .inr ⟨hsleep, ⟨c, hc⟩, .inr ?_⟩
      simp [State.setPc, unlatched, hset]
    · rw [hpc] at hready
      cases hready

/-- **It is made ready again.** -/
theorem inv_makeReady (hpc : s.pc id = .makeReady) :
    Inv idle ({ s with queue := (s.queue.setState id .ready).1 }.setPc id .outside) := by
  refine h.ownStep hc (by rw [hpc]; decide) (setState_maps h.wf id .ready) (kept_setState _ _ _).safe ?_ ?_
  · intro t hd
    rw [withState_of_alive hd]
    exact nofun
  · rintro slot t ht rfl hd hs
    rw [withState_of_alive hd]
    have hlive : Lively ({ t with state := .ready } : Thread ι κ) := .inl rfl
    refine ⟨nofun, fun _ => hlive, fun _ _ => hlive, ?_, ?_, fun _ _ => .inl hlive⟩
    · rintro (h0 | h0) <;> simp [State.setPc] at h0
    · intro h0
      simp [State.setPc] at h0

theorem inv_advance (hs : advance s id = some s') : Inv idle s' := by
  unfold advance at hs
  generalize hpc : s.pc id = p at hs
  cases p with
  | outside | yielding =>
    cases hs
  | first =>
    cases hs
    exact inv_first h hc hpc
  | fallAsleep =>
    cases hs
    exact inv_fallAsleep h hc hpc
  | second =>
    cases hs
    exact inv_second h hc hpc
  | makeReady =>
    cases hs
    exact inv_makeReady h hc hpc

/-- **The call starts.** -/
theorem inv_call (hne : id ≠ idle.thread c) (hpc : s.pc id = .outside) :
    Inv idle ({ s with owed := update s.owed id (latched s id) }.setPc id .first) := by
  refine h.only (maps_same s.queue id) .refl rfl ?_ ?_ (fun _ hd => hd) ?_ ?_
  · intro k hk
    exact update_of_ne hk _ _
  · intro k hk
    exact update_of_ne hk _ _
  · -- the idle thread of another CPU is not current here
    rintro c' t rfl
    exact absurd (congrArg _ (h.idle_cpu hc).symm) hne
  · rintro slot t ht rfl hs
    have hlive := hs.current hpc ⟨c, hc⟩
    refine ⟨hs.running, fun _ => hlive, fun _ _ => hlive, ?_, ?_, fun _ _ => .inl hlive⟩
    · intro _ howed
      simp only [State.setPc, update_self] at howed
      rw [← h.latched_eq ht]
      exact howed
    · intro h0
      simp [State.setPc] at h0

end Steps

/-! ## Selection -/

variable [DecidableEq ι]

/-- A CPU whose current thread is not its idle one finds a thread: the idle one is ready. -/
theorem Inv.select_isSome (h : Inv idle s) (hc : s.cpu c = some id)
    (hpc : s.pc id ≠ .outside) : (s.queue.selectNextThread c (s.cpu c)).2.isSome := by
  obtain ⟨slot, t, ht, hid, haff, hlive, hsusp, _, hout⟩ := h.idle c
  refine selectNextThread_isSome h.wf ht ?_ (.inr haff)
  rcases hlive with hready | hrun
  · simp [Thread.selectable, hready, hsusp]
  · -- running, it would be the current thread
    obtain ⟨c', hc'⟩ := (h.sound slot t ht).running hrun
    obtain ⟨slot', u, hu, huid, haff', _⟩ := h.placed c' _ hc'
    rw [← h.wf.unique ht hu huid.symm, haff] at haff'
    cases haff'
    rw [hc] at hc'
    cases hc'
    exact absurd hout hpc

theorem inv_select_none (h : Inv idle s) (hnone : (s.queue.selectNextThread c (s.cpu c)).2 = none) :
    Inv idle { s with queue := (s.queue.selectNextThread c (s.cpu c)).1 } := by
  refine h.map (selectNextThread_none_maps h.wf hnone) (selectNextThread_none hnone) rfl
    (fun t => (requeued_fields _ t).2.2.2.2.2.2) ?_ ?_
  · intro _ t _ _ hpc hlive hsusp
    exact ⟨(requeued_fields _ t).2.2.2.2.2.1 hlive, (requeued_fields _ t).2.2.2.1.trans hsusp, hpc⟩
  · intro slot t _ hs
    unfold requeued
    split
    · rename_i hcur
      have hlive : Lively ({ t with state := .ready } : Thread ι κ) := .inl rfl
      exact ⟨nofun, fun _ => hlive, fun _ _ => hlive, hs.latched,
        fun hpc => ⟨(hs.present hpc).1, nofun⟩, fun _ _ => .inl hlive⟩
    · exact hs.frame rfl rfl rfl Iff.rfl rfl rfl

/-- **A CPU takes up another thread.** The one it leaves must not be about to see its latch. -/
theorem inv_select_some (h : Inv idle s) (hsome : (s.queue.selectNextThread c (s.cpu c)).2 = some (id, slot))
    (hcalm : ∀ i t, s.queue.threads i = some t → s.cpu c = some t.id →
      s.pc t.id ≠ .makeReady ∧ ¬(s.pc t.id = .second ∧ t.pendingWakeup = true)) : Inv idle { s with
      queue := (s.queue.selectNextThread c (s.cpu c)).1, cpu := update s.cpu c (some id) } := by
  obtain ⟨hmap, t₁, ht₁, hid₁, _, howner⟩ := selectNextThread_maps h.wf hsome
  obtain ⟨_, hwf⟩ := selectNextThread_some h.wf hsome
  -- the chosen thread was free for this CPU, so it is current on no other one
  have hfree : ∀ c', t₁.cpuAffinity = some c' → c' = c := by
    intro c' haff
    rcases howner with h0 | h0
    · rw [haff] at h0
      cases h0
    · rw [haff] at h0
      exact Option.some.inj h0
  have hchosen : ∀ {t : Thread ι κ}, t.id = id → switched c (s.cpu c) id t =
      { t with cpuAffinity := some c, state := .running } := fun hid => if_pos hid
  have hother : ∀ {t : Thread ι κ}, t.id ≠ id → switched c (s.cpu c) id t =
      requeued (s.cpu c) t := fun hid => if_neg hid
  refine ⟨hwf, ?_, ?_, ?_⟩
  · intro c'
    obtain ⟨i, t, ht, hid, haff, hlive, hsusp, hproc, hpc⟩ := h.idle c'
    refine ⟨i, _, hmap.forward ht, ?_⟩
    by_cases heq : t.id = id
    · rw [hchosen heq]
      rw [h.wf.unique ht ht₁ (heq.trans hid₁.symm)] at haff
      exact ⟨hid, by rw [hfree c' haff], .inr rfl, hsusp, hproc, hpc⟩
    · rw [hother heq]
      obtain ⟨h1, h2, h3, h4, _, h6, _⟩ := requeued_fields (s.cpu c) t
      exact ⟨h1.trans hid, h2.trans haff, h6 hlive, h4.trans hsusp, by rw [h3]; exact hproc,
        by rw [h1]; exact hpc⟩
  · intro c' k hk
    dsimp only at hk
    rcases of_update_eq hk with ⟨rfl, ⟨⟩⟩ | ⟨hcc, hk⟩
    · refine ⟨slot, _, hmap.forward ht₁, ?_⟩
      rw [hchosen hid₁]
      exact ⟨hid₁, rfl, nofun⟩
    · obtain ⟨i, t, ht, hid, haff, hd⟩ := h.placed c' k hk
      have hne : t.id ≠ id := by
        intro heq
        rw [h.wf.unique ht ht₁ (heq.trans hid₁.symm)] at haff
        exact hcc (hfree c' haff)
      obtain ⟨h1, h2, _, _, _, _, h7⟩ := requeued_fields (s.cpu c) t
      refine ⟨i, _, hmap.forward ht, ?_⟩
      rw [hother hne]
      exact ⟨h1.trans hid, h2.trans haff, h7 hd⟩
  · intro i t' ht'
    obtain ⟨t, ht, rfl⟩ := hmap.backward ht'
    have hs := h.sound i t ht
    by_cases heq : t.id = id
    · rw [hchosen heq]
      have hlive : Lively ({ t with cpuAffinity := some c, state := .running } : Thread ι κ) := .inr rfl
      have hon : OnCpu { s with
          queue := (s.queue.selectNextThread c (s.cpu c)).1, cpu := update s.cpu c (some id) } t.id :=
        ⟨c, by rw [heq]; exact update_self _ _ _⟩
      exact ⟨fun _ => hon, fun _ => hlive, fun _ _ => hlive, hs.latched, fun _ => ⟨hon, nofun⟩,
        fun _ _ => .inl hlive⟩
    · rw [hother heq]
      have hoff : ∀ c', update s.cpu c (some id) c' = some t.id → c' ≠ c ∧ s.cpu c' = some t.id := by
        intro c' hc'
        rcases of_update_eq hc' with ⟨-, ⟨⟩⟩ | ⟨hne, hc'⟩
        · exact absurd rfl heq
        · exact ⟨hne, hc'⟩
      unfold requeued
      by_cases hcur : s.cpu c = some t.id
      · -- the thread that leaves the CPU
        obtain ⟨hnot, hlatch⟩ := hcalm i t ht hcur
        split
        · have hlive : Lively ({ t with state := .ready } : Thread ι κ) := .inl rfl
          exact ⟨nofun, fun _ => hlive, fun _ _ => hlive, hs.latched,
            fun hpc => absurd hpc hnot, fun _ _ => .inl hlive⟩
        · rename_i hrun
          refine ⟨fun h0 => absurd ⟨hcur, h0⟩ hrun, hs.awake, ?_, hs.latched, fun hpc => absurd hpc hnot, ?_⟩
          · intro hpc _
            exact hs.current hpc ⟨c, hcur⟩
          · intro howed hd
            rcases hs.delivered howed hd with hlive | ⟨_, _, hsecond | hready⟩
            · exact .inl hlive
            · exact absurd hsecond hlatch
            · exact absurd hready hnot
      · rw [if_neg fun h0 => hcur h0.1]
        refine hs.frame rfl rfl rfl ⟨?_, ?_⟩ rfl rfl
        · rintro ⟨c', hc'⟩
          exact ⟨c', (hoff c' hc').2⟩
        · rintro ⟨c', hc'⟩
          refine ⟨c', ?_⟩
          have hne : c' ≠ c := by
            rintro rfl
            exact hcur hc'
          exact (update_of_ne hne _ _).trans hc'

theorem select_eq_none (hnone : (s.queue.selectNextThread c (s.cpu c)).2 = none) :
    select s c = { s with queue := (s.queue.selectNextThread c (s.cpu c)).1 } := by
  unfold select
  split
  · rename_i heq
    rw [heq]
  · rename_i heq
    rw [heq] at hnone
    cases hnone

theorem select_eq_some (hsome : (s.queue.selectNextThread c (s.cpu c)).2 = some (id, slot)) :
    select s c = { s with
      queue := (s.queue.selectNextThread c (s.cpu c)).1, cpu := update s.cpu c (some id) } := by
  unfold select
  split
  · rename_i heq
    rw [heq] at hsome
    cases hsome
  · rename_i heq
    rw [heq] at hsome ⊢
    cases hsome
    rfl

theorem inv_select (h : Inv idle s) (hcalm : ∀ i t, s.queue.threads i = some t → s.cpu c = some t.id →
      s.pc t.id ≠ .makeReady ∧ ¬(s.pc t.id = .second ∧ t.pendingWakeup = true)) : Inv idle (select s c) := by
  cases hfound : (s.queue.selectNextThread c (s.cpu c)).2 with
  | none =>
    rw [select_eq_none hfound]
    exact inv_select_none h hfound
  | some found =>
    rw [select_eq_some hfound]
    exact inv_select_some h hfound hcalm

/-- The yield after a sleep leaves the CPU, unless the thread was woken and chosen again. -/
theorem inv_yield (h : Inv idle s) (hc : s.cpu c = some id)
    (hpc : s.pc id = .yielding) : Inv idle ((select s c).setPc id .outside) := by
  obtain ⟨⟨id', slot⟩, hsome⟩ := Option.isSome_iff_exists.mp (h.select_isSome hc (by rw [hpc]; decide))
  have hinv : Inv idle (select s c) := by
    refine inv_select h fun i t _ hcur => ?_
    rw [hc] at hcur
    cases hcur
    rw [hpc]
    exact ⟨by decide, fun h0 => (nomatch h0.1)⟩
  obtain ⟨hmap, t₁, ht₁, hid₁, _⟩ := selectNextThread_maps h.wf hsome
  rw [select_eq_some hsome] at hinv ⊢
  refine hinv.only (maps_same _ id) .refl rfl ?_ (fun _ _ => rfl) (fun _ hd => hd) ?_ ?_
  · intro k hk
    exact update_of_ne hk _ _
  · intro _ _ _ hout
    exact absurd (hpc.symm.trans hout) (by decide)
  · rintro i t ht rfl hs
    refine ⟨hs.running, ?_, ?_, ?_, ?_, ?_⟩
    · rintro (h0 | h0) <;> simp [State.setPc] at h0
    · -- still on a CPU: it is this one, and the thread was chosen
      rintro _ ⟨c', hc'⟩
      have hcc : c' = c := by
        by_contra hne
        exact hne (h.cpu_unique ((update_of_ne hne _ _).symm.trans hc') hc)
      subst hcc
      have hid : id' = t.id := by simpa [State.setPc] using hc'
      obtain ⟨u, _, rfl⟩ := hmap.backward ht
      refine .inr ?_
      have hu : u.id = id' := by
        by_contra hne
        have hfield := (requeued_fields (s.cpu c') u).1
        rw [switched, if_neg hne, hfield] at hid
        exact hne hid.symm
      rw [switched, if_pos hu]
    · rintro (h0 | h0) <;> simp [State.setPc] at h0
    · intro h0
      simp [State.setPc] at h0
    · intro howed hd
      rcases hs.delivered howed hd with hlive | ⟨_, _, ⟨hsecond, _⟩ | hready⟩
      · exact .inl hlive
      · exact absurd (hpc.symm.trans hsecond) (by decide)
      · exact absurd (hpc.symm.trans hready) (by decide)

/-- **Every step keeps the invariant**, if no CPU leaves a thread that is about to see its latch. -/
theorem inv_step (h : Inv idle s) {l : Label ι} (hcalm : calm s l = true) (hs : step idle s l = some s') :
    Inv idle s' := by
  cases l with simp only [step] at hs
  | call c =>
    split at hs
    · cases hs
    rename_i id hc
    split at hs
    · cases hs
    rename_i hguard
    cases hs
    push Not at hguard
    exact inv_call h hc hguard.1 hguard.2
  | advance c =>
    obtain ⟨id, hc, hadv⟩ := Option.bind_eq_some_iff.mp hs
    exact inv_advance h hc hadv
  | wake id latch =>
    cases hs
    exact inv_wake h id latch
  | yield c =>
    split at hs
    · cases hs
    rename_i id hc
    split at hs
    · rename_i hpc
      cases hs
      exact inv_yield h hc hpc
    · cases hs
  | preempt c =>
    cases hs
    refine inv_select h fun i t ht hcur => ?_
    simp only [calm, hcur, Option.all_some, h.latched_eq ht, Bool.and_eq_true, bne_iff_ne, ne_eq,
      Bool.not_eq_true', Bool.and_eq_false_iff, beq_eq_false_iff_ne] at hcalm
    refine ⟨hcalm.1, ?_⟩
    rintro ⟨hsecond, hset⟩
    rcases hcalm.2 with h0 | h0
    · exact h0 hsecond
    · rw [hset] at h0
      cases h0
  | suspend pid =>
    split at hs
    · cases hs
    rename_i hpid
    cases hs
    exact inv_suspend h (Bool.not_eq_true _ ▸ hpid)
  | resume pid =>
    cases hs
    exact inv_resume h pid
  | hold pid owner =>
    split at hs
    · cases hs
    rename_i hpid
    cases hs
    exact inv_hold h (Bool.not_eq_true _ ▸ hpid) owner
  | release id =>
    cases hs
    exact inv_release h id

/-- **The invariant holds in every calm run.** -/
theorem inv_reach (h : (sleepers idle).Reach (fun s l => calm s l = true) s) : Inv idle s := by
  refine System.Reach.invariant ?_ ?_ h
  · intro s hs
    exact inv_start hs
  · intro s l s' hinv hok hs
    exact inv_step hinv hok hs
end Preservation

end Sleep

end Mnu.Task
