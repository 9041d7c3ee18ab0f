import Mnu.Task.SleepWake

/-!
# `Mnu.Syscall.SleepUntil` — `sleep_until` against the timer

`src/syscall/time.rs`, `src/interrupt/timer.rs`. A thread reads the tick count, queues its deadline, makes
itself sleeping and yields until the deadline has come. The timer interrupt counts, compares the count with
the published hint, takes the due entries out of the queue and wakes their threads one by one. The clock
belongs to one CPU. Each of these is a step of its own; what a CPU does inside a critical section is one step,
and the hint, which is read without the lock, is written inside of one, so that a reader sees it as before or
after.

A system call runs with interrupts off, so a thread that is in one loses its CPU only where it yields, and the
clock does not tick on its CPU. It does on another one: `sleep_thread` does not look at the wake latch, and a
thread whose entry was taken out, and who was woken before it slept, sleeps on.

The tick count is a natural number; at 500 ticks a second a 64-bit counter does not wrap. `called` and
`handled` are not there in the source: the deadline and the tick count with which a thread was queued last,
and the last interrupt that was handled.
-/

namespace Mnu.Syscall.SleepUntil

open Mnu.Lib Mnu.Task Function ThreadQueue

variable {ι κ : Type}

/-! ## The queue of deadlines -/

/-- A queued deadline. -/
structure SleepEntry where
  tid : ThreadId
  wakeTick : Nat
  deriving DecidableEq, Repr

/-- `SLEEP_QUEUE`, with `MAX_SLEEPERS = ThreadQueue::MAX_THREADS` slots. -/
abbrev SleepQueue := Slot → Option SleepEntry

/-- `NO_DEADLINE` -/
def noDeadline : Nat := 2 ^ 64 - 1

/-- `register_sleep_entry`, but for the note of the hint. -/
def registerSleepEntry (q : SleepQueue) (tid : ThreadId) (wakeTick : Nat) : Option SleepQueue :=
  match slots.find? fun slot => (q slot).any fun entry => entry.tid = tid with
  | some slot => some (update q slot (some ⟨tid, wakeTick⟩))
  | none =>
    match slots.find? fun slot => (q slot).isNone with
    | some slot => some (update q slot (some ⟨tid, wakeTick⟩))
    | none => none

/-- The variables of the loop in `wake_due_sleepers_slow`. -/
structure Scan where
  queue : SleepQueue
  wakeList : List ThreadId
  nextDeadline : Nat

/-- The scan at one slot. -/
def Scan.slot (now : Nat) (scan : Scan) (slot : Slot) : Scan :=
  match scan.queue slot with
  | none => scan
  | some entry =>
    if entry.wakeTick ≤ now then
      { scan with queue := update scan.queue slot none, wakeList := scan.wakeList ++ [entry.tid] }
    else { scan with nextDeadline := min scan.nextDeadline entry.wakeTick }

/-- The critical section of `wake_due_sleepers_slow`. The wake list has room for every slot. -/
def wakeDueSleepersSlow (q : SleepQueue) (now : Nat) : Scan :=
  slots.foldl (Scan.slot now) ⟨q, [], noDeadline⟩

/-! ## The machine -/

/-- How far a thread is in `sleep_until`. -/
inductive Prog where
  | user
  /-- Compare the tick count with the deadline. -/
  | check (deadline : Nat)
  /-- Queue the deadline. -/
  | queueing (deadline : Nat)
  /-- `sleep_thread` -/
  | fallAsleep (deadline : Nat)
  /-- The condition of the loop. -/
  | waiting (deadline : Nat)
  /-- `yield_now` -/
  | yielding (deadline : Nat)
  deriving DecidableEq, Repr

/-- How far the clock interrupt is in `wake_due_sleepers(now)`. -/
inductive Timer where
  | idle
  /-- Look at the hint. -/
  | hint (now : Nat)
  /-- Scan the queue. -/
  | scan (now : Nat)
  /-- Wake those on the list. -/
  | waking (now : Nat) (wakeList : List ThreadId)
  deriving DecidableEq, Repr

/-- Who is still to be woken. -/
def Timer.wakeList : Timer → List ThreadId
  | .waking _ wakeList => wakeList
  | _ => []

/-- The scheduler, the deadlines, the interrupt, and the calls made. -/
structure State (ι κ : Type) where
  queue : ThreadQueue ι κ
  cpu : ι → Option ThreadId
  prog : ThreadId → Prog
  ticks : Nat
  sleepers : SleepQueue
  /-- `NEXT_SLEEP_DEADLINE` -/
  nextSleepDeadline : Nat
  timer : Timer
  called : ThreadId → Option (Nat × Nat)
  handled : Nat

/-- A thread goes on. -/
def State.setProg (s : State ι κ) (id : ThreadId) (p : Prog) : State ι κ :=
  { s with prog := update s.prog id p }

/-- Critical sections on the thread queue that the rest of the kernel runs at any time. -/
inductive Other where
  | wake (id : ThreadId) (latchRunning : Bool)
  | suspend (pid : ProcessId)
  | resume (pid : ProcessId)
  | hold (pid : ProcessId) (owner : ThreadId)
  | release (id : ThreadId)
  deriving DecidableEq

/-- What it does to the queue. -/
def Other.apply (q : ThreadQueue ι κ) : Other → ThreadQueue ι κ
  | .wake id latchRunning => q.wakeWaiter id latchRunning
  | .suspend pid => q.suspendProcess pid
  | .resume pid => q.resumeProcess pid
  | .hold pid owner => q.holdImageSiblings pid owner
  | .release id => q.releaseImageHold id

/-- A call, a step of a thread or of the interrupt, or scheduling. -/
inductive Label (ι : Type) where
  /-- The current thread of the CPU calls `sleep_until`. -/
  | call (c : ι) (deadline : Nat)
  /-- Its next step. -/
  | own (c : ι)
  /-- The clock interrupt counts. -/
  | tick
  /-- Its next step. -/
  | timer
  /-- The CPU selects another thread. -/
  | preempt (c : ι)
  | other (op : Other)
  deriving DecidableEq

/-- `select_next_thread` on a CPU and the switch to what it found. -/
def select [DecidableEq ι] (s : State ι κ) (c : ι) : State ι κ :=
  match s.queue.selectNextThread c (s.cpu c) with
  | (queue, none) => { s with queue := queue }
  | (queue, some (id, _)) => { s with queue := queue, cpu := update s.cpu c (some id) }

/-- The steps of `sleep_until` by the thread `id` on the CPU `c`. -/
def own [DecidableEq ι] (s : State ι κ) (c : ι) (id : ThreadId) : Option (State ι κ) :=
  match s.prog id with
  | .user => none
  | .check deadline => some (s.setProg id (if deadline ≤ s.ticks then .user else .queueing deadline))
  | .queueing deadline =>
    match registerSleepEntry s.sleepers id deadline with
    | none => some (s.setProg id .user)
    | some sleepers => some ({ s with
        sleepers := sleepers
        nextSleepDeadline := min s.nextSleepDeadline deadline
        called := update s.called id (some (deadline, s.ticks)) }.setProg id (.fallAsleep deadline))
  | .fallAsleep deadline =>
    some ({ s with queue := (s.queue.setState id .sleeping).1 }.setProg id (.waiting deadline))
  | .waiting deadline => some (s.setProg id (if s.ticks < deadline then .yielding deadline else .user))
  | .yielding deadline => some ((select s c).setProg id (.waiting deadline))

/-- The steps of `wake_due_sleepers`. -/
def handle (s : State ι κ) : Option (State ι κ) :=
  match s.timer with
  | .idle => none
  | .hint now =>
    if s.nextSleepDeadline ≤ now then some { s with timer := .scan now }
    else some { s with timer := .idle, handled := now }
  | .scan now =>
    let scan := wakeDueSleepersSlow s.sleepers now
    some { s with
      sleepers := scan.queue, nextSleepDeadline := scan.nextDeadline, timer := .waking now scan.wakeList }
  | .waking now [] => some { s with timer := .idle, handled := now }
  | .waking now (id :: rest) =>
    some { s with queue := s.queue.wakeWaiter id true, timer := .waking now rest }

/-- The CPU runs code of a thread, and not the clock interrupt. -/
def free [DecidableEq ι] (clock : ι) (s : State ι κ) (c : ι) : Bool := c ≠ clock || s.timer = .idle

/-- It runs with interrupts on. -/
def interruptible [DecidableEq ι] (clock : ι) (s : State ι κ) (c : ι) : Bool :=
  free clock s c && (s.cpu c).all fun id => s.prog id = .user

/-- Calls, the interrupt and the scheduler take turns. -/
def step [DecidableEq ι] (clock : ι) (s : State ι κ) : Label ι → Option (State ι κ)
  | .call c deadline =>
    match s.cpu c with
    | none => none
    | some id =>
      if free clock s c && s.prog id = .user then some (s.setProg id (.check deadline)) else none
  | .own c =>
    match s.cpu c with
    | none => none
    | some id => if free clock s c then own s c id else none
  | .tick =>
    if interruptible clock s clock then
      some { s with ticks := s.ticks + 1, timer := .hint (s.ticks + 1) }
    else none
  | .timer => handle s
  | .preempt c => if interruptible clock s c then some (select s c) else none
  | .other op => some { s with queue := op.apply s.queue }

/-- Any set of threads; no deadline is queued, and nobody is in `sleep_until`. -/
structure Start (s : State ι κ) : Prop where
  wf : s.queue.Wf
  user : ∀ id, s.prog id = .user
  empty : ∀ slot, s.sleepers slot = none
  timer : s.timer = .idle
  called : ∀ id, s.called id = none
  handled : s.handled ≤ s.ticks

/-- Sleeping threads as a system. -/
def machine [DecidableEq ι] (clock : ι) : System (State ι κ) (Label ι) where
  init := Start
  step := step clock

/-- The thread has an entry. -/
def queued (s : State ι κ) (id : ThreadId) : Bool :=
  slots.any fun slot => (s.sleepers slot).any fun entry => entry.tid = id

/-- The condition on a run: the timer does not wake a thread that has yet to fall asleep, and whose entry it
    has taken. -/
def prompt (s : State ι κ) : Label ι → Bool
  | .timer =>
    match s.timer with
    | .waking _ (id :: _) =>
      match s.prog id with
      | .fallAsleep _ => queued s id
      | _ => true
    | _ => true
  | _ => true

/-! ## What the queue of deadlines holds -/

section Deadlines

variable {q q' : SleepQueue} {tid : ThreadId} {wakeTick now : Nat}

/-- An entry is queued where the thread had one, or in an empty slot if it had none. -/
theorem register_cases (h : registerSleepEntry q tid wakeTick = some q') :
    ∃ slot, q' = update q slot (some ⟨tid, wakeTick⟩) ∧ ((∃ entry, q slot = some entry ∧ entry.tid = tid) ∨
        q slot = none ∧ ∀ slot' entry, q slot' = some entry → entry.tid ≠ tid) := by
  unfold registerSleepEntry at h
  cases hfind : slots.find? fun slot => (q slot).any fun entry => entry.tid = tid with rw [hfind] at h
  | some slot =>
    refine ⟨slot, (Option.some.inj h).symm, .inl ?_⟩
    have hany := List.find?_some hfind
    obtain ⟨entry, hentry, hid⟩ := (Option.any_eq_true _ _).mp hany
    exact ⟨entry, hentry, of_decide_eq_true hid⟩
  | none =>
    have hnone : ∀ slot' entry, q slot' = some entry → entry.tid ≠ tid := by
      intro slot' entry hentry hid
      have hnot := List.find?_eq_none.mp hfind slot' (mem_slots slot')
      simp [hentry, hid] at hnot
    dsimp only at h
    split at h
    · rename_i slot hfree
      have hempty := List.find?_some hfree
      exact ⟨slot, (Option.some.inj h).symm, .inr ⟨by simpa using hempty, hnone⟩⟩
    · cases h

/-- What the scan does at one slot. -/
theorem Scan.slot_spec (now : Nat) (scan : Scan) (slot : Slot) :
    (scan.slot now slot).queue =
    update scan.queue slot ((scan.queue slot).filter fun entry => now < entry.wakeTick) ∧
    (∀ id, id ∈ (scan.slot now slot).wakeList ↔ id ∈ scan.wakeList ∨
      ∃ entry, scan.queue slot = some entry ∧ entry.wakeTick ≤ now ∧ entry.tid = id) ∧
    (scan.slot now slot).nextDeadline ≤ scan.nextDeadline ∧
    ∀ entry, scan.queue slot = some entry → now < entry.wakeTick →
      (scan.slot now slot).nextDeadline ≤ entry.wakeTick := by
  unfold Scan.slot
  cases hget : scan.queue slot with
  | none => simp [hget]
  | some entry =>
    by_cases hdue : entry.wakeTick ≤ now
    · simp [hdue, Nat.not_lt.mpr hdue, Option.filter_some, eq_comm]
    · simp [hdue, hget, Option.filter_some, Nat.lt_of_not_le hdue]

/-- **The loop of the scan**, over slots that it sees once: it takes out what is due, lists it, and the new
    deadline is not after any that is left. -/
theorem scan_ok (now : Nat) {slots : List Slot} (hnodup : slots.Nodup) (scan : Scan) :
    (∀ slot, (slots.foldl (Scan.slot now) scan).queue slot =
      if slot ∈ slots then (scan.queue slot).filter fun entry => now < entry.wakeTick else scan.queue slot) ∧
    (∀ id, id ∈ (slots.foldl (Scan.slot now) scan).wakeList ↔
      id ∈ scan.wakeList ∨ ∃ slot ∈ slots, ∃ entry, scan.queue slot = some entry ∧
        entry.wakeTick ≤ now ∧ entry.tid = id) ∧
    (slots.foldl (Scan.slot now) scan).nextDeadline ≤ scan.nextDeadline ∧
    ∀ slot ∈ slots, ∀ entry, scan.queue slot = some entry → now < entry.wakeTick →
      (slots.foldl (Scan.slot now) scan).nextDeadline ≤ entry.wakeTick := by
  induction slots generalizing scan with
  | nil => simp
  | cons first rest ih =>
    obtain ⟨hfirst, hrest⟩ := List.nodup_cons.mp hnodup
    obtain ⟨hqueue, hlist, hnext, hleft⟩ := ih hrest (Scan.slot now scan first)
    obtain ⟨hqueue₁, hlist₁, hnext₁, hleft₁⟩ := scan.slot_spec now first
    have hothers : ∀ slot ∈ rest, (Scan.slot now scan first).queue slot = scan.queue slot := by
      intro slot hin
      have hne : slot ≠ first := fun heq => hfirst (heq ▸ hin)
      rw [hqueue₁, update_of_ne hne]
    rw [List.foldl_cons]
    refine ⟨fun slot => ?_, fun id => ?_, hnext.trans hnext₁, ?_⟩
    · rw [hqueue slot, hqueue₁]
      by_cases hslot : slot = first
      · subst hslot
        rw [if_neg hfirst, if_pos List.mem_cons_self, update_self]
      · rw [update_of_ne hslot]
        simp only [List.mem_cons, hslot, false_or]
    · rw [hlist id, hlist₁, or_assoc, List.exists_mem_cons_iff]
      refine or_congr_right (or_congr_right (exists_congr fun slot => and_congr_right fun hin => ?_))
      rw [hothers slot hin]
    · rw [List.forall_mem_cons]
      refine ⟨fun entry hget hlater => hnext.trans (hleft₁ entry hget hlater), fun slot hin entry hget => ?_⟩
      exact hleft slot hin entry (by rw [hothers slot hin]; exact hget)

/-- **A scan takes out exactly the entries that are due.** -/
theorem wakeDueSleepersSlow_ok (q : SleepQueue) (now : Nat) :
    (∀ slot, (wakeDueSleepersSlow q now).queue slot = (q slot).filter fun entry => now < entry.wakeTick) ∧
    (∀ id, id ∈ (wakeDueSleepersSlow q now).wakeList ↔
      ∃ slot entry, q slot = some entry ∧ entry.wakeTick ≤ now ∧ entry.tid = id) ∧
    ∀ slot entry, (wakeDueSleepersSlow q now).queue slot = some entry →
      (wakeDueSleepersSlow q now).nextDeadline ≤ entry.wakeTick := by
  obtain ⟨hqueue, hlist, _, hleft⟩ := scan_ok now (List.nodup_finRange 64) ⟨q, [], noDeadline⟩
  have hall : ∀ slot : Slot, slot ∈ List.finRange 64 := List.mem_finRange
  refine ⟨fun slot => ?_, fun id => ?_, fun slot entry hget => ?_⟩
  · exact (hqueue slot).trans (if_pos (hall slot))
  · refine (hlist id).trans ⟨?_, ?_⟩
    · rintro (h0 | ⟨slot, _, h0⟩)
      · cases h0
      · exact ⟨slot, h0⟩
    · rintro ⟨slot, h0⟩
      exact .inr ⟨slot, hall slot, h0⟩
  · have hfilter := ((hqueue slot).trans (if_pos (hall slot))).symm.trans hget
    obtain ⟨hin, hlater⟩ := Option.filter_eq_some_iff.mp hfilter
    exact hleft slot (hall slot) entry hin (by simpa using hlater)

end Deadlines

/-! ## Who sleeps -/

/-- The thread is sleeping. -/
def Asleep (s : State ι κ) (id : ThreadId) : Prop :=
  ∃ slot t, s.queue.threads slot = some t ∧ t.id = id ∧ t.state = .sleeping

/-- A change of the thread queue that puts nobody to sleep. -/
structure Wakeful (q q' : ThreadQueue ι κ) : Prop where
  wf : q'.Wf
  asleep : ∀ slot t', q'.threads slot = some t' → t'.state = .sleeping → ∃ t, q.threads slot = some t ∧
    t.id = t'.id ∧ t.state = .sleeping

section Queue

variable {q q' : ThreadQueue ι κ} {g : Thread ι κ → Thread ι κ}

theorem wakeful_of_maps (hw : q'.Wf) (hmap : q.Maps q' g)
    (hg : ∀ t, (g t).id = t.id ∧ ((g t).state = .sleeping → t.state = .sleeping)) : Wakeful q q' := by
  refine ⟨hw, fun slot t' ht' hsleep => ?_⟩
  obtain ⟨t, ht, rfl⟩ := hmap.backward ht'
  exact ⟨t, ht, (hg t).1.symm, (hg t).2 hsleep⟩

theorem wakeful_only {id : ThreadId} (hw : q'.Wf) (hmap : q.Maps q' (only id g))
    (hg : ∀ t, (g t).id = t.id ∧ ((g t).state = .sleeping → t.state = .sleeping)) : Wakeful q q' := by
  refine wakeful_of_maps hw hmap fun t => ?_
  unfold only
  split
  · exact hg t
  · exact ⟨rfl, fun h => h⟩

theorem woken_awake (latch : Bool) (t : Thread ι κ) :
    (woken latch t).id = t.id ∧ (woken latch t).state ≠ .sleeping := by
  unfold woken
  cases hstate : t.state with
  | running =>
    dsimp only
    split
    · exact ⟨rfl, nofun⟩
    · exact ⟨rfl, by simp [hstate]⟩
  | ready => exact ⟨rfl, by simp⟩
  | terminated => exact ⟨rfl, by simp [hstate]⟩
  | sleeping | blocked => exact ⟨rfl, nofun⟩

/-- Other operations put no thread to sleep. -/
theorem wakeful_other (hw : q.Wf) (op : Other) : Wakeful q (op.apply q) := by
  cases op with
  | wake id latch =>
    exact wakeful_only ((kept_wakeWaiter q id latch).safe.wf hw) (wakeWaiter_maps hw id latch)
      fun t => ⟨(woken_awake latch t).1, fun h => absurd h (woken_awake latch t).2⟩
  | suspend pid =>
    exact wakeful_of_maps ((kept_suspendProcess q pid).safe.wf hw) (suspendProcess_maps q pid)
      fun t => ⟨(suspend_fields pid t).1, (suspend_fields pid t).2.1.symm.trans⟩
  | resume pid =>
    exact wakeful_of_maps ((kept_resumeProcess q pid).safe.wf hw) (resumeProcess_maps q pid)
      fun t => ⟨(resume_fields pid t).1, (resume_fields pid t).2.1.symm.trans⟩
  | hold pid owner =>
    exact wakeful_of_maps ((kept_holdImageSiblings q pid owner).safe.wf hw)
      (holdImageSiblings_maps q pid owner)
      fun t => ⟨(hold_fields pid owner t).1, (hold_fields pid owner t).2.1.symm.trans⟩
  | release id =>
    exact wakeful_only ((kept_releaseImageHold q id).safe.wf hw) (releaseImageHold_maps hw id) fun t =>
      ⟨rfl, fun h => h⟩

theorem requeued_awake (current : Option ThreadId) (t : Thread ι κ) : (requeued current t).id = t.id ∧
      ((requeued current t).state = .sleeping → t.state = .sleeping) := by
  unfold requeued
  split
  · exact ⟨rfl, nofun⟩
  · exact ⟨rfl, id⟩

/-- Nor does a selection. -/
theorem wakeful_select [DecidableEq ι] (hw : q.Wf) (c : ι) (current : Option ThreadId) :
    Wakeful q (q.selectNextThread c current).1 := by
  cases hsel : (q.selectNextThread c current).2 with
  | none =>
    exact wakeful_of_maps ((selectNextThread_none hsel).wf hw)
      (selectNextThread_none_maps hw hsel) (requeued_awake current)
  | some found =>
    obtain ⟨id, slot⟩ := found
    refine wakeful_of_maps (selectNextThread_some hw hsel).2 (selectNextThread_maps hw hsel).1 fun t => ?_
    unfold switched
    split
    · exact ⟨rfl, nofun⟩
    · exact requeued_awake current t

end Queue

section Invariants

variable {s s' : State ι κ} {id : ThreadId}

theorem Wakeful.of_asleep (h : Wakeful s.queue s'.queue) (hsleep : Asleep s' id) : Asleep s id := by
  obtain ⟨slot, t', ht', hid, hstate⟩ := hsleep
  obtain ⟨t, ht, hsame, hsleep⟩ := h.asleep slot t' ht' hstate
  exact ⟨slot, t, ht, hsame.trans hid, hsleep⟩

theorem queued_iff : queued s id = true ↔ ∃ slot entry, s.sleepers slot = some entry ∧ entry.tid = id := by
  simp only [queued, List.any_eq_true, Option.any_eq_true, decide_eq_true_eq]
  exact ⟨fun ⟨slot, _, entry, h⟩ => ⟨slot, entry, h⟩, fun ⟨slot, entry, h⟩ =>
    ⟨slot, mem_slots slot, entry, h⟩⟩

/-- The last interrupt that will not look at the queue any more. -/
def State.passed (s : State ι κ) : Nat :=
  match s.timer with
  | .waking now _ => now
  | _ => s.handled

/-- What the queue, the hint and the clock have to do with each other. -/
structure Book (s : State ι κ) : Prop where
  wf : s.queue.Wf
  unique : ∀ slot slot' entry entry', s.sleepers slot = some entry → s.sleepers slot' = some entry' →
    entry.tid = entry'.tid → slot = slot'
  hint : ∀ slot entry, s.sleepers slot = some entry → s.nextSleepDeadline ≤ entry.wakeTick
  /-- An entry that is due came after the last interrupt that looked. -/
  called : ∀ slot entry, s.sleepers slot = some entry →
    ∃ since, s.called entry.tid = some (entry.wakeTick, since) ∧
      (entry.wakeTick ≤ s.passed → s.passed ≤ since)
  listed : ∀ id ∈ s.timer.wakeList, ∀ deadline since, s.called id = some (deadline, since) →
    deadline ≤ s.handled →
    s.handled ≤ since
  clock : s.handled ≤ s.ticks ∧ ∀ now, (s.timer = .hint now ∨ s.timer = .scan now ∨
    ∃ l, s.timer = .waking now l) →
    now = s.ticks

/-- Who sleeps, or is about to, is queued or about to be woken. -/
def Watched (s : State ι κ) : Prop :=
  ∀ id, (Asleep s id ∧ s.called id ≠ none) ∨ (∃ deadline, s.prog id = .fallAsleep deadline) →
    queued s id = true ∨ id ∈ s.timer.wakeList

theorem Book.passed_le (h : Book s) : s.passed ≤ s.ticks := by
  unfold State.passed
  split
  · rename_i now l heq
    exact (h.clock.2 now (.inr (.inr ⟨l, heq⟩))).le
  · exact h.clock.1

theorem Book.handled_le (h : Book s) : s.handled ≤ s.passed := by
  unfold State.passed
  split
  · rename_i now l heq
    rw [h.clock.2 now (.inr (.inr ⟨l, heq⟩))]
    exact h.clock.1
  · exact Nat.le_refl _

theorem State.passed_eq {timer : Timer} (h : s.timer = timer) :
    s.passed = { s with timer := timer }.passed := by
  subst h
  rfl

theorem Book.called_of (h : Book s) {n : Nat} (hpassed : s.passed = n) (slot : Slot) (entry : SleepEntry)
    (hget : s.sleepers slot = some entry) :
    ∃ since, s.called entry.tid = some (entry.wakeTick, since) ∧ (entry.wakeTick ≤ n → n ≤ since) :=
  hpassed ▸ h.called slot entry hget

/-- A step that leaves the deadlines and the timer alone. -/
theorem Book.frame (h : Book s) (hw : s'.queue.Wf) (hsleepers : s'.sleepers = s.sleepers)
    (hhint : s'.nextSleepDeadline = s.nextSleepDeadline) (htimer : s'.timer = s.timer)
    (hticks : s'.ticks = s.ticks)
    (hcalled : s'.called = s.called) (hhandled : s'.handled = s.handled) : Book s' := by
  have hpassed : s'.passed = s.passed := by
    unfold State.passed
    rw [htimer, hhandled]
  refine ⟨hw, ?_, ?_, ?_, ?_, ?_⟩
  · rw [hsleepers]
    exact h.unique
  · rw [hsleepers, hhint]
    exact h.hint
  · rw [hsleepers, hcalled, hpassed]
    exact h.called
  · rw [htimer, hcalled, hhandled]
    exact h.listed
  · rw [hhandled, hticks, htimer]
    exact h.clock

theorem Watched.frame (h : Watched s) (hq : Wakeful s.queue s'.queue) (hsleepers : s'.sleepers = s.sleepers)
    (htimer : s'.timer = s.timer) (hcalled : s'.called = s.called)
    (hprog : ∀ id deadline, s'.prog id = .fallAsleep deadline → s.prog id = .fallAsleep deadline) :
    Watched s' := by
  intro id hrisk
  have hqueued : queued s' id = queued s id := by
    unfold queued
    rw [hsleepers]
  rw [hqueued, htimer]
  refine h id ?_
  rcases hrisk with ⟨hsleep, hne⟩ | ⟨deadline, hfall⟩
  · rw [hcalled] at hne
    exact .inl ⟨hq.of_asleep hsleep, hne⟩
  · exact .inr ⟨deadline, hprog id deadline hfall⟩

end Invariants

/-! ## Steps -/

section Steps

variable {s s' : State ι κ} {id : ThreadId}

/-- A step that touches neither the deadlines nor the timer, and after which nobody new is about to fall
    asleep. -/
structure Quiet (s s' : State ι κ) : Prop where
  queue : Wakeful s.queue s'.queue
  sleepers : s'.sleepers = s.sleepers
  hint : s'.nextSleepDeadline = s.nextSleepDeadline
  timer : s'.timer = s.timer
  ticks : s'.ticks = s.ticks
  called : s'.called = s.called
  handled : s'.handled = s.handled
  prog : ∀ id deadline, s'.prog id = .fallAsleep deadline → s.prog id = .fallAsleep deadline

theorem wakeful_refl (hw : s.queue.Wf) : Wakeful s.queue s.queue := ⟨hw, fun _ t ht h => ⟨t, ht, rfl, h⟩⟩

/-- A thread goes on to a place that is not right before its sleep. -/
theorem Quiet.setProg (h : Quiet s s') (id : ThreadId) {p : Prog}
    (hp : ∀ deadline, p ≠ .fallAsleep deadline) : Quiet s (s'.setProg id p) := by
  refine ⟨h.queue, h.sleepers, h.hint, h.timer, h.ticks, h.called, h.handled, fun k deadline hk => ?_⟩
  have hk : update s'.prog id p k = .fallAsleep deadline := hk
  rw [update_apply] at hk
  split at hk
  · exact absurd hk (hp deadline)
  · exact h.prog k deadline hk

theorem quiet_refl (hw : s.queue.Wf) : Quiet s s :=
  ⟨wakeful_refl hw, rfl, rfl, rfl, rfl, rfl, rfl, fun _ _ h => h⟩

/-- The state after a deadline was queued. -/
def registered (s : State ι κ) (id : ThreadId) (deadline : Nat) (sleepers : SleepQueue) : State ι κ :=
  { s with
    sleepers := sleepers
    nextSleepDeadline := min s.nextSleepDeadline deadline
    called := update s.called id (some (deadline, s.ticks)) }.setProg id (.fallAsleep deadline)

/-- The state after a thread fell asleep. -/
def slept (s : State ι κ) (id : ThreadId) (deadline : Nat) : State ι κ :=
  { s with queue := (s.queue.setState id .sleeping).1 }.setProg id (.waiting deadline)

section Register

variable {id : ThreadId} {deadline : Nat} {sleepers : SleepQueue}
  (hreg : registerSleepEntry s.sleepers id deadline = some sleepers)
include hreg

/-- An entry of after is the new one, or one of before that belongs to another thread. -/
theorem Book.register_entries (h : Book s) : ∃ slot, ∀ slot' entry, sleepers slot' = some entry →
    slot' = slot ∧ entry = ⟨id, deadline⟩ ∨ s.sleepers slot' = some entry ∧ entry.tid ≠ id := by
  obtain ⟨slot, rfl, hcase⟩ := register_cases hreg
  refine ⟨slot, fun slot' entry hget => ?_⟩
  rcases of_update_eq hget with ⟨rfl, ⟨⟩⟩ | ⟨hne, hget⟩
  · exact .inl ⟨rfl, rfl⟩
  refine .inr ⟨hget, fun hid => ?_⟩
  rcases hcase with ⟨old, hold, htid⟩ | ⟨_, hnone⟩
  · exact hne (h.unique slot' slot entry old hget hold (hid.trans htid.symm))
  · exact hnone slot' entry hget hid

/-- Queueing a deadline leaves the entries of the others. -/
theorem queued_register {k : ThreadId} (hk : k = id ∨ queued s k = true) :
    queued (registered s id deadline sleepers) k = true := by
  obtain ⟨slot, rfl, hcase⟩ := register_cases hreg
  by_cases hid : k = id
  · subst hid
    exact queued_iff.mpr ⟨slot, _, update_self _ _ _, rfl⟩
  · obtain ⟨slot', entry, hget, rfl⟩ := queued_iff.mp (hk.resolve_left hid)
    refine queued_iff.mpr ⟨slot', entry, ?_, rfl⟩
    have hne : slot' ≠ slot := by
      rintro rfl
      rcases hcase with ⟨old, hold, htid⟩ | ⟨hnone, _⟩
      · rw [hget] at hold
        cases hold
        exact hid htid
      · rw [hget] at hnone
        cases hnone
    exact (update_of_ne hne _ _).trans hget

theorem Book.register (h : Book s) : Book (registered s id deadline sleepers) := by
  obtain ⟨slot, hentries⟩ := h.register_entries hreg
  have hpassed : (registered s id deadline sleepers).passed = s.passed := rfl
  refine ⟨h.wf, ?_, ?_, ?_, ?_, h.clock⟩
  · intro i j a b ha hb hab
    rcases hentries i a ha with ⟨rfl, rfl⟩ | ⟨ha, hne⟩
    · rcases hentries j b hb with ⟨rfl, _⟩ | ⟨_, hne⟩
      · rfl
      · exact absurd hab.symm hne
    · rcases hentries j b hb with ⟨rfl, rfl⟩ | ⟨hb, _⟩
      · exact absurd hab hne
      · exact h.unique i j a b ha hb hab
  · intro i entry hget
    rcases hentries i entry hget with ⟨rfl, rfl⟩ | ⟨hget, _⟩
    · exact Nat.min_le_right _ _
    · exact (Nat.min_le_left _ _).trans (h.hint i entry hget)
  · intro i entry hget
    rw [hpassed]
    rcases hentries i entry hget with ⟨rfl, rfl⟩ | ⟨hget, hne⟩
    · exact ⟨s.ticks, update_self _ _ _, fun _ => h.passed_le⟩
    · obtain ⟨since, hcalled, hle⟩ := h.called i entry hget
      exact ⟨since, (update_of_ne hne _ _).trans hcalled, hle⟩
  · intro k hk d since hcalled hle
    rcases of_update_eq hcalled with ⟨-, ⟨⟩⟩ | ⟨-, hcalled⟩
    · exact h.clock.1
    · exact h.listed k hk d since hcalled hle

theorem Watched.register (h : Watched s) : Watched (registered s id deadline sleepers) := by
  intro k hrisk
  by_cases hk : k = id
  · exact .inl (queued_register hreg (.inl hk))
  · refine (h k ?_).imp_left fun hq => queued_register hreg (.inr hq)
    rcases hrisk with ⟨hsleep, hne⟩ | ⟨d, hfall⟩
    · exact .inl ⟨hsleep, fun h0 => hne ((update_of_ne hk _ _).trans h0)⟩
    · exact .inr ⟨d, (update_of_ne hk _ _).symm.trans hfall⟩

end Register

/-- The steps of the interrupt. -/
theorem Book.interrupt (h : Book s) (hs : handle s = some s') : Book s' := by
  unfold handle at hs
  split at hs
  · cases hs
  · rename_i now htimer
    have hnow : now = s.ticks := h.clock.2 now (.inl htimer)
    split at hs
    · cases hs
      refine ⟨h.wf, h.unique, h.hint, h.called_of (n := s.handled) (s.passed_eq htimer), nofun, h.clock.1, ?_⟩
      rintro n (h0 | h0 | ⟨_, h0⟩) <;> cases h0
      exact hnow
    · rename_i hlater
      cases hs
      refine ⟨h.wf, h.unique, h.hint, ?_, nofun, hnow.le, ?_⟩
      · -- the hint says that nothing is due
        intro slot entry hget
        obtain ⟨since, hcalled, _⟩ := h.called slot entry hget
        refine ⟨since, hcalled, fun hdue => absurd hdue ?_⟩
        have hhint := h.hint slot entry hget
        show ¬ entry.wakeTick ≤ now
        omega
      · rintro n (h0 | h0 | ⟨_, h0⟩) <;> cases h0
  · rename_i now htimer
    have hnow : now = s.ticks := h.clock.2 now (.inr (.inl htimer))
    obtain ⟨hqueue, hlist, hnext⟩ := wakeDueSleepersSlow_ok s.sleepers now
    cases hs
    have hold : ∀ slot entry, (wakeDueSleepersSlow s.sleepers now).queue slot = some entry →
        s.sleepers slot = some entry ∧ now < entry.wakeTick := by
      intro slot entry hget
      rw [hqueue slot] at hget
      obtain ⟨hget, hlater⟩ := Option.filter_eq_some_iff.mp hget
      exact ⟨hget, of_decide_eq_true hlater⟩
    refine ⟨h.wf, ?_, hnext, ?_, ?_, h.clock.1, ?_⟩
    · intro i j a b ha hb
      exact h.unique i j a b (hold i a ha).1 (hold j b hb).1
    · intro slot entry hget
      obtain ⟨hget, hlater⟩ := hold slot entry hget
      obtain ⟨since, hcalled, _⟩ := h.called slot entry hget
      exact ⟨since, hcalled, fun hdue => absurd hdue (Nat.not_le.mpr hlater)⟩
    · intro id hid deadline since hcalled hle
      obtain ⟨slot, entry, hget, _, rfl⟩ := (hlist id).mp hid
      obtain ⟨since', hcalled', hsince⟩ := h.called_of (s.passed_eq htimer) slot entry hget
      cases hcalled.symm.trans hcalled'
      exact hsince hle
    · rintro n (h0 | h0 | ⟨_, h0⟩) <;> cases h0
      exact hnow
  · rename_i now htimer
    have hnow : now = s.ticks := h.clock.2 now (.inr (.inr ⟨[], htimer⟩))
    cases hs
    refine ⟨h.wf, h.unique, h.hint, h.called_of (s.passed_eq htimer), nofun, hnow.le, ?_⟩
    rintro n (h0 | h0 | ⟨_, h0⟩) <;> cases h0
  · rename_i now id rest htimer
    cases hs
    refine ⟨(kept_wakeWaiter s.queue id true).safe.wf h.wf, h.unique, h.hint,
      h.called_of (s.passed_eq htimer), ?_, h.clock.1, ?_⟩
    · intro k hk
      refine h.listed k ?_
      rw [htimer]
      exact List.mem_cons_of_mem _ hk
    · rintro n (h0 | h0 | ⟨_, h0⟩) <;> cases h0
      exact h.clock.2 now (.inr (.inr ⟨_, htimer⟩))

/-- A thread that falls asleep was watched before. -/
theorem Watched.fallAsleep (h : Watched s) (hw : s.queue.Wf) {deadline : Nat}
    (hprog : s.prog id = .fallAsleep deadline) :
    Watched (slept s id deadline) := by
  intro k hrisk
  refine h k ?_
  by_cases hk : k = id
  · subst hk
    exact .inr ⟨deadline, hprog⟩
  · rcases hrisk with ⟨⟨slot, t', ht', hid, hstate⟩, hne⟩ | ⟨d, hfall⟩
    · refine .inl ⟨?_, hne⟩
      obtain ⟨t, ht, rfl⟩ := (setState_maps hw id .sleeping).backward ht'
      unfold only at hid hstate
      split at hid
      · rename_i htid
        refine absurd (hid.symm.trans ?_) hk
        unfold withState
        split <;> exact htid
      · rename_i htid
        rw [if_neg htid] at hstate
        exact ⟨slot, t, ht, hid, hstate⟩
    · exact .inr ⟨d, (update_of_ne hk _ _).symm.trans hfall⟩

theorem Watched.interrupt (h : Watched s) (hw : s.queue.Wf) (hok : prompt s (.timer : Label ι) = true)
    (hs : handle s = some s') : Watched s' := by
  unfold handle at hs
  split at hs
  · cases hs
  · rename_i now htimer
    have hlist : s.timer.wakeList = [] := by
      rw [htimer]
      rfl
    split at hs <;> cases hs
    · intro k hrisk
      have hold := h k hrisk
      rw [hlist] at hold
      exact hold
    · intro k hrisk
      have hold := h k hrisk
      rw [hlist] at hold
      exact hold
  · rename_i now htimer
    obtain ⟨hqueue, hwake, _⟩ := wakeDueSleepersSlow_ok s.sleepers now
    cases hs
    intro k hrisk
    rcases h k hrisk with hq | hin
    · -- an entry that is due is on the list now
      obtain ⟨slot, entry, hget, rfl⟩ := queued_iff.mp hq
      by_cases hdue : entry.wakeTick ≤ now
      · exact .inr ((hwake entry.tid).mpr ⟨slot, entry, hget, hdue, rfl⟩)
      · refine .inl (queued_iff.mpr ⟨slot, entry, ?_, rfl⟩)
        show (wakeDueSleepersSlow s.sleepers now).queue slot = some entry
        rw [hqueue slot, hget, Option.filter_some, if_pos (by simpa using hdue)]
    · rw [htimer] at hin
      cases hin
  · rename_i now htimer
    cases hs
    intro k hrisk
    have hold := h k hrisk
    rw [htimer] at hold
    exact hold
  · rename_i now id rest htimer
    have hok : ∀ deadline, s.prog id = .fallAsleep deadline → queued s id = true := by
      intro deadline hprog
      simpa [prompt, htimer, hprog] using hok
    cases hs
    have hmap := wakeWaiter_maps hw id true
    have hwakeful : Wakeful s.queue (s.queue.wakeWaiter id true) := wakeful_other hw (.wake id true)
    intro k hrisk
    by_cases hk : k = id
    · subst hk
      rcases hrisk with ⟨⟨slot, t', ht', hid, hstate⟩, _⟩ | ⟨deadline, hfall⟩
      · -- it is awake now
        obtain ⟨t, ht, rfl⟩ := hmap.backward ht'
        unfold only at hid hstate
        split at hid
        · rename_i htid
          rw [if_pos htid] at hstate
          exact absurd hstate (woken_awake true t).2
        · rename_i htid
          exact absurd hid htid
      · exact .inl (hok deadline hfall)
    · have hrisk' : (Asleep s k ∧ s.called k ≠ none) ∨ ∃ deadline, s.prog k = .fallAsleep deadline := by
        refine hrisk.imp_left fun ⟨hsleep, hne⟩ => ⟨?_, hne⟩
        exact Wakeful.of_asleep (s := s) hwakeful hsleep
      refine (h k hrisk').imp_right fun hin => ?_
      rw [htimer] at hin
      exact (List.mem_cons.mp hin).resolve_left hk

variable [DecidableEq ι] {clock : ι} {l : Label ι}

theorem quiet_select (hw : s.queue.Wf) (c : ι) : Quiet s (select s c) := by
  have hq := wakeful_select hw c (s.cpu c)
  unfold select
  split
  · rename_i queue heq
    rw [heq] at hq
    exact ⟨hq, rfl, rfl, rfl, rfl, rfl, rfl, fun _ _ h => h⟩
  · rename_i queue id slot heq
    rw [heq] at hq
    exact ⟨hq, rfl, rfl, rfl, rfl, rfl, rfl, fun _ _ h => h⟩

/-- **What a step of a thread can do.** -/
theorem own_cases (hw : s.queue.Wf) {c : ι} (h : own s c id = some s') : Quiet s s' ∨
    (∃ deadline sleepers, registerSleepEntry s.sleepers id deadline = some sleepers ∧
      s' = registered s id deadline sleepers) ∨
    ∃ deadline, s.prog id = .fallAsleep deadline ∧ s' = slept s id deadline := by
  have hsame := quiet_refl hw
  unfold own at h
  split at h
  · cases h
  · cases h
    refine .inl (hsame.setProg id fun deadline => ?_)
    split <;> exact nofun
  · rename_i deadline _
    split at h
    · cases h
      exact .inl (hsame.setProg id nofun)
    · rename_i sleepers hreg
      cases h
      exact .inr (.inl ⟨deadline, sleepers, hreg, rfl⟩)
  · rename_i deadline hprog
    cases h
    exact .inr (.inr ⟨deadline, hprog, rfl⟩)
  · cases h
    refine .inl (hsame.setProg id fun deadline => ?_)
    split <;> exact nofun
  · cases h
    exact .inl ((quiet_select hw c).setProg id nofun)

/-- **What a step can do.** -/
theorem step_cases (hw : s.queue.Wf) (h : step clock s l = some s') : Quiet s s' ∨
    (∃ id deadline sleepers, registerSleepEntry s.sleepers id deadline = some sleepers ∧
      s' = registered s id deadline sleepers) ∨
    (∃ id deadline, s.prog id = .fallAsleep deadline ∧ s' = slept s id deadline) ∨
    (s.timer = .idle ∧ s' = { s with ticks := s.ticks + 1, timer := .hint (s.ticks + 1) }) ∨
    l = .timer ∧ handle s = some s' := by
  cases l with simp only [step] at h
  | call c deadline =>
    split at h
    · cases h
    split at h
    · cases h
      exact .inl ((quiet_refl hw).setProg _ nofun)
    · cases h
  | own c =>
    split at h
    · cases h
    rename_i id _
    split at h
    · rcases own_cases hw h with h0 | ⟨deadline, sleepers, h0⟩ | ⟨deadline, h0⟩
      · exact .inl h0
      · exact .inr (.inl ⟨id, deadline, sleepers, h0⟩)
      · exact .inr (.inr (.inl ⟨id, deadline, h0⟩))
    · cases h
  | tick =>
    split at h
    · rename_i hint
      cases h
      refine .inr (.inr (.inr (.inl ⟨?_, rfl⟩)))
      simp only [interruptible, free, Bool.and_eq_true, ne_eq, not_true_eq_false, decide_false, Bool.false_or,
        decide_eq_true_eq] at hint
      exact hint.1
    · cases h
  | timer => exact .inr (.inr (.inr (.inr ⟨rfl, h⟩)))
  | preempt c =>
    split at h
    · cases h
      exact .inl (quiet_select hw c)
    · cases h
  | other op =>
    cases h
    exact .inl ⟨wakeful_other hw op, rfl, rfl, rfl, rfl, rfl, rfl, fun _ _ h0 => h0⟩

/-- **Every step keeps the books.** -/
theorem Book.step (h : Book s) (hs : step clock s l = some s') : Book s' := by
  rcases step_cases h.wf hs with hq | ⟨id, deadline, sleepers, hreg, rfl⟩ | ⟨id, deadline, _, rfl⟩
    | ⟨hidle, rfl⟩ | ⟨_, hs⟩
  · exact h.frame hq.queue.wf hq.sleepers hq.hint hq.timer hq.ticks hq.called hq.handled
  · exact h.register hreg
  · exact h.frame ((kept_setState s.queue id .sleeping).safe.wf h.wf) rfl rfl rfl rfl rfl rfl
  · refine ⟨h.wf, h.unique, h.hint, h.called_of (s.passed_eq hidle), nofun, Nat.le_succ_of_le h.clock.1, ?_⟩
    rintro n (h0 | h0 | ⟨_, h0⟩) <;> cases h0
    rfl
  · exact h.interrupt hs

/-- **A prompt step misses no deadline.** -/
theorem Watched.step (h : Watched s) (hb : Book s) (hok : prompt s l = true) (hs : step clock s l = some s') :
    Watched s' := by
  rcases step_cases hb.wf hs with hq | ⟨id, deadline, sleepers, hreg, rfl⟩
    | ⟨id, deadline, hprog, rfl⟩ | ⟨hidle, rfl⟩ | ⟨rfl, hs⟩
  · exact h.frame hq.queue hq.sleepers hq.timer hq.called hq.prog
  · exact h.register hreg
  · exact h.fallAsleep hb.wf hprog
  · intro k hrisk
    have hold := h k hrisk
    rw [hidle] at hold
    exact hold
  · exact h.interrupt hb.wf hok hs

end Steps

/-! ## Results -/

section Results

variable {s : State ι κ}

theorem book_start (h : Start s) : Book s := by
  have hnone : ∀ slot entry, s.sleepers slot ≠ some entry := fun slot entry h0 =>
    nomatch (h.empty slot).symm.trans h0
  refine ⟨h.wf, fun slot _ entry _ h0 => absurd h0 (hnone slot entry),
    fun slot entry h0 => absurd h0 (hnone slot entry),
    fun slot entry h0 => absurd h0 (hnone slot entry), ?_, h.handled, ?_⟩
  · rw [h.timer]
    exact nofun
  · rw [h.timer]
    rintro n (h0 | h0 | ⟨_, h0⟩) <;> cases h0

theorem watched_start (h : Start s) : Watched s := by
  rintro k (⟨_, hne⟩ | ⟨deadline, hfall⟩)
  · exact absurd (h.called k) hne
  rw [h.user k] at hfall
  cases hfall

/-- Each `wake_due_sleepers(now)` removes exactly the queued entries with a deadline of at most `now`. -/
structure Exact (s : State ι κ) : Prop where
  /-- If it leaves at the hint, there are none. -/
  skipped : ∀ now, s.timer = .hint now → now < s.nextSleepDeadline →
    ∀ slot entry, s.sleepers slot = some entry →
    now < entry.wakeTick
  /-- If it scans, it takes them out and lists their threads. -/
  removed : ∀ now, s.timer = .scan now → ∃ wakeList, (handle s).map (fun s' => (s'.timer, s'.sleepers)) =
      some (.waking now wakeList, fun slot => (s.sleepers slot).filter fun entry => now < entry.wakeTick) ∧
    ∀ id, id ∈ wakeList ↔ ∃ slot entry, s.sleepers slot = some entry ∧ entry.wakeTick ≤ now ∧ entry.tid = id
  /-- Its other steps leave the queue. -/
  kept : ∀ s', handle s = some s' → (∀ now, s.timer ≠ .scan now) → s'.sleepers = s.sleepers

/-- No deadline in the queue is before the hint. -/
def Hinted (s : State ι κ) : Prop := ∀ slot entry, s.sleepers slot = some entry →
    s.nextSleepDeadline ≤ entry.wakeTick

/-- A thread whose deadline has come, and after whose call an interrupt was handled that found it so, does not
    sleep. -/
def Awakened (s : State ι κ) : Prop :=
  ∀ id deadline since, s.called id = some (deadline, since) → deadline ≤ s.handled →
    since < s.handled → ¬ Asleep s id

theorem Book.exact (h : Book s) : Exact s := by
  refine ⟨?_, ?_, ?_⟩
  · intro now _ hlater slot entry hget
    exact hlater.trans_le (h.hint slot entry hget)
  · intro now htimer
    obtain ⟨hqueue, hlist, _⟩ := wakeDueSleepersSlow_ok s.sleepers now
    refine ⟨(wakeDueSleepersSlow s.sleepers now).wakeList, ?_, hlist⟩
    rw [handle, htimer, Option.map_some, ← funext hqueue]
  · intro s' hs hnot
    unfold handle at hs
    split at hs
    · cases hs
    · split at hs <;> cases hs <;> rfl
    · rename_i now htimer
      exact absurd htimer (hnot now)
    · cases hs
      rfl
    cases hs
    rfl

theorem awakened_of_watched (hb : Book s) (hw : Watched s) : Awakened s := by
  intro id deadline since hcalled hdue hlater hsleep
  have hle := hb.handled_le
  rcases hw id (.inl ⟨hsleep, by rw [hcalled]; exact nofun⟩) with hq | hin
  · obtain ⟨slot, entry, hget, rfl⟩ := queued_iff.mp hq
    obtain ⟨since', hcalled', hsince⟩ := hb.called slot entry hget
    cases hcalled.symm.trans hcalled'
    have hpassed := hsince (hdue.trans hle)
    omega
  · have hsince := hb.listed id hin deadline since hcalled hdue
    omega

variable [DecidableEq ι] {clock : ι}

theorem book_reachable (h : (machine clock).Reachable s) : Book s :=
  System.Reach.invariant (fun _ => book_start) (fun _ _ _ hb _ hs => hb.step hs) h

theorem watched_reach (h : (machine clock).Reach (fun s l => prompt s l = true) s) : Book s ∧ Watched s :=
  System.Reach.invariant (I := fun s => Book s ∧ Watched s) (fun _ h0 => ⟨book_start h0, watched_start h0⟩)
    (fun _ _ _ hI hok hs => ⟨hI.1.step hs, hI.2.step hI.1 hok hs⟩) h

/-- **Deadlines are met**, if no thread is woken between the queueing of its deadline and its sleep. Whatever
    the interleaving, the hint is right, and an interrupt takes out exactly what is due. -/
theorem sleep_until_wakes : (∀ s : State ι κ, (machine clock).Reachable s → Exact s ∧ Hinted s) ∧
      ∀ s : State ι κ, (machine clock).Reach (fun s l => prompt s l = true) s → Awakened s := by
  refine ⟨fun s h => ?_, fun s h => ?_⟩
  · have hb := book_reachable h
    exact ⟨hb.exact, hb.hint⟩
  · obtain ⟨hb, hw⟩ := watched_reach h
    exact awakened_of_watched hb hw

end Results

/-! ## Two CPUs -/

/-- Thread 2 runs on the CPU of the clock, thread 3 on the other one. -/
def twoRunning : State Bool Unit where
  queue := Sleep.twoThreads.queue
  cpu := Sleep.twoThreads.cpu
  prog _ := .user
  ticks := 0
  sleepers _ := none
  nextSleepDeadline := noDeadline
  timer := .idle
  called _ := none
  handled := 0

theorem start_twoRunning : Start twoRunning :=
  ⟨Sleep.start_twoThreads.wf, fun _ => rfl, fun _ => rfl, rfl, fun _ => rfl, Nat.le_refl 0⟩

/-- Thread 3 sleeps until the first tick, off its CPU, and is selected again. -/
def sleepsOnce : List (Label Bool) :=
  List.flatten [[.call true 1], List.replicate 5 (.own true), [.tick], List.replicate 4 .timer,
    [.preempt true, .own true]]

/-- A thread sleeps until tick 1, and runs again. -/
theorem sleep_until_wakes_once :
    ∃ s : State Bool Unit, (machine false).Reach (fun s l => prompt s l = true) s ∧
    s.called 3 = some (1, 0) ∧ s.handled = 1 ∧ s.cpu true = some 3 ∧ s.prog 3 = .user ∧
      Exact s ∧ Hinted s ∧ Awakened s := by
  obtain ⟨s, hs, hcalled, hhandled, hcpu, hprog⟩ := System.reach_of_exec
    (machine false) prompt twoRunning sleepsOnce
    (fun s => s.called 3 = some (1, 0) ∧ s.handled = 1 ∧ s.cpu true = some 3 ∧ s.prog 3 = .user)
    start_twoRunning (by decide +kernel)
  obtain ⟨hexact, hhinted⟩ := sleep_until_wakes.1 s hs.reachable
  exact ⟨s, hs, hcalled, hhandled, hcpu, hprog, hexact, hhinted, sleep_until_wakes.2 s hs⟩

/-- Thread 3 reads a tick count of 0 and queues the deadline 1. The clock ticks on the other CPU, takes the
    entry out and wakes thread 3, which still runs. Then it makes itself sleeping and returns, because the
    deadline has come. It loses its CPU when its time is up, and the clock ticks once more. -/
def wokenTooEarly : List (Label Bool) :=
  [.call true 1, .own true, .own true, .tick, .timer, .timer, .timer, .timer,
    .own true, .own true, .preempt true, .tick, .timer]

/-- **A thread can miss its wakeup**: its deadline has come, a later interrupt was handled, and it sleeps, off
    its CPU and without an entry in the queue, while no interrupt is being handled. -/
theorem sleep_until_misses : ∃ s : State Bool Unit, (machine false).Reachable s ∧
    s.called 3 = some (1, 0) ∧ s.ticks = 2 ∧ s.handled = 2 ∧ s.timer = .idle ∧ s.prog 3 = .user ∧
    (s.queue.get 3).map (fun t => (t.state, t.pendingWakeup)) = some (.sleeping, true) ∧
    (∀ c, s.cpu c ≠ some 3) ∧ queued s 3 = false := by
  exact System.reachable_of_exec (machine false) twoRunning wokenTooEarly _ start_twoRunning
    (by decide +kernel)

end Mnu.Syscall.SleepUntil
