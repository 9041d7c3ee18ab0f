import Mathlib.Tactic

/-!
# `Mnu.Task.Queue` — the thread queue

Model of `ThreadQueue` and of the queue part of `select_next_thread` (`src/task/thread.rs`,
`src/task/scheduler.rs`). Each function here is the body of one critical section on `THREAD_QUEUE`, so
to the rest of the kernel it is one atomic step.

The queue is a table of 64 slots with a bitmap of the slots that may be selected. The CPU numbers and
the saved contexts are parameters: the queue compares the former and only carries the latter around.

Every operation but five (selection, push, removal, saving and loading a context) leaves the identity of
the threads alone: which slot holds which thread, with which affinity, stack and context. `Tame` is that
statement, and it is what the later invariants are proved from.
-/

namespace Mnu.Task

open Function

/-- The name of a thread. -/
abbrev ThreadId := Nat
/-- The name of a process. -/
abbrev ProcessId := Nat

/-- `ThreadState`. -/
inductive ThreadState where
  | ready
  | running
  | blocked
  | sleeping
  | terminated
  deriving DecidableEq

/-- Where a kernel stack comes from: one of the 64 slots of the arena, or elsewhere (the static stack of
    the core thread), which the stack allocator does not manage. -/
inductive StackBase where
  | outside
  | slot (index : Fin 64)
  deriving DecidableEq

/-- The fields of `Thread` that scheduling, waiting and retirement read. -/
structure Thread (ι κ : Type) where
  id : ThreadId
  processId : ProcessId
  processObject : Bool
  state : ThreadState
  schedulingSuspended : Bool
  imageHeld : Bool
  cpuAffinity : Option ι
  context : κ
  kernelStack : StackBase
  pendingWakeup : Bool

namespace Thread

variable {ι κ : Type}

/-- Held back from selection. -/
def isSchedulingSuspended (t : Thread ι κ) : Bool := t.schedulingSuspended || t.imageHeld

/-- What the ready bitmap records. -/
def selectable (t : Thread ι κ) : Bool := t.state = .ready && !t.isSchedulingSuspended

/-- `Thread::suspend`: the flag, and whether it changed. -/
def suspend (t : Thread ι κ) : Option (Thread ι κ) :=
  if t.schedulingSuspended || t.state = .terminated then none
  else some { t with schedulingSuspended := true }

/-- `Thread::resume`. -/
def resume (t : Thread ι κ) : Option (Thread ι κ) :=
  if t.schedulingSuspended then some { t with schedulingSuspended := false } else none

end Thread

/-- `ThreadQueue::MAX_THREADS` slots. -/
abbrev Slot := Fin 64

instance neZero_slots : NeZero 64 := ⟨by decide⟩

/-- Threads in slots, and the bits of those that are ready. -/
structure ThreadQueue (ι κ : Type) where
  threads : Slot → Option (Thread ι κ)
  readyBitmap : Slot → Bool
  rrCursor : Slot
  count : Nat

/-- What `push` reads from the process table. -/
structure ProcessView where
  acceptsThreads : Bool
  maxThreads : Nat

namespace ThreadQueue

variable {ι κ : Type}

/-- `new`. -/
def new : ThreadQueue ι κ := ⟨fun _ => none, fun _ => false, 0, 0⟩

/-- All slots in order. -/
def slots : List Slot := List.finRange 64

/-- `slot_index`. -/
def slotIndex (q : ThreadQueue ι κ) (id : ThreadId) : Option Slot :=
  slots.find? fun slot => (q.threads slot).any fun t => t.id = id

/-- `get`. -/
def get (q : ThreadQueue ι κ) (id : ThreadId) : Option (Thread ι κ) :=
  (q.slotIndex id).bind q.threads

/-- Overwrite the thread in a slot, leaving the bitmap. -/
def put (q : ThreadQueue ι κ) (slot : Slot) (t : Thread ι κ) : ThreadQueue ι κ :=
  { q with threads := update q.threads slot (some t) }

/-- Set or clear the ready bit of a slot. -/
def setBit (q : ThreadQueue ι κ) (slot : Slot) (b : Bool) : ThreadQueue ι κ :=
  { q with readyBitmap := update q.readyBitmap slot b }

/-- Threads of one process. -/
def countOf (q : ThreadQueue ι κ) (pid : ProcessId) : Nat :=
  (slots.filter fun slot => (q.threads slot).any fun t => t.processId = pid).length

/-- `push`; the process table answers with `view`, or the process is unknown. `none` is a refusal. -/
def push (q : ThreadQueue ι κ) (view : Option ProcessView) (thread : Thread ι κ) :
    Option (ThreadQueue ι κ) :=
  if 64 ≤ q.count then none
  else if view.any fun v => !v.acceptsThreads || v.maxThreads ≤ q.countOf thread.processId then none
  else
    match slots.find? fun slot => (q.threads slot).isNone with
    | none => none
    | some slot =>
      some
        { threads := update q.threads slot
            (some { thread with processObject := thread.processObject || view.isSome })
          readyBitmap :=
            if thread.selectable then update q.readyBitmap slot true else q.readyBitmap
          rrCursor := if q.count = 0 then slot else q.rrCursor
          count := q.count + 1 }

/-- `remove`. -/
def remove (q : ThreadQueue ι κ) (id : ThreadId) : ThreadQueue ι κ × Option (Thread ι κ) :=
  match q.slotIndex id with
  | none => (q, none)
  | some slot =>
    ({ q with
        threads := update q.threads slot none
        readyBitmap := update q.readyBitmap slot false
        count := q.count - 1 },
      q.threads slot)

/-- `set_state_at_slot`: a terminated thread stays terminated. -/
def setStateAtSlot (q : ThreadQueue ι κ) (slot : Slot) (state : ThreadState) :
    ThreadQueue ι κ × Bool :=
  match q.threads slot with
  | none => (q, false)
  | some t =>
    if t.state = .terminated ∧ state ≠ .terminated then (q, false)
    else ((q.put slot { t with state := state }).setBit slot
      ({ t with state := state } : Thread ι κ).selectable, true)

/-- `set_state`. -/
def setState (q : ThreadQueue ι κ) (id : ThreadId) (state : ThreadState) : ThreadQueue ι κ × Bool :=
  match q.slotIndex id with
  | none => (q, false)
  | some slot => q.setStateAtSlot slot state

/-- The slots in the order a round-robin scan from `start` visits them. -/
def scanFrom (start : Slot) : List Slot := slots.map fun offset => start + offset

/-- `next_ready_slot_for_cpu_after`: the queue with its cursor moved, and the slot found. -/
def nextReadySlotForCpuAfter [DecidableEq ι] (q : ThreadQueue ι κ) (current : Option Slot) (cpu : ι) :
    Option (ThreadQueue ι κ × Slot) :=
  let start := match current with
    | some slot => slot + 1
    | none => q.rrCursor
  match (scanFrom start).find? fun slot =>
      q.readyBitmap slot && (q.threads slot).any fun t => t.cpuAffinity.all fun owner => owner = cpu with
  | none => none
  | some slot => some ({ q with rrCursor := slot + 1 }, slot)

/-- The first thing `select_next_thread` does: the current thread, if running, becomes ready again. -/
def requeueCurrent (q : ThreadQueue ι κ) (current : Option Slot) : ThreadQueue ι κ :=
  match current with
  | none => q
  | some slot =>
    if (q.threads slot).any fun t => t.state = .running then (q.setStateAtSlot slot .ready).1 else q

/-- The critical section of `select_next_thread` on `cpu`. The thread that is found is claimed by the
    CPU if no CPU owned it, and marked running. -/
def selectNextThread [DecidableEq ι] (q : ThreadQueue ι κ) (cpu : ι) (current : Option ThreadId) :
    ThreadQueue ι κ × Option (ThreadId × Slot) :=
  let currentSlot := current.bind q.slotIndex
  let requeued := q.requeueCurrent currentSlot
  match requeued.nextReadySlotForCpuAfter currentSlot cpu with
  | none => (requeued, none)
  | some (scanned, slot) =>
    match scanned.threads slot with
    | none => (scanned, none)
    | some t =>
      let claimed := scanned.put slot { t with cpuAffinity := t.cpuAffinity.or (some cpu) }
      ((claimed.setStateAtSlot slot .running).1, some (t.id, slot))

/-- `get_mut`: act on the thread with this id, if it is in the queue. -/
def onThread (q : ThreadQueue ι κ) (id : ThreadId)
    (f : Slot → Thread ι κ → ThreadQueue ι κ) : ThreadQueue ι κ :=
  match q.slotIndex id with
  | none => q
  | some slot =>
    match q.threads slot with
    | none => q
    | some t => f slot t

/-- `wake_waiter`. -/
def wakeWaiter (q : ThreadQueue ι κ) (id : ThreadId) (latchRunning : Bool) : ThreadQueue ι κ :=
  q.onThread id fun slot t =>
    match t.state with
    | .sleeping | .blocked => (q.setStateAtSlot slot .ready).1
    | .ready => q.put slot { t with pendingWakeup := true }
    | .running => if latchRunning then q.put slot { t with pendingWakeup := true } else q
    | .terminated => q

/-- `take_pending_wakeup` under `with_thread_mut`: the queue, and the latch it held. -/
def takePendingWakeup (q : ThreadQueue ι κ) (id : ThreadId) : ThreadQueue ι κ × Bool :=
  (q.onThread id fun slot t => q.put slot { t with pendingWakeup := false },
    (q.get id).any fun t => t.pendingWakeup)

/-- Rewrite every thread for which `change` has an answer, setting its ready bit to `bit`. -/
def changeAll (q : ThreadQueue ι κ) (change : Thread ι κ → Option (Thread ι κ))
    (bit : Thread ι κ → Bool → Bool) : ThreadQueue ι κ :=
  { q with
    threads := fun slot => (q.threads slot).map fun t => (change t).getD t
    readyBitmap := fun slot =>
      match (q.threads slot).bind change with
      | none => q.readyBitmap slot
      | some t => bit t (q.readyBitmap slot) }

/-- `suspend_process`. -/
def suspendProcess (q : ThreadQueue ι κ) (pid : ProcessId) : ThreadQueue ι κ :=
  q.changeAll (fun t => if t.processId = pid then t.suspend else none) (fun _ _ => false)

/-- `resume_process`. -/
def resumeProcess (q : ThreadQueue ι κ) (pid : ProcessId) : ThreadQueue ι κ :=
  q.changeAll (fun t => if t.processId = pid then t.resume else none) (fun t b => t.selectable || b)

/-- `hold_image_siblings`. -/
def holdImageSiblings (q : ThreadQueue ι κ) (pid : ProcessId) (owner : ThreadId) : ThreadQueue ι κ :=
  q.changeAll
    (fun t => if t.processId = pid ∧ t.id ≠ owner then some { t with imageHeld := true } else none)
    (fun _ _ => false)

/-- `release_image_hold`. -/
def releaseImageHold (q : ThreadQueue ι κ) (id : ThreadId) : ThreadQueue ι κ :=
  q.onThread id fun slot t =>
    let released : Thread ι κ := { t with imageHeld := false }
    if released.selectable then (q.put slot released).setBit slot true else q.put slot released

end ThreadQueue

end Mnu.Task
