import Mnu.Task.SleepWatch

/-!
# `Mnu.Syscall.Pipe` — readers and writers of one pipe

`read_pipe`, `write_pipe` and `close_pipe_endpoint_from_kernel` of `src/syscall/fs.rs` over the sleep protocol
of `Mnu.Task.Sleep`. A step is one critical section of the pipe table, one check outside of it, or one wakeup.

A reader looks at the pipe, lets go of it to prepare its user memory, and takes it again to copy and remove,
because the preparation may run a provider that uses the same pipe. A writer copies its bytes into a buffer
first. Readers and writers that find nothing to do put themselves on the one list of waiters, check for an
upcall and sleep; whoever changes the pipe takes the whole list and wakes everybody on it.

What the memory of the caller and the allocator answer is given with each step (`Hint`). `accepted` and
`delivered` are not there in the source: the bytes of the writes in the order in which they were accepted, and
of the reads in the order of their removals.
-/

namespace Mnu.Syscall.Pipe

open Mnu.Lib Mnu.Task

variable {ι κ : Type}

/-- `PIPE_BUFFER_CAP` -/
def pipeBufferCap : Nat := 64 * 1024

/-- `MAX_IO_BYTES` -/
def maxIoBytes : Nat := 128 * 1024 * 1024

/-- The errors of these calls among those of `Error`. -/
inductive Error where
  | invalidArgument
  | invalidAddress
  | notReady
  | peerClosed
  | resourceUnavailable
  | backingFailure
  deriving DecidableEq, Repr

/-- A pipe: its bytes, its ends, and who waits. -/
structure PipeState where
  data : List UInt8
  readers : Nat
  writers : Nat
  waiters : List ThreadId
  deriving DecidableEq, Repr

/-- `alloc_stream_state` -/
def PipeState.new : PipeState := ⟨[], 1, 1, []⟩

/-- A read under way. -/
structure Read where
  targetLen : Nat
  nonblocking : Bool
  deriving DecidableEq, Repr

/-- `tmp` holds the bytes to be written, or as many as a pipe can hold. -/
structure Write where
  tmp : List UInt8
  complete : Bool
  nonblocking : Bool
  deriving DecidableEq, Repr

/-- A call on a pipe. -/
inductive Call where
  | read (r : Read)
  | write (w : Write)
  deriving DecidableEq, Repr

/-- Whether the call must not wait. -/
def Call.nonblocking : Call → Bool
  | .read r => r.nonblocking
  | .write w => w.nonblocking

/-- How many bytes of its buffer a write can put into the pipe. -/
def Write.count (w : Write) (p : PipeState) : Nat :=
  let available := pipeBufferCap - p.data.length
  if w.complete then if w.tmp.length ≤ available then w.tmp.length else 0
  else min available w.tmp.length

/-- What a call returns. A read returns a count, and has that many bytes in its buffer. -/
inductive Answer where
  | read (bytes : List UInt8)
  | wrote (count : Nat)
  | closed
  | error (e : Error)
  deriving DecidableEq, Repr

/-- Where a thread is: the step that comes next. -/
inductive Prog where
  | user
  | returned (answer : Answer)
  /-- `copy_from_user` -/
  | copyIn (w : Write)
  /-- The critical section at the head of the loop. -/
  | look (call : Call)
  /-- `with_user_output_native`, up to its callback. -/
  | prepare (r : Read) (take : Nat)
  /-- The callback. -/
  | copy (r : Read) (take : Nat)
  /-- `current_has_deliverable_upcall` -/
  | upcall (call : Call)
  /-- `remove_stream_waiter` -/
  | remove (call : Call)
  | calling (call : Call)
  /-- In `sleep_thread_unless_woken`. -/
  | sleeping (call : Call)
  /-- In the `yield_now` after it, until the thread is selected again. -/
  | yielded (call : Call)
  /-- `wake_stream_waiters` -/
  | waking (rest : List ThreadId) (answer : Answer)
  deriving DecidableEq, Repr

/-- The call in which a thread waits. -/
def Prog.waitsFor : Prog → Option Call
  | .upcall call => some call
  | .calling call => some call
  | .sleeping call => some call
  | .yielded call => some call
  | _ => none

/-- A thread that handles its user memory can lose its CPU there, and one that wakes others may be a kernel
    thread; a thread that waits can only in its yield. -/
def calls : Sleep.Calls Prog where
  away p := p matches .user | .returned _
  calling p := p matches .upcall _ | .calling _
  asleep p := p matches .sleeping _
  parked p := p matches .user | .returned _ | .copyIn _ | .prepare _ _ | .yielded _ | .waking _ _
  waits p := p.waitsFor.isSome
  list
    | .waking rest _ => rest
    | _ => []
  parked_of_away p h := by cases p <;> first | rfl | cases h
  not_asleep_of_parked p h := by cases p <;> first | rfl | cases h
  of_calling p h := by cases p <;> first | exact ⟨rfl, rfl⟩ | cases h
  not_away_of_waits p h := by cases p <;> first | rfl | cases h
  list_of_waits p h := by cases p <;> first | rfl | cases h

/-- The scheduler, the threads, the pipe, and the bytes that went through it. -/
structure State (ι κ : Type) where
  sleep : Sleep.State ι κ
  prog : ThreadId → Prog
  /-- The slot of the pipe: empty once both ends are closed. -/
  pipe : Option PipeState
  accepted : List (List UInt8)
  delivered : List (List UInt8)

/-- A thread goes on. -/
def State.setProg (s : State ι κ) (id : ThreadId) (p : Prog) : State ι κ :=
  { s with prog := Function.update s.prog id p }

/-- A call returns. -/
def State.finish (s : State ι κ) (id : ThreadId) (answer : Answer) : State ι κ :=
  s.setProg id (.returned answer)

/-! ## Operations -/

/-- What the rest of the kernel answers in a step. -/
structure Hint where
  /-- There is memory. -/
  room : Bool
  /-- The error with which the memory of the caller is refused: it cannot be read or prepared
      (`copy_from_user_native`, `fault_in_user_range`), or it is no longer what was prepared. -/
  fault : Option Error
  /-- The error of the copy itself (`usercopy_error::resident`). -/
  copyFault : Option Error
  /-- An upcall is to be delivered. -/
  upcall : Bool

/-- The waiters with `id`. -/
def PipeState.subscribe (p : PipeState) (id : ThreadId) : PipeState :=
  { p with waiters := if id ∈ p.waiters then p.waiters else p.waiters ++ [id] }

/-- The waiters without `id`. -/
def PipeState.unsubscribe (id : ThreadId) (p : PipeState) : PipeState :=
  { p with waiters := p.waiters.filter fun waiter => waiter ≠ id }

/-- A call that finds nothing to do. -/
def State.block (s : State ι κ) (id : ThreadId) (p : PipeState) (call : Call) (hint : Hint) : State ι κ :=
  if call.nonblocking then s.finish id (.error .notReady)
  else if id ∈ p.waiters ∨ hint.room then { s with pipe := some (p.subscribe id) }.setProg id (.upcall call)
  else s.finish id (.error .resourceUnavailable)

/-- Bytes are put into the pipe. -/
def State.accept (s : State ι κ) (id : ThreadId) (p : PipeState) (bytes : List UInt8) : State ι κ :=
  { s with
    pipe := some { p with data := p.data ++ bytes, waiters := [] }
    accepted := s.accepted ++ [bytes] }.setProg id
    (.waking (p.waiters.filter fun waiter => waiter ≠ id) (.wrote bytes.length))

/-- Bytes are taken out of it. -/
def State.deliver (s : State ι κ) (id : ThreadId) (p : PipeState) (count : Nat) : State ι κ :=
  { s with
    pipe := some { p with data := p.data.drop count, waiters := [] }
    delivered := s.delivered ++ [p.data.take count] }.setProg id
    (.waking (p.waiters.filter fun waiter => waiter ≠ id) (.read (p.data.take count)))

/-- The critical section at the head of the loops of `read_pipe` and `write_pipe`. -/
def State.look (s : State ι κ) (id : ThreadId) (call : Call) (hint : Hint) : State ι κ :=
  match s.pipe with
  | none => s.finish id (.error .invalidArgument)
  | some p =>
    match call with
    | .read r =>
      if p.data = [] then
        if p.writers = 0 then s.finish id (.read []) else s.block id p call hint
      else s.setProg id (.prepare r (min p.data.length r.targetLen))
    | .write w =>
      if p.readers = 0 then s.finish id (.error .peerClosed)
      else if w.count p ≠ 0 then
        if hint.room then s.accept id p (w.tmp.take (w.count p))
        else s.finish id (.error .resourceUnavailable)
      else s.block id p call hint

/-- The rest of `with_user_output_native` in `read_pipe`, under the lock of the processes: the memory is
    checked once more, and the callback copies and removes. -/
def State.copy (s : State ι κ) (id : ThreadId) (r : Read) (take : Nat) (hint : Hint) : State ι κ :=
  match hint.fault with
  | some e => s.finish id (.error e)
  | none =>
    match s.pipe with
    | none => s.finish id (.error .invalidArgument)
    | some p =>
      let count := min take p.data.length
      if count = 0 then s.setProg id (.look (.read r))
      else
        match hint.copyFault with
        | some e => s.finish id (.error e)
        | none => s.deliver id p count

/-- `close_pipe_endpoint_from_kernel` -/
def State.close (s : State ι κ) (id : ThreadId) (p : PipeState) (writeEnd : Bool) : State ι κ :=
  let closed : PipeState :=
    { p with
      readers := if writeEnd then p.readers else p.readers - 1
      writers := if writeEnd then p.writers - 1 else p.writers
      waiters := [] }
  { s with pipe := if closed.readers = 0 ∧ closed.writers = 0 then none else some closed }.setProg id
    (.waking p.waiters .closed)

/-! ## Steps -/

/-- A call, a step of a thread, or scheduling. -/
inductive Label (ι : Type) where
  /-- The current thread of the CPU calls `read_pipe`. -/
  | read (c : ι) (len : Nat) (nonblocking : Bool)
  /-- It calls `write_pipe`; `bytes` is what its memory holds. -/
  | write (c : ι) (bytes : List UInt8) (complete nonblocking : Bool)
  | close (c : ι) (writeEnd : Bool)
  /-- The next step of the current thread. -/
  | own (c : ι) (hint : Hint)
  | sched (l : Sleep.Label ι)

variable [DecidableEq ι]

/-- A step of the scheduler alone. -/
def sleepStep (idle : Sleep.Idle ι) (s : State ι κ) (l : Sleep.Label ι) : Option (State ι κ) :=
  (Sleep.step idle s.sleep l).map fun sleep => { s with sleep := sleep }

/-- The next step of `id`, the current thread of `c`. -/
def own (idle : Sleep.Idle ι) (s : State ι κ) (c : ι) (id : ThreadId) (hint : Hint) : Option (State ι κ) :=
  match s.prog id with
  | .user => none
  | .returned _ => none
  | .copyIn w =>
    if !hint.room then some (s.finish id (.error .resourceUnavailable))
    else
      match hint.fault with
      | some e => some (s.finish id (.error e))
      | none => some (s.setProg id (.look (.write w)))
  | .look call => some (s.look id call hint)
  | .prepare r take =>
    match hint.fault with
    | some e => some (s.finish id (.error e))
    | none => some (s.setProg id (.copy r take))
  | .copy r take => some (s.copy id r take hint)
  | .upcall call => some (s.setProg id (if hint.upcall then .remove call else .calling call))
  | .remove _ =>
    some ({ s with pipe := s.pipe.map (PipeState.unsubscribe id) }.finish id (.error .notReady))
  | .calling call => (sleepStep idle s (.call c)).map fun s' => s'.setProg id (.sleeping call)
  | .sleeping call =>
    match s.sleep.pc id with
    | .outside => (sleepStep idle s (.preempt c)).map fun s' => s'.setProg id (.yielded call)
    | .yielding => (sleepStep idle s (.yield c)).map fun s' => s'.setProg id (.yielded call)
    | _ => sleepStep idle s (.advance c)
  | .yielded call => some (s.setProg id (.look call))
  | .waking [] answer => some (s.finish id answer)
  | .waking (thread :: rest) answer =>
    (sleepStep idle s (.wake thread true)).map fun s' => s'.setProg id (.waking rest answer)

/-- The current thread of the CPU, if it can start a call. -/
def starting (idle : Sleep.Idle ι) (s : State ι κ) (c : ι) : Option ThreadId :=
  (s.sleep.cpu c).filter fun id => calls.away (s.prog id) ∧ id ≠ idle.thread c

/-- The beginning of `write_pipe`. -/
def startWrite (bytes : List UInt8) (complete nonblocking : Bool) : Prog :=
  if complete ∧ pipeBufferCap < bytes.length then .returned (.error .invalidArgument)
  else if bytes = [] then .returned (.wrote 0)
  else .copyIn ⟨bytes.take pipeBufferCap, complete, nonblocking⟩

/-- Which steps of the sleep machine are taken outside of these calls. -/
def admissible (s : State ι κ) : Sleep.Label ι → Bool
  | .call _ => false
  | .advance _ => false
  | .yield _ => false
  | .preempt c => (s.sleep.cpu c).all fun id => calls.parked (s.prog id)
  | _ => true

/-- Calls start in user mode; each step of one is a critical section. -/
def step (idle : Sleep.Idle ι) (s : State ι κ) : Label ι → Option (State ι κ)
  | .read c len nonblocking => (starting idle s c).map fun id =>
    s.setProg id (if len = 0 then .returned (.read []) else .look (.read ⟨min len maxIoBytes, nonblocking⟩))
  | .write c bytes complete nonblocking => (starting idle s c).map fun id =>
    s.setProg id (startWrite bytes complete nonblocking)
  | .close c writeEnd => (starting idle s c).bind fun id => s.pipe.map fun p => s.close id p writeEnd
  | .own c hint => (s.sleep.cpu c).bind fun id => own idle s c id hint
  | .sched l => if admissible s l then sleepStep idle s l else none

/-- A new pipe; any threads, nobody in a call. -/
structure Start (idle : Sleep.Idle ι) (s : State ι κ) : Prop where
  sleep : Sleep.Start idle s.sleep
  prog : ∀ id, s.prog id = .user
  pipe : s.pipe = some .new
  accepted : s.accepted = []
  delivered : s.delivered = []

/-- The pipe as a system. -/
def pipe (idle : Sleep.Idle ι) : System (State ι κ) (Label ι) where
  init := Start idle
  step := step idle

end Mnu.Syscall.Pipe
