import Mnu.Lib.LockOrder
import Mnu.Lib.Run
import Mnu.Mem.ObjectIo
import Mnu.Task.HandleTable
import Mnu.Task.Queue

/-!
# `Mnu.Task.Locks` — what runs under `THREAD_QUEUE` and `PROCESS_TABLE`

Model of the code that takes the two locks, or that may be reached while one of them is held. The subject
is which lock is taken under which, so the parts that decide it are kept: the handle tables, the reference
counts that decide where a destructor runs, the destructors, and who is registered as waiting on the gates
and streams that they wake. Page tables, messages and the bytes of a stream are left out; where their state
would decide an outcome, the outcome is a parameter.

Under `THREAD_QUEUE` the process table is consulted in three places: `ThreadQueue::push`, and the two
lookups of a thread's process (`jump_to_usermode` and the report of a fatal page fault). Under
`PROCESS_TABLE` the queue is taken wherever a thread is woken: by the destructor of the last reference to
an admission or a stream end (closed handle, refused insertion, image replacement, refused process), by
a failed update preparation that gives its I/O guard back, and by the cleanup that marks a backing
unavailable. It is also taken when an allocation that must not fail does so under the lock: the handler ends
the current process from there.

A `Call` is a piece of kernel code that starts and ends without either lock. A call unfolds into
instructions (`Call.code`), and the acts among them, executed under the locks taken so far, answer with what
to run next (`Kernel.act`).
-/

namespace Mnu.Task.Locks

open Mnu.Lib Mnu.Lib.LockOrder Mnu.Mem Function

/-- The two locks, with `THREAD_QUEUE` before `PROCESS_TABLE`. -/
inductive Lock where
  | threadQueue
  | processTable
  deriving DecidableEq

namespace Lock

/-- The place in the order. -/
def rank : Lock → Nat
  | .threadQueue => 0
  | .processTable => 1

instance : Preorder Lock := Preorder.lift rank

theorem threadQueue_lt_processTable : threadQueue < processTable := by
  show rank .threadQueue < rank .processTable
  decide

end Lock

/-! ## Objects -/

/-- The name of an object. -/
abbrev ObjectId := Nat
/-- The name of a stream. -/
abbrev StreamId := Nat

/-- How far an extent transaction has come. -/
inductive Publication where
  | prepared
  | inFlight
  | unchanged
  | unavailable
  | requested
  | published
  deriving DecidableEq

/-- The journal of an extent transaction: the gate whose reservation it owns, and its phase. -/
structure Work (γ : Type) where
  key : γ
  external : Bool
  publication : Publication

/-- The objects behind handles, as far as their destructors differ. -/
inductive KernelObject (γ : Type) where
  | memoryAdmission (key : γ) (ticket : Option Nat)
  | memoryUpdate (work : Option (Work γ))
  | handleSnapshot (captured : List ObjectId)
  | file (stream : StreamId) (writeEnd : Bool)
  | other

/-- A shared allocation and its reference count. -/
structure Shared (γ : Type) where
  strong : Nat
  object : KernelObject γ

/-- The ends and the waiters of a stream (`PipeState`). -/
structure Pipe where
  readers : Nat
  writers : Nat
  waiters : List ThreadId

/-- What the table's users read of a process. -/
structure Process where
  id : ProcessId
  exited : Bool
  view : ProcessView
  objectHandles : ObjectHandleTable ObjectId
  inheritedHandles : List (Nat × Nat)

/-- What the locks guard. -/
structure Kernel (ι κ γ : Type) where
  queue : ThreadQueue ι κ
  processes : List Process
  nextProcess : ProcessId
  heap : ObjectId → Option (Shared γ)
  nextObject : ObjectId
  gates : γ → Gate
  streams : StreamId → Option Pipe
  /-- What each waiting thread is registered at. It keeps a reference to a stream end, but not to an
      admission, whose last handle is meant to cancel it. -/
  waits : List (ThreadId × ObjectId)
  exitWaiters : List (ThreadId × List ProcessId)
  /-- Transactions whose owner is gone, `PENDING`. -/
  pending : List (Work γ)

namespace Kernel

variable {ι κ γ : Type}

/-- The kernel at boot. -/
def boot : Kernel ι κ γ :=
  ⟨.new, [], 1, fun _ => none, 0, fun _ => .new, fun _ => none, [], [], []⟩

/-- `ProcessTable::MAX_PROCESSES`. -/
def maxProcesses : Nat := 64

/-- The process of a name. -/
def process (k : Kernel ι κ γ) (pid : ProcessId) : Option Process :=
  k.processes.find? fun p => p.id = pid

/-- `with_process_mut` on one field or another. -/
def modify (k : Kernel ι κ γ) (pid : ProcessId) (f : Process → Process) : Kernel ι κ γ :=
  { k with processes := k.processes.map fun p => if p.id = pid then f p else p }

/-- A handle table written back. -/
def setHandles (k : Kernel ι κ γ) (pid : ProcessId) (handles : ObjectHandleTable ObjectId) : Kernel ι κ γ :=
  k.modify pid fun p => { p with objectHandles := handles }

/-- `ProcessTable::remove`. -/
def remove (k : Kernel ι κ γ) (pid : ProcessId) : Kernel ι κ γ :=
  { k with processes := k.processes.filter fun p => p.id ≠ pid }

/-- `Arc::try_new`. -/
def allocate (k : Kernel ι κ γ) (object : KernelObject γ) : Kernel ι κ γ × ObjectId :=
  ({ k with heap := update k.heap k.nextObject (some ⟨1, object⟩), nextObject := k.nextObject + 1 },
    k.nextObject)

/-- `Arc::clone`. -/
def retain (k : Kernel ι κ γ) (o : ObjectId) : Kernel ι κ γ :=
  { k with heap := update k.heap o ((k.heap o).map fun s => { s with strong := s.strong + 1 }) }

/-- A reference more to each. -/
def retainAll (k : Kernel ι κ γ) (os : List ObjectId) : Kernel ι κ γ := os.foldl retain k

/-- Give a reference back; the last one leaves the object to its destructor. -/
def release (k : Kernel ι κ γ) (o : ObjectId) : Kernel ι κ γ × Option (KernelObject γ) :=
  match k.heap o with
  | none => (k, none)
  | some s =>
    if s.strong ≤ 1 then ({ k with heap := update k.heap o none }, some s.object)
    else ({ k with heap := update k.heap o (some { s with strong := s.strong - 1 }) }, none)

/-- Overwrite an object in place. -/
def store (k : Kernel ι κ γ) (o : ObjectId) (object : KernelObject γ) : Kernel ι κ γ :=
  { k with heap := update k.heap o ((k.heap o).map fun s => { s with object := object }) }

section Gates

variable [DecidableEq γ]

/-- A gate written back. -/
def setGate (k : Kernel ι κ γ) (key : γ) (g : Gate) : Kernel ι κ γ :=
  { k with gates := update k.gates key g }

/-- Apply an operation of the gate and hand back the threads to wake. -/
def onGate (k : Kernel ι κ γ) (key : γ) (f : Gate → Gate × List ThreadId) : Kernel ι κ γ × List ThreadId :=
  (k.setGate key (f (k.gates key)).1, (f (k.gates key)).2)

/-- `close_pipe_endpoint_from_kernel`, up to waking. -/
def closePipeEndpoint (k : Kernel ι κ γ) (stream : StreamId) (writeEnd : Bool) :
    Kernel ι κ γ × List ThreadId :=
  match k.streams stream with
  | none => (k, [])
  | some pipe =>
    let left : Pipe :=
      if writeEnd then { pipe with writers := pipe.writers - 1, waiters := [] }
      else { pipe with readers := pipe.readers - 1, waiters := [] }
    ({ k with
        streams := update k.streams stream
          (if left.readers = 0 ∧ left.writers = 0 then none else some left) },
      pipe.waiters)

/-- `remove_stream_waiter`. -/
def removeStreamWaiter (k : Kernel ι κ γ) (stream : StreamId) (thread : ThreadId) : Kernel ι κ γ :=
  { k with
    streams := update k.streams stream ((k.streams stream).map fun pipe =>
      { pipe with waiters := pipe.waiters.filter fun waiter => waiter ≠ thread }) }

/-- The destructor of an object: the threads it wakes, and the references it held. -/
def destroy (k : Kernel ι κ γ) : KernelObject γ → Kernel ι κ γ × List ThreadId × List ObjectId
  | .memoryAdmission key ticket =>
    let (k, woken) := k.onGate key fun g => g.dropIntent ticket
    (k, woken, [])
  | .memoryUpdate (some work) => ({ k with pending := work :: k.pending }, [], [])
  | .handleSnapshot captured => (k, [], captured)
  | .file stream writeEnd =>
    let (k, woken) := k.closePipeEndpoint stream writeEnd
    (k, woken, [])
  | .memoryUpdate none | .other => (k, [], [])

/-- Drop a reference, and with the last one the object. -/
def dropObject (k : Kernel ι κ γ) (o : ObjectId) : Kernel ι κ γ × List ThreadId × List ObjectId :=
  match k.release o with
  | (k, none) => (k, [], [])
  | (k, some object) => k.destroy object

end Gates

end Kernel

/-! ## Code -/

/-- The sections that hold `THREAD_QUEUE` alone. -/
inductive QueueSection where
  | read
  | selectNextThread (current : Option ThreadId)
  | setState (id : ThreadId) (state : ThreadState)
  | wakeWaiter (id : ThreadId) (latchRunning : Bool)
  | takePendingWakeup (id : ThreadId)
  | remove (id : ThreadId)
  | suspendProcess (pid : ProcessId)
  | resumeProcess (pid : ProcessId)
  | holdImageSiblings (pid : ProcessId) (owner : ThreadId)
  | releaseImageHold (id : ThreadId)

/-- Where the preparation of an update stops: the geometry is refused, the boundary buffer cannot be
    allocated, the mappings cannot be captured, a page cannot be suspended, or it succeeds. -/
inductive Preparation where
  | rejected
  | unreserved
  | unstored
  | stored
  | ready
  deriving DecidableEq

/-- What a system call does with an object that it found through a handle. -/
inductive Use (γ : Type) where
  | inspect
  | await (thread : ThreadId) (room : Bool)
  | acquire (pid : ProcessId) (key : γ) (outcome : Preparation) (room : Bool)
  | begin (current : Bool)
  | unchanged (current : Bool)
  | publish (current published : Bool)

/-- The sections that hold `PROCESS_TABLE`; `room` and the like are outcomes of the allocator, of user copies
    and of page-table work. -/
inductive TableSection (γ : Type) where
  | read (pid : ProcessId)
  | insert (pid : ProcessId) (entry : ObjectHandleEntry ObjectId) (room : Bool)
  | duplicate (pid : ProcessId) (source : Nat) (requested : HandleRights) (room : Bool)
  | close (pid : ProcessId) (handle : Nat)
  | lookup (pid : ProcessId) (handle : Nat) (required : HandleRights) (use : Use γ)
  | setContext (pid : ProcessId) (key handle : Nat)
  | capture (pid : ProcessId) (room : Bool)
  | insertPair (pid : ProcessId) (reader writer : ObjectHandleEntry ObjectId) (room room' : Bool)
  | transfer (pid : ProcessId) (source : Nat) (requested : HandleRights) (receiver : ProcessId)
      (owner : ThreadId) (room copied : Bool)
  | reserve (pid : ProcessId) (owner : ThreadId) (entry : ObjectHandleEntry ObjectId) (room copied : Bool)
  | publish (pid : ProcessId) (ticket : HandleReservation)
  | cancel (pid : ProcessId) (ticket : HandleReservation)
  | takeReservationFor (pid : ProcessId) (owner : ThreadId)
  | retainForExec (pid : ProcessId)
  | grant (pid : ProcessId) (grants : List (Nat × HandleRights)) (view : ProcessView) (room : Bool)
  | addProcess (process : Process)
  | removeProcess (pid : ProcessId)
  | takeExited (pid : ProcessId)
  | markExited (pid : ProcessId)
  | prepare (pid : ProcessId) (key : γ) (external admitted : Bool) (outcome : Preparation)
      (room current published : Bool)
  | publishLocal (work : Work γ) (current published : Bool)
  | begin (update : ObjectId) (current : Bool)
  | unchanged (update : ObjectId) (current : Bool)
  | finish (update : ObjectId) (current published : Bool)
  | progress (work : Work γ) (current published : Bool)

/-- Code that runs without either lock and decides what to call. -/
inductive FreeSection (γ : Type) where
  | use (object : ObjectId) (use : Use γ)
  | createAdmission (pid : ProcessId) (key : γ) (intentRoom room : Bool)
  | createObject (pid : ProcessId) (rights : HandleRights) (room : Bool)
  | createStreamPair (pid : ProcessId) (stream : StreamId) (room room' : Bool)
  | createUpdate (pid : ProcessId) (work : Work γ) (room : Bool)
  | spawn (grants : List (ObjectHandleEntry ObjectId)) (view : ProcessView) (room : Bool)
  | endWait (thread : ThreadId)
  | awaitExit (thread : ThreadId) (pid : ProcessId)
  | notifyExit (pid : ProcessId)
  | providerIo (key : γ)
  | releaseIo (key : γ)
  | flush (current published : Bool)
  | defer (work : Work γ)
  | retire (work : Work γ)

/-- What happens under a lock. -/
inductive Act (ι κ γ : Type) where
  | queue (op : QueueSection)
  | push (thread : Thread ι κ)
  | pushLookup (thread : Thread ι κ)
  | pushFinish (thread : Thread ι κ) (view : Option ProcessView)
  | threadLookup (id : ThreadId)
  | reclaim (pid : ProcessId)
  | table (op : TableSection γ)
  | allocate (pid : ProcessId) (granted : Bool)
  | drop (object : ObjectId)
  | free (op : FreeSection γ)

/-- Code that starts and ends without either lock. -/
inductive Call (ι κ γ : Type) where
  | queue (op : QueueSection)
  | addThread (thread : Thread ι κ)
  | withThreadProcess (id : ThreadId)
  | reclaimProcess (pid : ProcessId)
  | table (op : TableSection γ)
  /-- `with_process` around an infallible allocation: the copied name of `current_process_name_for_log`, or
      the ranges of `set_access` in `protect`. -/
  | allocating (pid : ProcessId) (granted : Bool)
  | tryTable (work : Work γ) (current published : Bool)
  | drop (object : ObjectId)
  | free (op : FreeSection γ)

/-- What a CPU still has to do. -/
abbrev Code (ι κ γ : Type) := List (Instr Lock (Act ι κ γ))

variable {ι κ γ : Type}

/-- The instructions of a call. -/
def Call.code : Call ι κ γ → Code ι κ γ
  | .queue op => [.lock .threadQueue, .run (.queue op), .unlock .threadQueue]
  | .addThread t => [.lock .threadQueue, .run (.push t), .unlock .threadQueue]
  | .withThreadProcess id => [.lock .threadQueue, .run (.threadLookup id), .unlock .threadQueue]
  | .reclaimProcess pid => [.lock .threadQueue, .run (.reclaim pid)]
  | .table op => [.lock .processTable, .run (.table op)]
  | .allocating pid granted => [.lock .processTable, .run (.allocate pid granted)]
  | .tryTable work current published =>
    [.attempt .processTable (.table (.progress work current published)) (.free (.defer work))]
  | .drop o => [.run (.drop o)]
  | .free op => [.run (.free op)]

/-- `wake_registered_waiter` for each of the threads. -/
def wakeAll (woken : List ThreadId) : List (Call ι κ γ) :=
  woken.map fun id => .queue (.wakeWaiter id true)

/-- References given up. -/
def dropAll (os : List ObjectId) : List (Call ι κ γ) := os.map .drop

/-- What a section under `PROCESS_TABLE` leaves behind: references that are dropped and threads that are
    woken while the lock is still held, and what is called once it is not. -/
structure Outcome (ι κ γ : Type) where
  kernel : Kernel ι κ γ
  dropped : List ObjectId
  woken : List ThreadId
  after : List (Call ι κ γ)

namespace Kernel

/-- Nothing under the lock; then `after`. -/
def leave (k : Kernel ι κ γ) (after : List (Call ι κ γ)) : Outcome ι κ γ := ⟨k, [], [], after⟩

/-- `with_process_mut` on a handle table. The closure is dropped under the lock if there is no process, and
    with it the entry that it owns. -/
def onHandles (k : Kernel ι κ γ) (pid : ProcessId) (owned : List ObjectId)
    (f : Process → Outcome ι κ γ) : Outcome ι κ γ :=
  match k.process pid with
  | none => ⟨k, owned, [], []⟩
  | some p => f p

/-- `object_handles_mut().insert(entry)`, where a refused entry is dropped on the spot. -/
def insertHandle (k : Kernel ι κ γ) (p : Process) (entry : ObjectHandleEntry ObjectId) (room : Bool) :
    Outcome ι κ γ :=
  match p.objectHandles.insert entry room with
  | (table, none) => ⟨k.setHandles p.id table, [entry.object], [], []⟩
  | (table, some _) => ⟨k.setHandles p.id table, [], [], []⟩

/-- The references of a process that goes away. -/
def referencesOf (p : Process) : List ObjectId :=
  p.objectHandles.entries.map (fun e => e.2.object) ++ p.objectHandles.pending.map fun e => e.2.object

variable [DecidableEq γ]

/-- The I/O guard of a preparation: an admitted one comes with it, otherwise the gate is tried once the
    geometry has been accepted. -/
def takeGuard (k : Kernel ι κ γ) (key : γ) (admitted : Bool) (outcome : Preparation) :
    Option (Kernel ι κ γ) :=
  if admitted then some k
  else if outcome = .rejected then none
  else
    match (k.gates key).tryLock with
    | some (g, true) => some (k.setGate key g)
    | _ => none

/-- `prepare_backing` under the mapping table. A guard that the failed preparation had taken is dropped
    before the lock is; a journal that was stored is kept for cleanup. -/
def prepareUpdate (k : Kernel ι κ γ) (pid : ProcessId) (key : γ) (external admitted : Bool)
    (outcome : Preparation) (room current published : Bool) : Outcome ι κ γ :=
  match k.takeGuard key admitted outcome with
  | none => k.leave []
  | some k =>
    let work : Work γ := ⟨key, external, .prepared⟩
    match outcome with
    | .rejected | .unreserved =>
      let (k, woken) := k.onGate key Gate.dropGuard
      ⟨k, [], woken, []⟩
    | .unstored =>
      let (k, woken) := k.onGate key fun g => g.reserve.dropReservation
      ⟨k, [], woken, []⟩
    | .stored => (k.setGate key (k.gates key).reserve).leave [.free (.defer work)]
    | .ready =>
      -- an external update is handed out as an object, a local one is published by its creator
      (k.setGate key (k.gates key).reserve).leave [if external then .free (.createUpdate pid work room)
          else .table (.publishLocal work current published)]

/-- `Work::publish_cache` and `Work::resolve`: the phase reached, and whether every page is resolved.
    `current` says whether the recorded pages are as recorded, `published` whether the cache accepts the
    new extent. -/
def advance (phase : Publication) (current published : Bool) : Publication × Bool :=
  match phase with
  | .requested => if current && published then (.published, current) else (.requested, false)
  | .inFlight => (.inFlight, false)
  | phase => (phase, current)

/-- A phase change of an update object; a transaction that is complete gives its reservation back after the
    lock is released. -/
def finishUpdate (k : Kernel ι κ γ) (o : ObjectId) (work : Work γ) (phase : Publication) (complete : Bool) :
    Outcome ι κ γ :=
  if complete then (k.store o (.memoryUpdate none)).leave [.free (.retire work)]
  else (k.store o (.memoryUpdate (some { work with publication := phase }))).leave []

/-- `begin_external`, `confirm_unchanged` and `request_external_publication` on an update object. -/
def updateSection (k : Kernel ι κ γ) (o : ObjectId) (f : Work γ → Outcome ι κ γ) : Outcome ι κ γ :=
  match (k.heap o).map Shared.object with
  | some (.memoryUpdate (some work)) => f work
  | _ => k.leave []

/-- The start of `Work::progress`: losing the owner of an update in flight makes its backing unavailable. -/
def quarantine (k : Kernel ι κ γ) (work : Work γ) : Kernel ι κ γ × List ThreadId × Publication :=
  if work.publication = .inFlight then
    let (k, woken) := k.onGate work.key Gate.markUnavailable
    (k, woken, .unavailable)
  else (k, [], work.publication)

/-- The bodies of the sections under `PROCESS_TABLE`. -/
def tableSection (k : Kernel ι κ γ) : TableSection γ → Outcome ι κ γ
  | .read _ => k.leave []
  | .insert pid entry room => k.onHandles pid [entry.object] fun p => k.insertHandle p entry room
  | .duplicate pid source requested room =>
    k.onHandles pid [] fun p =>
      match p.objectHandles.duplicateEntry source requested with
      | none => k.leave []
      | some entry => (k.retain entry.object).insertHandle p entry room
  | .close pid handle =>
    k.onHandles pid [] fun p =>
      match p.objectHandles.takeEntry handle with
      | (_, none) => k.leave []
      | (table, some entry) =>
        let forgotten := p.inheritedHandles.filter fun e => e.2 ≠ handle
        ⟨k.modify pid fun p => { p with objectHandles := table, inheritedHandles := forgotten },
          [entry.object], [], []⟩
  | .lookup pid handle required use =>
    k.onHandles pid [] fun p =>
      match p.objectHandles.get handle with
      | none => k.leave []
      | some entry =>
        if entry.rights.contains required then
          (k.retain entry.object).leave [.free (.use entry.object use), .drop entry.object]
        else k.leave []
  | .setContext pid key handle =>
    k.onHandles pid [] fun p =>
      if (p.objectHandles.get handle).isNone then k.leave []
      else
        let named := (key, handle) :: p.inheritedHandles.filter fun e => e.1 ≠ key
        (k.modify pid fun p => { p with inheritedHandles := named }).leave []
  | .capture pid room =>
    k.onHandles pid [] fun p =>
      let kept := (HandleSnapshot.capture p.objectHandles).filterMap CapturedHandle.exportable
      let captured := kept.map ObjectHandleEntry.object
      let (k, o) := (k.retainAll captured).allocate (.handleSnapshot captured)
      k.insertHandle p ⟨o, ((HandleRights.read).union .control).union .duplicate⟩ room
  | .insertPair pid reader writer room room' =>
    k.onHandles pid [reader.object, writer.object] fun p =>
      match p.objectHandles.insert reader room with
      | (table, none) => ⟨k.setHandles pid table, [reader.object, writer.object], [], []⟩
      | (table, some handle) =>
        match table.insert writer room' with
        | (table, none) =>
          -- the second end was refused: the first is closed again, under the same lock
          ⟨k.setHandles pid (table.takeEntry handle).1, [writer.object, reader.object], [], []⟩
        | (table, some _) => ⟨k.setHandles pid table, [], [], []⟩
  | .transfer pid source requested receiver owner room copied =>
    k.onHandles pid [] fun p =>
      match p.objectHandles.exportRestricted source requested with
      | none => k.leave []
      | some entry => (k.retain entry.object).leave [.table (.reserve receiver owner entry room copied)]
  | .reserve pid owner entry room copied =>
    match k.process pid with
    -- the attachments belong to the caller's frame, which drops them after the lock
    | none => k.leave [.drop entry.object]
    | some p =>
      match p.objectHandles.reserve owner entry room with
      | (table, none) => (k.setHandles pid table).leave [.drop entry.object]
      | (table, some ticket) =>
        (k.setHandles pid table).leave [.table (if copied then .publish pid ticket else .cancel pid ticket)]
  | .publish pid ticket =>
    k.onHandles pid [] fun p =>
      match p.objectHandles.publishReserved ticket with
      | (table, true) => (k.setHandles pid table).leave []
      | (table, false) => (k.setHandles pid table).leave [.table (.cancel pid ticket)]
  | .cancel pid ticket =>
    k.onHandles pid [] fun p =>
      let (table, entry) := p.objectHandles.cancelReserved ticket
      (k.setHandles pid table).leave (dropAll (entry.toList.map ObjectHandleEntry.object))
  | .takeReservationFor pid owner =>
    k.onHandles pid [] fun p =>
      match p.objectHandles.takeReservationFor owner with
      | (_, none) => k.leave []
      | (table, some entry) =>
        (k.setHandles pid table).leave [.drop entry.object, .table (.takeReservationFor pid owner)]
  | .retainForExec pid =>
    k.onHandles pid [] fun p =>
      let (table, dropped) := p.objectHandles.retain fun h => p.inheritedHandles.any fun e => e.2 = h
      ⟨k.setHandles pid table, dropped.map ObjectHandleEntry.object, [], []⟩
  | .grant pid grants view room =>
    k.onHandles pid [] fun p =>
      let entries := grants.filterMap fun g => p.objectHandles.exportRestricted g.1 g.2
      (k.retainAll (entries.map ObjectHandleEntry.object)).leave [.free (.spawn entries view room)]
  | .addProcess process =>
    if maxProcesses ≤ k.processes.length then ⟨k, referencesOf process, [], []⟩
    else ({ k with processes := k.processes ++ [process] } : Kernel ι κ γ).leave []
  | .removeProcess pid =>
    k.onHandles pid [] fun p =>
      (k.remove pid).leave (dropAll (referencesOf p))
  | .takeExited pid =>
    k.onHandles pid [] fun p =>
      if p.exited then (k.remove pid).leave (dropAll (referencesOf p)) else k.leave []
  | .markExited pid =>
    k.onHandles pid [] fun p =>
      if p.exited then k.leave []
      else (k.modify pid fun p => { p with exited := true }).leave [.free (.notifyExit pid)]
  | .prepare pid key external admitted outcome room current published =>
    k.prepareUpdate pid key external admitted outcome room current published
  | .publishLocal work current published =>
    k.leave [.free (if current && published then .retire work else .defer work)]
  | .begin o current =>
    k.updateSection o fun work =>
      if work.external && work.publication = .prepared && current then
        k.finishUpdate o work .inFlight false
      else k.leave []
  | .unchanged o current =>
    k.updateSection o fun work =>
      if work.publication = .inFlight || work.publication = .unchanged then
        k.finishUpdate o work .unchanged current
      else k.leave []
  | .finish o current published =>
    k.updateSection o fun work =>
      if work.external && (work.publication = .inFlight || work.publication = .requested ||
          work.publication = .published) then
        let start := if work.publication = .inFlight then .requested else work.publication
        let (phase, complete) := advance start current published
        k.finishUpdate o work phase complete
      else k.leave []
  | .progress work current published =>
    let (k, woken, phase) := k.quarantine work
    let (phase, complete) := advance phase current published
    ⟨k, [], woken, [.free (if complete then .retire work else .defer { work with publication := phase })]⟩

/-- Code outside both locks. -/
def freeSection (k : Kernel ι κ γ) : FreeSection γ → Kernel ι κ γ × List (Call ι κ γ)
  | .use o use =>
    match use, (k.heap o).map Shared.object with
    | .await thread room, some (.memoryAdmission key (some _)) =>
      match (k.gates key).registerWaiter thread 64 room with
      | .ok g => ({ k.setGate key g with waits := (thread, o) :: k.waits }, [])
      | .error _ => (k, [])
    | .await thread true, some (.file stream _) =>
      match k.streams stream with
      | some pipe =>
        ({ k.retain o with
            streams := update k.streams stream (some { pipe with waiters := pipe.waiters ++ [thread] })
            waits := (thread, o) :: k.waits }, [])
      | none => (k, [])
    | .acquire pid key outcome room, some (.memoryAdmission key' ticket) =>
      if key' ≠ key then (k, [])
      else
        match (k.gates key).tryAcquire ticket with
        | .ok (g, true, woken) =>
          ((k.setGate key g).store o (.memoryAdmission key' none),
            wakeAll woken ++ [.table (.prepare pid key true true outcome room false false)])
        | _ => (k, [])
    | .begin current, some (.memoryUpdate _) => (k, [.table (.begin o current)])
    | .unchanged current, some (.memoryUpdate _) => (k, [.table (.unchanged o current)])
    | .publish current published, some (.memoryUpdate _) => (k, [.table (.finish o current published)])
    | _, _ => (k, [])
  | .createAdmission pid key intentRoom room =>
    match (k.gates key).intent intentRoom with
    | .error _ => (k, [])
    | .ok (g, ticket) =>
      let (k, o) := (k.setGate key g).allocate (.memoryAdmission key (some ticket))
      (k, [.table (.insert pid ⟨o, HandleRights.wait.union .transfer⟩ room)])
  | .createObject pid rights room =>
    let (k, o) := k.allocate .other
    (k, [.table (.insert pid ⟨o, rights⟩ room)])
  | .createStreamPair pid stream room room' =>
    match k.streams stream with
    | some _ => (k, [])
    | none =>
      let k := { k with streams := update k.streams stream (some ⟨1, 1, []⟩) }
      let (k, reader) := k.allocate (.file stream false)
      let (k, writer) := k.allocate (.file stream true)
      let shared := ((HandleRights.wait.union .control).union .duplicate).union .transfer
      (k, [.table (.insertPair pid ⟨reader, HandleRights.read.union shared⟩
        ⟨writer, HandleRights.write.union shared⟩ room room')])
  | .createUpdate pid work room =>
    let (k, o) := k.allocate (.memoryUpdate (some work))
    (k, [.table (.insert pid ⟨o, .control⟩ room)])
  | .spawn grants view room =>
    let objects := grants.map ObjectHandleEntry.object
    if room then
      let table := grants.foldl (fun t entry => (t.insert entry true).1) ObjectHandleTable.new
      -- the caller keeps its own references until the new process has been published, or refused
      ({ k.retainAll objects with nextProcess := k.nextProcess + 1 },
        .table (.addProcess ⟨k.nextProcess, false, view, table, []⟩) :: dropAll objects)
    else (k, dropAll objects)
  | .endWait thread =>
    match k.waits.find? fun w => w.1 = thread with
    | none => (k, [])
    | some (_, o) =>
      let k := { k with waits := k.waits.eraseP fun w => w.1 = thread }
      match (k.heap o).map Shared.object with
      | some (.memoryAdmission key _) => (k.setGate key ((k.gates key).removeWaiter thread), [])
      | some (.file stream _) => (k.removeStreamWaiter stream thread, [.drop o])
      | _ => (k, [])
  | .awaitExit thread pid => ({ k with exitWaiters := (thread, [pid]) :: k.exitWaiters }, [])
  | .notifyExit pid =>
    ({ k with exitWaiters := k.exitWaiters.filter fun w => pid ∉ w.2 },
      wakeAll ((k.exitWaiters.filter fun w => pid ∈ w.2).map Prod.fst))
  | .providerIo key =>
    match (k.gates key).tryLock with
    | some (g, true) => (k.setGate key g, [.free (.releaseIo key)])
    | _ => (k, [])
  | .releaseIo key =>
    let (k, woken) := k.onGate key Gate.dropGuard
    (k, wakeAll woken)
  | .flush current published =>
    ({ k with pending := [] }, k.pending.reverse.map fun work => .tryTable work current published)
  | .defer work => ({ k with pending := work :: k.pending }, [])
  | .retire work =>
    let (k, woken) := k.onGate work.key Gate.dropReservation
    (k, wakeAll woken)

/-- A section on the queue alone. -/
def queueSection [DecidableEq ι] (k : Kernel ι κ γ) (cpu : ι) : QueueSection → Kernel ι κ γ
  | .read => k
  | .selectNextThread current => { k with queue := (k.queue.selectNextThread cpu current).1 }
  | .setState id state => { k with queue := (k.queue.setState id state).1 }
  | .wakeWaiter id latchRunning => { k with queue := k.queue.wakeWaiter id latchRunning }
  | .takePendingWakeup id => { k with queue := (k.queue.takePendingWakeup id).1 }
  | .remove id => { k with queue := (k.queue.remove id).1 }
  | .suspendProcess pid => { k with queue := k.queue.suspendProcess pid }
  | .resumeProcess pid => { k with queue := k.queue.resumeProcess pid }
  | .holdImageSiblings pid owner => { k with queue := k.queue.holdImageSiblings pid owner }
  | .releaseImageHold id => { k with queue := k.queue.releaseImageHold id }

/-- `alloc_error_handler`, in a thread: `exit_current_process` looks its thread up and then its process. What
    comes after is not reached from under the process table, which the CPU has itself. -/
def allocErrorHandler : Code ι κ γ :=
  Call.code (.queue .read) ++ [.lock .processTable]

/-- What an act does, and the instructions that it makes the CPU run next. -/
def act [DecidableEq ι] (cpu : ι) (a : Act ι κ γ) (k : Kernel ι κ γ) : Kernel ι κ γ × Code ι κ γ :=
  match a with
  | .queue op => (k.queueSection cpu op, [])
  | .push t =>
    if 64 ≤ k.queue.count then (k, []) else (k, [.lock .processTable, .run (.pushLookup t)])
  | .pushLookup t =>
    (k, [.unlock .processTable, .run (.pushFinish t ((k.process t.processId).map Process.view))])
  | .pushFinish t view => ({ k with queue := (k.queue.push view t).getD k.queue }, [])
  | .threadLookup id =>
    if (k.queue.get id).isNone then (k, []) else (k, [.lock .processTable, .unlock .processTable])
  | .reclaim pid =>
    (k, .unlock .threadQueue ::
      if k.queue.countOf pid = 0 then Call.code (.table (.takeExited pid)) else [])
  | .table op =>
    let out := k.tableSection op
    (out.kernel, (dropAll out.dropped ++ wakeAll out.woken).flatMap Call.code ++
      .unlock .processTable :: out.after.flatMap Call.code)
  | .allocate pid granted =>
    -- the closure is not run if there is no process
    (k, if granted || (k.process pid).isNone then [.unlock .processTable] else allocErrorHandler)
  | .drop o =>
    let (k, woken, held) := k.dropObject o
    (k, (dropAll held ++ wakeAll woken).flatMap Call.code)
  | .free op =>
    let (k, calls) := k.freeSection op
    (k, calls.flatMap Call.code)

end Kernel

/-! ## The system -/

/-- Every CPU with what it still has to run, over one kernel. -/
abbrev Cpus (ι κ γ : Type) := Machine ι Lock (Act ι κ γ) (Kernel ι κ γ)

/-- A call, or the next instruction of a CPU. -/
inductive Label (ι κ γ : Type) where
  /-- A CPU that holds neither lock enters a piece of code. -/
  | call (cpu : ι) (c : Call ι κ γ)
  /-- A CPU runs its next instruction. -/
  | go (cpu : ι)

/-- The CPUs as a system. -/
def system (ι κ γ : Type) [DecidableEq ι] [DecidableEq γ] : System (Cpus ι κ γ) (Label ι κ γ) where
  init m := m = ⟨fun _ => none, fun _ => [], .boot⟩
  step m
    | .call cpu c => m.start cpu c.code
    | .go cpu => m.step Kernel.act cpu

end Mnu.Task.Locks
