import Mnu.Lib.Run
import Mnu.Ipc.Mailbox

/-!
# `Mnu.Ipc.Endpoint` — senders, receivers and the lifetimes of thread slots

The mailboxes of all thread slots, the part of the thread queue that decides which lifetime a slot has, and
any number of parties inside the kernel that send, receive, exit or replace an image. A party moves from one
locked section to the next; between two of its steps every other party may move.

Two locks matter. `MAILBOXES` is held over a whole section, so it is part of the state (`lock`).
`THREAD_QUEUE` is taken for single reads and writes only, so such an access is one step, also when it happens
inside a section: `endpoint_is_valid` is evaluated when the mailbox lock is taken, and the section goes on in
a later step, when the thread may have exited already.

An IPC generation is reserved first (`ipc_generation::reserve`) and used later, by a new thread or by an image
replacement. `accepted`, `seen`, `received` and `retired` record what happened, in order: the messages
accepted by a mailbox, the messages copied to a receiver, the messages returned to a receiver, and the
lifetimes whose retirement is complete.
-/

namespace Mnu.Ipc

open Mnu.Lib Function

/-- `ThreadQueue::MAX_THREADS`. -/
def maxThreads : Nat := 64

/-- What IPC reads of a thread in the queue. -/
structure IpcThread where
  id : Nat
  ipcGeneration : Nat
  terminated : Bool

/-- The slots of `THREAD_QUEUE`. -/
abbrev Threads := Nat → Option IpcThread

namespace Threads

/-- `slot_index`. -/
def slotIndex (threads : Threads) (id : Nat) : Option Nat :=
  (List.range maxThreads).find? fun slot => (threads slot).any fun thread => thread.id = id

/-- `ipc_slot_index_and_generation`. -/
def ipcSlotIndexAndGeneration (threads : Threads) (id : Nat) : Option (Nat × Nat) :=
  (threads.slotIndex id).bind fun slot =>
    (threads slot).bind fun thread =>
      if thread.ipcGeneration ≠ 0 then some (slot, thread.ipcGeneration) else none

/-- `live_ipc_slot_index_and_generation_by_u64`. -/
def liveIpcSlotIndexAndGeneration (threads : Threads) (id : Nat) : Option (Nat × Nat) :=
  (threads.slotIndex id).bind fun slot =>
    (threads slot).bind fun thread =>
      if thread.terminated then none else threads.ipcSlotIndexAndGeneration id

/-- `endpoint_is_valid`. -/
def endpointIsValid (threads : Threads) (endpoint : IpcEndpoint) : Bool :=
  threads.liveIpcSlotIndexAndGeneration endpoint.threadId = some (endpoint.slot, endpoint.generation)

/-- `endpoint_for_thread`. -/
def endpointForThread (threads : Threads) (id : Nat) : Option IpcEndpoint :=
  (threads.ipcSlotIndexAndGeneration id).map fun (slot, generation) => ⟨id, slot, generation⟩

/-- `set_state(id, Terminated)`. -/
def terminate (threads : Threads) (id : Nat) : Threads :=
  match threads.slotIndex id with
  | none => threads
  | some slot => update threads slot ((threads slot).map fun thread => { thread with terminated := true })

/-- `remove`. -/
def remove (threads : Threads) (id : Nat) : Threads :=
  match threads.slotIndex id with
  | none => threads
  | some slot => update threads slot none

/-- `replace_ipc_generation`: the new threads, with the slot and the previous generation. -/
def replaceIpcGeneration (threads : Threads) (id generation : Nat) : Option (Threads × Nat × Nat) :=
  (threads.slotIndex id).bind fun slot =>
    (threads slot).map fun thread =>
      (update threads slot (some { thread with ipcGeneration := generation }), slot, thread.ipcGeneration)

end Threads

/-- The arguments of a receive. The thread that calls is the one whose mailbox is read. -/
structure Receive where
  endpoint : IpcEndpoint
  acceptHandles : Bool
  reply : Option (Nat × Nat)
  blocking : Bool

/-- Where a party is. -/
inductive Pc (ω : Type) where
  | idle
  /-- A message is complete; `kernel` tells `push_message` from `enqueue_message`. -/
  | send (kernel : Bool) (message : Message ω)
  /-- The mailbox lock is held and the destination was valid when it was taken. -/
  | sendChecked (kernel : Bool) (message : Message ω)
  | receive (r : Receive)
  | receiveChecked (r : Receive)
  /-- The snapshot of a message is copied to the user, without the lock. -/
  | copying (r : Receive) (slot : Nat) (message : Message ω)
  | committing (r : Receive) (slot : Nat) (message : Message ω)
  /-- A call from inside the kernel waits for its reply. -/
  | awaitReply (filter : Mailbox.ReplyFilter)
  /-- `retire_endpoint` is due. -/
  | retire (endpoint : IpcEndpoint)

/-- Whether a party at this place has the mailbox lock. -/
def Pc.locked {ω : Type} : Pc ω → Bool
  | .sendChecked _ _ | .receiveChecked _ | .committing _ _ _ => true
  | _ => false

/-- The kernel and its parties, with what was accepted and delivered. -/
structure State (ι ω : Type) where
  threads : Threads
  nextGeneration : Nat
  reserved : List Nat
  boxes : Nat → Mailbox ω
  nextMessageId : Nat
  lock : Option ι
  pc : ι → Pc ω
  accepted : List (Message ω)
  seen : List (IpcEndpoint × Message ω)
  received : List (IpcEndpoint × Message ω)
  retired : List IpcEndpoint

/-- The settings the code reads from the kernel's configuration. -/
structure Config where
  mailboxCap : Nat
  maxMsgSize : Nat

/-- What may happen next. -/
inductive Label (ι ω : Type) where
  /-- `ipc_generation::reserve`. -/
  | reserve
  /-- `ThreadQueue::push`; a thread without a reserved generation has generation zero. -/
  | addThread (slot id generation : Nat)
  /-- `begin_thread_exit`, as far as it marks the thread. -/
  | beginExit (id : Nat)
  /-- `mark_thread_terminated`, or `set_thread_state` to `Terminated`. -/
  | terminate (a : ι) (id : Nat)
  /-- `remove_thread`. -/
  | removeThread (a : ι) (id : Nat)
  /-- `remove_quiescent_terminated_thread`. -/
  | removeQuiescent (id : Nat)
  /-- `replace_thread_image_endpoint`, up to the retirement. -/
  | replaceImage (a : ι) (id generation : Nat)
  /-- `retire_endpoint`. -/
  | retire (a : ι)
  | startSend (a : ι) (kernel : Bool) (message : Message ω)
  | lockSend (a : ι)
  | enqueue (a : ι) (allocated : Bool)
  | startReceive (a : ι) (id : Nat) (acceptHandles : Bool) (reply : Option (Nat × Nat)) (blocking : Bool)
  | lockReceive (a : ι)
  | snapshot (a : ι) (allocated : Bool)
  | lockCommit (a : ι)
  | commit (a : ι)
  | startReply (a : ι) (id sender callId : Nat)
  | popReply (a : ι)
  /-- A call ends with an error: a failed copy, a vanished destination, a wait that is given up. -/
  | giveUp (a : ι)

namespace State

variable {ι ω : Type} [DecidableEq ι]

/-- A party goes on. -/
def goto (s : State ι ω) (a : ι) (pc : Pc ω) : State ι ω :=
  { s with pc := update s.pc a pc }

/-- A mailbox written back. -/
def setBox (s : State ι ω) (slot : Nat) (box : Mailbox ω) : State ι ω :=
  { s with boxes := update s.boxes slot box }

/-- `retire_thread_endpoint`: a thread with a generation has its endpoint retired next. -/
def retireNext (s : State ι ω) (a : ι) (endpoint : Option IpcEndpoint) : State ι ω :=
  s.goto a (endpoint.elim .idle .retire)

/-- The mailbox lock is taken and the endpoint checked: go on at `pc`, or end the call with `NotFound`. -/
def lockChecked (s : State ι ω) (a : ι) (endpoint : IpcEndpoint) (pc : Pc ω) : Option (State ι ω) :=
  if s.lock.isSome then none
  else if endpoint.slot < maxThreads ∧ s.threads.endpointIsValid endpoint = true then
    some ({ s with lock := some a }.goto a pc)
  else some (s.goto a .idle)

/-- The section of a send, after the check. -/
def enqueueStep (config : Config) (s : State ι ω) (a : ι) (kernel : Bool) (message : Message ω)
    (allocated : Bool) : State ι ω :=
  let box := s.boxes message.toSlot
  let (box, next, accepted) :=
    if kernel then box.pushMessage config.mailboxCap config.maxMsgSize allocated message s.nextMessageId
    else box.enqueueMessage config.mailboxCap message s.nextMessageId
  let s := { s.setBox message.toSlot (if accepted then box.takeWaiter.1 else box) with
    nextMessageId := next
    lock := none }
  if accepted then
    { s with accepted := s.accepted ++ [{ message with messageId := next - 1 }] }.goto a .idle
  else s.goto a .idle

/-- The section of `copy_selected` that takes the snapshot. -/
def snapshotStep (s : State ι ω) (a : ι) (r : Receive) (allocated : Bool) : State ι ω :=
  let s := { s with lock := none }
  match (s.boxes r.endpoint.slot).snapshotReceive r.endpoint r.acceptHandles r.reply allocated with
  | .error _ => s.goto a .idle
  | .ok none =>
    if r.blocking then
      -- a waiting receive registers its thread and comes back
      (s.setBox r.endpoint.slot { s.boxes r.endpoint.slot with waiter := r.endpoint.threadId }).goto a
        (.receive r)
    else s.goto a .idle
  | .ok (some (slot, message)) =>
    { s with seen := s.seen ++ [(r.endpoint, message)] }.goto a (.copying r slot message)

/-- The section of `copy_selected` that commits; a call that was received may be answered later. -/
def commitStep (s : State ι ω) (a : ι) (r : Receive) (slot : Nat) (snapshot : Message ω) : State ι ω :=
  let (box, next, committed) :=
    (s.boxes r.endpoint.slot).commitReceive slot snapshot.messageId s.nextMessageId
  let s := ({ s.setBox r.endpoint.slot box with nextMessageId := next, lock := none }).goto a .idle
  match committed with
  | .error _ => s
  | .ok message =>
    let s := { s with received := s.received ++ [(r.endpoint, message)] }
    match if r.reply = none ∧ message.expectsReply = true then
        s.threads.ipcSlotIndexAndGeneration r.endpoint.threadId else none with
    | some (callerSlot, generation) =>
      s.setBox callerSlot ((s.boxes callerSlot).addReplyTarget message.sender message.callId
        (r.endpoint.threadId, generation))
    | none => s

/-- The section in which a call from inside the kernel looks for its reply. -/
def popReplyStep (s : State ι ω) (a : ι) (filter : Mailbox.ReplyFilter) : State ι ω :=
  let slot := filter.receiver.slot
  let (box, next, taken) := (s.boxes slot).popReply filter s.nextMessageId
  match taken with
  | none => { s.setBox slot { box with waiter := filter.receiver.threadId } with nextMessageId := next }
  | some message =>
    { s.setBox slot box with
      nextMessageId := next
      received := s.received ++ [(filter.receiver, message)] }.goto a .idle

/-- `retire_endpoint`. -/
def retireStep (s : State ι ω) (a : ι) (endpoint : IpcEndpoint) : State ι ω :=
  if endpoint.slot < maxThreads then
    let (box, next, _) := (s.boxes endpoint.slot).retireDestination endpoint s.nextMessageId
    let current := s.threads.ipcSlotIndexAndGeneration endpoint.threadId
    let stale := box.waiter = endpoint.threadId ∧
      current.all (fun identity => identity = (endpoint.slot, endpoint.generation)) = true
    { s.setBox endpoint.slot (if stale then { box with waiter := 0 } else box) with
      nextMessageId := next
      retired := endpoint :: s.retired }.goto a .idle
  else { s with retired := endpoint :: s.retired }.goto a .idle

/-- One step of the whole system. -/
def step (config : Config) (s : State ι ω) : Label ι ω → Option (State ι ω)
  | .reserve =>
    if s.nextGeneration + 1 < 2 ^ 64 then
      some { s with nextGeneration := s.nextGeneration + 1, reserved := s.nextGeneration :: s.reserved }
    else none
  | .addThread slot id generation =>
    if slot < maxThreads ∧ (s.threads slot).isNone = true ∧ s.threads.slotIndex id = none ∧
        (generation = 0 ∨ generation ∈ s.reserved) then
      some { s with
        threads := update s.threads slot (some ⟨id, generation, false⟩)
        reserved := s.reserved.erase generation }
    else none
  | .beginExit id => some { s with threads := s.threads.terminate id }
  | .terminate a id =>
    match s.pc a with
    | .idle =>
      some ({ s with threads := s.threads.terminate id }.retireNext a (s.threads.endpointForThread id))
    | _ => none
  | .removeThread a id =>
    match s.pc a with
    | .idle => some ({ s with threads := s.threads.remove id }.retireNext a (s.threads.endpointForThread id))
    | _ => none
  | .removeQuiescent id =>
    -- `retire_process_threads` has run `terminate_thread` on this thread before, to its end
    if (s.threads.endpointForThread id).all (fun endpoint => s.retired.contains endpoint) = true then
      some { s with threads := s.threads.remove id }
    else none
  | .replaceImage a id generation =>
    match s.pc a, s.threads.replaceIpcGeneration id generation with
    | .idle, some (threads, slot, previous) =>
      if generation ∈ s.reserved then
        some ({ s with threads := threads, reserved := s.reserved.erase generation }.goto a
          (.retire ⟨id, slot, previous⟩))
      else none
    | _, _ => none
  | .retire a =>
    match s.pc a, s.lock with
    | .retire endpoint, none => some (s.retireStep a endpoint)
    | _, _ => none
  | .startSend a kernel message =>
    match s.pc a with
    | .idle => if message.messageId = 0 then some (s.goto a (.send kernel message)) else none
    | _ => none
  | .lockSend a =>
    match s.pc a with
    | .send kernel message => s.lockChecked a message.endpoint (.sendChecked kernel message)
    | _ => none
  | .enqueue a allocated =>
    match s.pc a with
    | .sendChecked kernel message => some (s.enqueueStep config a kernel message allocated)
    | _ => none
  | .startReceive a id acceptHandles reply blocking =>
    match s.pc a, s.threads.endpointForThread id with
    | .idle, some endpoint => some (s.goto a (.receive ⟨endpoint, acceptHandles, reply, blocking⟩))
    | _, _ => none
  | .lockReceive a =>
    match s.pc a with
    | .receive r => s.lockChecked a r.endpoint (.receiveChecked r)
    | _ => none
  | .snapshot a allocated =>
    match s.pc a with
    | .receiveChecked r => some (s.snapshotStep a r allocated)
    | _ => none
  | .lockCommit a =>
    match s.pc a with
    | .copying r slot message => s.lockChecked a r.endpoint (.committing r slot message)
    | _ => none
  | .commit a =>
    match s.pc a with
    | .committing r slot message => some (s.commitStep a r slot message)
    | _ => none
  | .startReply a id sender callId =>
    match s.pc a, s.threads.endpointForThread id with
    | .idle, some endpoint => some (s.goto a (.awaitReply ⟨sender, callId, endpoint⟩))
    | _, _ => none
  | .popReply a =>
    match s.pc a, s.lock with
    | .awaitReply filter, none => some (s.popReplyStep a filter)
    | _, _ => none
  | .giveUp a => if (s.pc a).locked then none else
      match s.pc a with
      | .retire _ => none
      | _ => some (s.goto a .idle)

/-- No thread has been created yet and every mailbox is empty. -/
def initial : State ι ω where
  threads := fun _ => none
  nextGeneration := 1
  reserved := []
  boxes := fun _ => .new
  nextMessageId := 1
  lock := none
  pc := fun _ => .idle
  accepted := []
  seen := []
  received := []
  retired := []

end State

/-- The IPC system of one kernel. -/
def system (ι ω : Type) [DecidableEq ι] (config : Config) : System (State ι ω) (Label ι ω) where
  init s := s = State.initial
  step := State.step config

end Mnu.Ipc
