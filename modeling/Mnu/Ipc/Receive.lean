import Mnu.Ipc.Endpoint
import Mnu.Task.HandleTableInv

/-!
# `Mnu.Ipc.Receive` — one receive system call

Model of the receive calls (`src/syscall/ipc.rs`, `src/syscall/ipc/receive.rs`): `recv`, `recv_blocking`,
`wait`, `recv_object_handles` and the receiving half of `call`. A call is a sequence of locked sections with
user copies between them. It selects a message and copies its bytes out (`copy_selected`), commits to it under
the mailbox lock, and then installs the attachments (`install_received_object_handles`): it reserves a
selector for each one under the lock of the receiver's process, copies the selectors out, and publishes the
reservations.

The rest of the kernel moves between any two steps of the call, by the operations on mailboxes, on the thread
queue and on handle tables. Each section of the call itself is recorded with the kernel before and after it
(`own`), which is what the call has to answer for.
-/

namespace Mnu.Ipc

open Mnu.Lib Mnu.Task Function

/-- What a receive call reads and writes. -/
structure Kernel (ω : Type) where
  threads : Threads
  boxes : Nat → Mailbox ω
  nextMessageId : Nat
  /-- `thread_to_process_id`. -/
  processOf : Nat → Option Nat
  /-- The object handles of the processes that exist. -/
  tables : Nat → Option (ObjectHandleTable ω)
  /-- `NEXT_PROCESS_ID`. -/
  nextProcess : Nat

namespace Kernel

variable {ω : Type}

/-- No thread and no process exists yet. -/
def boot : Kernel ω where
  threads := fun _ => none
  boxes := fun _ => .new
  nextMessageId := 1
  processOf := fun _ => none
  tables := fun _ => none
  nextProcess := 1

/-- A mailbox written back. -/
def setBox (k : Kernel ω) (slot : Nat) (box : Mailbox ω) : Kernel ω :=
  { k with boxes := update k.boxes slot box }

/-- A handle table written back. -/
def setTable (k : Kernel ω) (pid : Nat) (table : ObjectHandleTable ω) : Kernel ω :=
  { k with tables := update k.tables pid (some table) }

end Kernel

/-! ## The others -/

/-- What the rest of the kernel does. -/
inductive Op (ω : Type) where
  /-- Threads start, exit or get another generation. -/
  | threads (threads : Threads)
  | processes (processOf : Nat → Option Nat)
  /-- `enqueue_message`. -/
  | enqueue (configured : Nat) (message : Message ω)
  /-- `push_message`. -/
  | push (configured maxMsgSize : Nat) (allocated : Bool) (message : Message ω)
  /-- `commit_receive` by another call. -/
  | commit (slot index id : Nat)
  /-- `pop_reply_copy`. -/
  | popReply (filter : Mailbox.ReplyFilter)
  /-- `retire_destination`. -/
  | retire (endpoint : IpcEndpoint)
  /-- The waiter and the reply authority of a mailbox change. -/
  | annotate (slot waiter : Nat) (replyTargets : List ReplyTarget) (replyOwner : Option (Nat × Nat))
  /-- A process starts with an empty handle table. -/
  | spawn
  | reap (pid : Nat)
  | table (pid : Nat) (op : ObjectHandleTable.Op ω)

/-- A message as the senders hand it over: without an identity, and with no more attachments than
    `decode_outgoing_object_handles` lets pass. -/
def Message.outgoing {ω : Type} (message : Message ω) : Bool :=
  message.messageId = 0 && message.objectHandles.handles.length ≤ maxObjectHandles

/-- One operation of the others. -/
def Kernel.apply {ω : Type} (k : Kernel ω) : Op ω → Option (Kernel ω)
  | .threads threads => some { k with threads := threads }
  | .processes processOf => some { k with processOf := processOf }
  | .enqueue configured message =>
    if message.outgoing then
      let (box, next, _) := (k.boxes message.toSlot).enqueueMessage configured message k.nextMessageId
      some { k.setBox message.toSlot box with nextMessageId := next }
    else none
  | .push configured maxMsgSize allocated message =>
    if message.outgoing then
      let (box, next, _) :=
        (k.boxes message.toSlot).pushMessage configured maxMsgSize allocated message k.nextMessageId
      some { k.setBox message.toSlot box with nextMessageId := next }
    else none
  | .commit slot index id =>
    let (box, next, _) := (k.boxes slot).commitReceive index id k.nextMessageId
    some { k.setBox slot box with nextMessageId := next }
  | .popReply filter =>
    let (box, next, _) := (k.boxes filter.receiver.slot).popReply filter k.nextMessageId
    some { k.setBox filter.receiver.slot box with nextMessageId := next }
  | .retire endpoint =>
    let (box, next, _) := (k.boxes endpoint.slot).retireDestination endpoint k.nextMessageId
    some { k.setBox endpoint.slot box with nextMessageId := next }
  | .annotate slot waiter replyTargets replyOwner =>
    some (k.setBox slot { k.boxes slot with
      waiter := waiter
      replyTargets := replyTargets
      replyOwner := replyOwner })
  | .spawn => some { k.setTable k.nextProcess .new with nextProcess := k.nextProcess + 1 }
  | .reap pid => some { k with tables := update k.tables pid none }
  | .table pid op => (k.tables pid).map fun table => k.setTable pid (table.apply op)

/-! ## Installing the attachments -/

section Install

variable {ω : Type}

/-- The loop that reserves a selector for each attachment; `index` counts them for the allocator's answers. -/
def reserveAll (owner : Nat) (room : Nat → Bool) :
    Nat → List (ObjectHandleEntry ω) → ObjectHandleTable ω → List HandleReservation →
      ObjectHandleTable ω × List HandleReservation × Bool
  | _, [], table, reserved => (table, reserved, true)
  | index, entry :: rest, table, reserved =>
    match table.reserve owner entry (room index) with
    | (table, none) => (table, reserved, false)
    | (table, some ticket) => reserveAll owner room (index + 1) rest table (reserved ++ [ticket])

/-- The loop that publishes; if one ticket fails, those published before are taken back. -/
def publishAll : List HandleReservation → List HandleReservation → ObjectHandleTable ω →
    ObjectHandleTable ω × Bool
  | [], _, table => (table, true)
  | ticket :: rest, published, table =>
    match table.publishReserved ticket with
    | (table, true) => publishAll rest (published ++ [ticket]) table
    | (table, false) => (published.foldl (fun table ticket => (table.takeEntry ticket.handle).1) table, false)

/-- The section that publishes: first the whole batch is checked. -/
def publication (tickets : List HandleReservation) (table : ObjectHandleTable ω) :
    ObjectHandleTable ω × Bool :=
  if tickets.all table.isReserved then publishAll tickets [] table else (table, false)

/-- `cancel_received_reservations`. -/
def cancelAll (tickets : List HandleReservation) (table : ObjectHandleTable ω) : ObjectHandleTable ω :=
  tickets.foldl (fun table ticket => (table.cancelReserved ticket).1) table

end Install

/-! ## The call -/

/-- The arguments of a receive. The thread that calls is the one whose mailbox is read. -/
structure Call where
  receiver : Nat
  maxCopy : Nat
  /-- Whether there is an output for the handles of attachments. -/
  output : Bool
  blocking : Bool
  /-- The sender and the call that are to be answered, and the endpoint that was called. -/
  reply : Option (Nat × Nat × IpcEndpoint)

/-- The filter that `copy_selected` is given. -/
def Call.awaited (call : Call) : Option (Nat × Nat) :=
  call.reply.map fun (sender, callId, _) => (sender, callId)

/-- What a successful call returns. -/
structure Received where
  sender : Nat
  copyLen : Nat
  expectsReply : Bool
  deriving DecidableEq

namespace Call

/-- Where the call is. -/
inductive Pc (ω : Type) where
  /-- The slot and the generation of the receiver are not known yet. -/
  | resolve
  /-- `copy_selected` begins; a blocking call tries twice before it sleeps. -/
  | select (endpoint : IpcEndpoint) (again : Bool)
  | copying (endpoint : IpcEndpoint) (slot : Nat) (snapshot : Message ω)
  | commit (endpoint : IpcEndpoint) (slot : Nat) (snapshot : Message ω)
  /-- `wait_message` has its answer and clears the waiter. -/
  | clear (endpoint : IpcEndpoint) (outcome : Except Error (Message ω))
  /-- Nothing was found twice. -/
  | await (endpoint : IpcEndpoint)
  | asleep (endpoint : IpcEndpoint)
  /-- `finish_user_receive`. -/
  | finish (message : Message ω)
  | copyOut (pid : Nat) (tickets : List HandleReservation) (message : Message ω)
  | publish (pid : Nat) (tickets : List HandleReservation) (message : Message ω)
  | cancel (pid : Nat) (tickets : List HandleReservation) (error : Error)
  | done (result : Except Error Received)

/-- The kernel, and where the call is. -/
structure State (ω : Type) where
  kernel : Kernel ω
  pc : Pc ω
  /-- The sections of the call so far, each with the kernel before and after it. -/
  own : List (Kernel ω × Kernel ω)

/-- A step of the call, or of anyone else. -/
inductive Label (ω : Type) where
  | other (op : Op ω)
  | resolve
  | select (allocated : Bool)
  | copy (failure : Option Error)
  /-- `later` is the thread queue as the lookup of the caller finds it, which is after the endpoint check. -/
  | commit (later : Threads)
  | clear
  | await
  | wake
  | finish
  | reserve (room : Nat → Bool)
  | copyOut (failure : Option Error)
  | publish
  | cancel

variable {ω : Type}

/-- A call before anything has happened. -/
def State.initial : State ω := ⟨.boot, .resolve, []⟩

/-- A section of the call ends with the kernel `k`. -/
def State.leave (s : State ω) (k : Kernel ω) (pc : Pc ω) : State ω := ⟨k, pc, s.own ++ [(s.kernel, k)]⟩

/-- The call goes on. -/
def State.goto (s : State ω) (pc : Pc ω) : State ω := { s with pc := pc }

/-- Go on with the outcome of `copy_message` or `wait_message`. -/
def received : Except Error (Message ω) → Pc ω
  | .error error => .done (.error error)
  | .ok message => .finish message

/-- `copy_selected` returns. -/
def settle (call : Call) (endpoint : IpcEndpoint) (outcome : Except Error (Message ω)) : Pc ω :=
  if call.blocking then .clear endpoint outcome else received outcome

/-- `clear_waiter`. -/
def clearWaiter (k : Kernel ω) (endpoint : IpcEndpoint) : Kernel ω :=
  if k.threads.endpointIsValid endpoint = true ∧ (k.boxes endpoint.slot).waiter = endpoint.threadId then
    k.setBox endpoint.slot { k.boxes endpoint.slot with waiter := 0 }
  else k

/-- The first section of `copy_selected`. -/
def selectSection (call : Call) (s : State ω) (endpoint : IpcEndpoint) (again allocated : Bool) : State ω :=
  let k := s.kernel
  if !k.threads.endpointIsValid endpoint then s.leave k (call.settle endpoint (.error .notFound))
  else
    match (k.boxes endpoint.slot).snapshotReceive endpoint call.output call.awaited allocated with
    | .error error => s.leave k (call.settle endpoint (.error error))
    | .ok (some (slot, snapshot)) => s.leave k (.copying endpoint slot snapshot)
    | .ok none =>
      if call.blocking then
        s.leave (k.setBox endpoint.slot { k.boxes endpoint.slot with waiter := endpoint.threadId })
          (if again then .await endpoint else .select endpoint true)
      else s.leave k (.done (.error .notReady))

/-- The second section of `copy_selected`. -/
def commitSection (call : Call) (s : State ω) (endpoint : IpcEndpoint) (slot : Nat) (snapshot : Message ω)
    (later : Threads) : State ω :=
  let k := s.kernel
  if !k.threads.endpointIsValid endpoint then s.leave k (call.settle endpoint (.error .notFound))
  else
    let (box, next, committed) :=
      (k.boxes endpoint.slot).commitReceive slot snapshot.messageId k.nextMessageId
    let k := { k.setBox endpoint.slot box with nextMessageId := next }
    match committed with
    | .error error => s.leave k (call.settle endpoint (.error error))
    | .ok message =>
      match if call.reply.isNone && message.expectsReply then
          later.ipcSlotIndexAndGeneration endpoint.threadId else none with
      | some (callerSlot, generation) =>
        s.leave (k.setBox callerSlot ((k.boxes callerSlot).addReplyTarget message.sender message.callId
          (endpoint.threadId, generation))) (call.settle endpoint (.ok message))
      | none => s.leave k (call.settle endpoint (.ok message))

/-- The answer of a call that has come to its end. -/
def answer (call : Call) (message : Message ω) : Received :=
  ⟨message.sender, min message.len call.maxCopy, call.reply.isNone && message.expectsReply⟩

/-- The section in which the attachments get their selectors. -/
def reserveSection (call : Call) (s : State ω) (message : Message ω) (room : Nat → Bool) : State ω :=
  if maxObjectHandles < message.objectHandles.handles.length then s.goto (.done (.error .backingFailure))
  else
    match s.kernel.processOf call.receiver with
    | none => s.goto (.done (.error .notReady))
    | some pid =>
      match s.kernel.tables pid with
      | none => s.goto (.done (.error .notReady))
      | some table =>
        match reserveAll call.receiver room 0 message.objectHandles.handles table [] with
        | (table, tickets, true) => s.leave (s.kernel.setTable pid table) (.copyOut pid tickets message)
        | (table, tickets, false) =>
          s.leave (s.kernel.setTable pid table) (.cancel pid tickets .resourceUnavailable)

/-- The section in which the reservations become entries. -/
def publishSection (call : Call) (s : State ω) (pid : Nat) (tickets : List HandleReservation)
    (message : Message ω) : State ω :=
  match s.kernel.tables pid with
  | none => s.goto (.done (.error .notReady))
  | some table =>
    match publication tickets table with
    | (table, true) => s.leave (s.kernel.setTable pid table) (.done (.ok (call.answer message)))
    | (table, false) => s.leave (s.kernel.setTable pid table) (.cancel pid tickets .backingFailure)

/-- One step: of the others, or of the call. -/
def step (call : Call) (s : State ω) (l : Label ω) : Option (State ω) :=
  match l, s.pc with
  | .other op, _ => (s.kernel.apply op).map fun k => { s with kernel := k }
  | .resolve, .resolve =>
    match s.kernel.threads.ipcSlotIndexAndGeneration call.receiver with
    | none => some (s.goto (.done (.error .notReady)))
    | some (slot, generation) =>
      if maxThreads ≤ slot then some (s.goto (.done (.error .backingFailure)))
      else some (s.goto (.select ⟨call.receiver, slot, generation⟩ false))
  | .select allocated, .select endpoint again => some (call.selectSection s endpoint again allocated)
  | .copy failure, .copying endpoint slot snapshot =>
    match failure with
    | some error => some (s.goto (call.settle endpoint (.error error)))
    | none => some (s.goto (.commit endpoint slot snapshot))
  | .commit later, .commit endpoint slot snapshot => some (call.commitSection s endpoint slot snapshot later)
  | .clear, .clear endpoint outcome => some (s.leave (clearWaiter s.kernel endpoint) (received outcome))
  | .await, .await endpoint =>
    -- the endpoint that was called may be gone, and then nobody will answer
    if call.reply.any fun (_, _, destination) => !s.kernel.threads.endpointIsValid destination then
      some (s.goto (.clear endpoint (.error .notFound)))
    else some (s.goto (.asleep endpoint))
  | .wake, .asleep endpoint => some (s.leave (clearWaiter s.kernel endpoint) (.select endpoint false))
  | .finish, .finish message =>
    if call.output then none
    else if message.objectHandles.handles.isEmpty then some (s.goto (.done (.ok (call.answer message))))
    else some (s.goto (.done (.error .limitExceeded)))
  | .reserve room, .finish message => if call.output then some (call.reserveSection s message room) else none
  | .copyOut failure, .copyOut pid tickets message =>
    match failure with
    | some error => some (s.goto (.cancel pid tickets error))
    | none => some (s.goto (.publish pid tickets message))
  | .publish, .publish pid tickets message => some (call.publishSection s pid tickets message)
  | .cancel, .cancel pid tickets error =>
    match s.kernel.tables pid with
    | none => some (s.goto (.done (.error error)))
    | some table => some (s.leave (s.kernel.setTable pid (cancelAll tickets table)) (.done (.error error)))
  | _, _ => none

end Call

/-- One receive call among everything else the kernel does. -/
def Call.system (ω : Type) (call : Call) : System (Call.State ω) (Call.Label ω) where
  init s := s = .initial
  step := call.step

end Mnu.Ipc
