import Mnu.Lib.RingBuffer
import Mnu.Task.HandleTable

/-!
# `Mnu.Ipc.Mailbox` — the message queue of a thread slot

Model of `Mailbox` (`src/syscall/ipc.rs`, `src/syscall/ipc/receive.rs`). A mailbox owns sixty-four message
slots. A ring holds the indices of the queued ones in order, a stack the indices of the unused ones. A message
names its destination by thread, slot and generation, since the mailbox belongs to the reusable slot and not
to the thread.

Three operations take messages out of the middle of the ring, and all three do it by rotating: an entry that
stays is read at the head and written back at the tail. `retire_destination` and `commit_receive` go round
once; `pop_reply_copy` stops at the reply it was looking for.

Storage found inconsistent is given up as a whole (`quarantine`). `NEXT_MESSAGE_ID` is passed in and out as
`next`; `configured` is the mailbox limit of the kernel's configuration, and `allocated` says whether the heap
granted a message.
-/

namespace Mnu.Ipc

open Mnu.Lib Mnu.Task Function

/-- The native status codes that IPC returns (`mnu_abi::status::Error`). -/
inductive Error where
  | invalidArgument
  | invalidAddress
  | notFound
  | notReady
  | accessDenied
  | limitExceeded
  | resourceUnavailable
  | backingFailure
  deriving DecidableEq

/-- `MAILBOX_CAP`. -/
def mailboxCap : Nat := 64

/-- `IPC_MAX_OBJECT_HANDLES`. -/
def maxObjectHandles : Nat := 4

/-- `IpcEndpoint`: one IPC lifetime of a thread. -/
structure IpcEndpoint where
  threadId : Nat
  slot : Nat
  generation : Nat
  deriving DecidableEq

/-- `ObjectHandleAttachments`; its `count` is the length of `handles`. -/
structure ObjectHandleAttachments (ω : Type) where
  deliveryFlags : Nat
  handles : List (ObjectHandleEntry ω)

/-- `Message`. The field `sender` is the source's `from`, and `data` its first `len` bytes onwards. -/
structure Message (ω : Type) where
  messageId : Nat
  sender : Nat
  toThread : Nat
  toSlot : Nat
  toGeneration : Nat
  isReply : Bool
  expectsReply : Bool
  callId : Nat
  len : Nat
  data : List UInt8
  objectHandles : ObjectHandleAttachments ω

/-- The lifetime a message was sent to. -/
def Message.endpoint {ω : Type} (message : Message ω) : IpcEndpoint :=
  ⟨message.toThread, message.toSlot, message.toGeneration⟩

/-- Who a reply goes to, and for which call. -/
structure ReplyTarget where
  endpoint : Nat
  callId : Nat
  deriving DecidableEq

/-- The mailbox of a thread slot: slots, a stack of the free ones, and a ring of the queued. -/
structure Mailbox (ω : Type) extends RingBuffer Nat where
  slots : Nat → Option (Message ω)
  free : Nat → Nat
  freeCount : Nat
  waiter : Nat
  replyTargets : List ReplyTarget
  replyOwner : Option (Nat × Nat)

/-- `ipc_mailbox_cap`. -/
def ipcMailboxCap (configured : Nat) : Nat := max 2 (min configured mailboxCap)

namespace Mailbox

variable {ω : Type}

/-- `new`. -/
def new : Mailbox ω where
  head := 0
  tail := 0
  count := 0
  queue := fun _ => 0
  slots := fun _ => none
  free := fun i => i
  freeCount := mailboxCap
  waiter := 0
  replyTargets := []
  replyOwner := none

/-- `slots.get(idx)`. -/
def message (m : Mailbox ω) (idx : Nat) : Option (Message ω) :=
  if idx < mailboxCap then m.slots idx else none

/-- `quarantine`: every message is released and the mailbox starts afresh. -/
def quarantine (_ : Mailbox ω) : Mailbox ω := new

/-! ## Slots -/

/-- `reserve_slot`. One place in the queue is kept for the reply of a synchronous call. -/
def reserveSlot (m : Mailbox ω) (configured : Nat) (isReply : Bool) : Mailbox ω × Option Nat :=
  if m.freeCount = 0 || ipcMailboxCap configured - (if isReply then 0 else 1) ≤ m.count then (m, none)
  else
    let m := { m with freeCount := m.freeCount - 1 }
    let idx := m.free m.freeCount
    if mailboxCap ≤ idx || (m.slots idx).isSome then (m.quarantine, none) else (m, some idx)

/-- `take_slot`: the message leaves its slot and the slot goes back to the unused ones. -/
def takeSlot (m : Mailbox ω) (idx : Nat) : Mailbox ω × Option (Message ω) :=
  if mailboxCap ≤ idx then (m.quarantine, none)
  else if mailboxCap ≤ m.freeCount then (m.quarantine, none)
  else if (List.range m.freeCount).any fun i => m.free i = idx then (m.quarantine, none)
  else
    match m.slots idx with
    | none => (m.quarantine, none)
    | some message =>
      ({ m with
          slots := update m.slots idx none
          free := update m.free m.freeCount idx
          freeCount := m.freeCount + 1 }, some message)

/-- `enqueue_slot`. A message that has no identity yet gets the next one; there is no wrap-around. -/
def enqueueSlot (m : Mailbox ω) (slot next : Nat) : Option (Mailbox ω × Nat) :=
  if mailboxCap ≤ m.count then none
  else
    match m.message slot with
    | none => none
    | some message =>
      if message.messageId = 0 then
        if next + 1 < 2 ^ 64 then
          some ({ m with
            toRingBuffer := m.toRingBuffer.enqueue mailboxCap slot
            slots := update m.slots slot (some { message with messageId := next }) }, next + 1)
        else none
      else some ({ m with toRingBuffer := m.toRingBuffer.enqueue mailboxCap slot }, next)

/-- `dequeue_slot`. -/
def dequeueSlot (m : Mailbox ω) : Option (Nat × Mailbox ω) :=
  (m.toRingBuffer.dequeue mailboxCap).map fun (slot, ring) => (slot, { m with toRingBuffer := ring })

/-! ## Sending -/

/-- What `enqueue_message` and `push_message` share: a reserved slot takes the message and joins the queue.
    The answer says whether the message was accepted; a rejected one is released. -/
def fillSlot (m : Mailbox ω) (message : Message ω) (slot next : Nat) : Mailbox ω × Nat × Bool :=
  let m := { m with slots := update m.slots slot (some message) }
  match m.enqueueSlot slot next with
  | none => ((m.takeSlot slot).1, next, false)
  | some (m, next) => (m, next, true)

/-- `enqueue_message`. -/
def enqueueMessage (m : Mailbox ω) (configured : Nat) (message : Message ω) (next : Nat) :
    Mailbox ω × Nat × Bool :=
  match m.reserveSlot configured message.isReply with
  | (m, none) => (m, next, false)
  | (m, some slot) => m.fillSlot message slot next

/-- `push_message`: the kernel's own messages. They never use the place kept for replies. -/
def pushMessage (m : Mailbox ω) (configured maxMsgSize : Nat) (allocated : Bool) (message : Message ω)
    (next : Nat) : Mailbox ω × Nat × Bool :=
  if maxMsgSize < message.len || !allocated then (m, next, false)
  else
    match m.reserveSlot configured false with
    | (m, none) => (m, next, false)
    | (m, some slot) => m.fillSlot message slot next

/-- `take_waiter`. -/
def takeWaiter (m : Mailbox ω) : Mailbox ω × Nat := ({ m with waiter := 0 }, m.waiter)

/-! ## Reply authority -/

/-- `add_reply_target`. -/
def addReplyTarget (m : Mailbox ω) (endpoint callId : Nat) (owner : Nat × Nat) : Mailbox ω :=
  let m := if m.replyOwner = some owner then m else { m with replyTargets := [], replyOwner := some owner }
  if endpoint ≠ 0 ∧ callId ≠ 0 ∧ ⟨endpoint, callId⟩ ∉ m.replyTargets then
    { m with replyTargets := m.replyTargets ++ [⟨endpoint, callId⟩] }
  else m

/-! ## Removal -/

/-- The loop of `retire_destination`, for the entries still to be visited. -/
def retireLoop (endpoint : IpcEndpoint) :
    Nat → Mailbox ω → Nat → List (Message ω) → Mailbox ω × Nat × List (Message ω)
  | 0, m, next, retired => (m, next, retired)
  | n + 1, m, next, retired =>
    match m.dequeueSlot with
    | none => (m, next, retired)
    | some (slot, m) =>
      match m.message slot with
      | none => (m.quarantine, next, retired)
      | some message =>
        if message.endpoint = endpoint then
          match m.takeSlot slot with
          | (m, none) => (m, next, retired)
          | (m, some message) => retireLoop endpoint n m next (retired ++ [message])
        else
          match m.enqueueSlot slot next with
          | none => (m.quarantine, next, retired)
          | some (m, next) => retireLoop endpoint n m next retired

/-- `retire_destination`: the messages of one lifetime leave the queue, and its reply authority ends. -/
def retireDestination (m : Mailbox ω) (endpoint : IpcEndpoint) (next : Nat) :
    Mailbox ω × Nat × List (Message ω) :=
  if mailboxCap < m.count then (m.quarantine, next, [])
  else
    let (m, next, retired) := retireLoop endpoint m.count m next []
    if m.replyOwner = some (endpoint.threadId, endpoint.generation) then
      ({ m with replyTargets := [], replyOwner := none }, next, retired)
    else (m, next, retired)

/-- What `pop_reply_copy` looks for. -/
structure ReplyFilter where
  sender : Nat
  callId : Nat
  receiver : IpcEndpoint

/-- The test of `pop_reply_copy`. -/
def ReplyFilter.accepts (filter : ReplyFilter) (message : Message ω) : Bool :=
  message.sender = filter.sender && message.callId = filter.callId && message.endpoint = filter.receiver &&
    message.isReply

/-- The loop of `pop_reply_copy`: it returns with the first match, and the entries it passed on the way are
    then behind those it did not visit. -/
def popReplyLoop (filter : ReplyFilter) : Nat → Mailbox ω → Nat → Mailbox ω × Nat × Option (Message ω)
  | 0, m, next => (m, next, none)
  | n + 1, m, next =>
    match m.dequeueSlot with
    | none => (m, next, none)
    | some (slot, m) =>
      match m.message slot with
      | none => (m.quarantine, next, none)
      | some message =>
        if filter.accepts message then
          let (m, taken) := m.takeSlot slot
          (m, next, taken)
        else
          match m.enqueueSlot slot next with
          | none => ((m.takeSlot slot).1, next, none)
          | some (m, next) => popReplyLoop filter n m next

/-- `pop_reply_copy`, with the whole message it frees. -/
def popReply (m : Mailbox ω) (filter : ReplyFilter) (next : Nat) : Mailbox ω × Nat × Option (Message ω) :=
  popReplyLoop filter m.count m next

/-- `pop_reply_copy`: the sender and the bytes that fit into the output. -/
def popReplyCopy (m : Mailbox ω) (filter : ReplyFilter) (outputLen next : Nat) :
    Mailbox ω × Nat × Option (Nat × List UInt8) :=
  let (m, next, taken) := m.popReply filter next
  (m, next, taken.map fun message => (message.sender, message.data.take (min message.len outputLen)))

/-! ## Receiving in two phases -/

/-- The message a receive selects: the first in the queue for this lifetime and, if a reply is awaited, from
    this sender to this call. -/
def selects (endpoint : IpcEndpoint) (reply : Option (Nat × Nat)) (message : Message ω) : Bool :=
  message.endpoint = endpoint &&
    reply.all fun (sender, callId) => message.sender = sender && message.callId = callId && message.isReply

/-- The loop of `snapshot_receive` over the queued slots, up to the copy. -/
def selectLoop (m : Mailbox ω) (endpoint : IpcEndpoint) (acceptHandles : Bool) (reply : Option (Nat × Nat)) :
    List Nat → Except Error (Option (Nat × Message ω))
  | [] => .ok none
  | slot :: rest =>
    match m.message slot with
    | none => .error .backingFailure
    | some message =>
      if !selects endpoint reply message then selectLoop m endpoint acceptHandles reply rest
      else if !acceptHandles && !message.objectHandles.handles.isEmpty then .error .limitExceeded
      else if message.messageId = 0 || message.data.length < message.len then .error .backingFailure
      else .ok (some (slot, message))

/-- The slots named by the queue, in order. -/
def queued (m : Mailbox ω) : List Nat := m.toRingBuffer.toList mailboxCap

/-- `snapshot_receive`: the slot selected and the message in it, of which the caller copies the identity and
    the first bytes. -/
def snapshotReceive (m : Mailbox ω) (endpoint : IpcEndpoint) (acceptHandles : Bool)
    (reply : Option (Nat × Nat)) (allocated : Bool) : Except Error (Option (Nat × Message ω)) :=
  if mailboxCap < m.count then .error .backingFailure
  else
    match m.selectLoop endpoint acceptHandles reply m.queued with
    | .ok (some selected) => if allocated then .ok (some selected) else .error .resourceUnavailable
    | other => other

/-- The loop of `commit_receive`: one turn of the queue without `slot`. -/
def commitLoop (slot : Nat) : Nat → Mailbox ω → Nat → Mailbox ω × Nat × Bool
  | 0, m, next => (m, next, true)
  | n + 1, m, next =>
    match m.dequeueSlot with
    | none => (m, next, false)
    | some (queued, m) =>
      if queued = slot then commitLoop slot n m next
      else
        match m.enqueueSlot queued next with
        | none => (m, next, false)
        | some (m, next) => commitLoop slot n m next

/-- `commit_receive`: take the message `id` out of its slot and out of the queue. -/
def commitReceive (m : Mailbox ω) (slot id next : Nat) : Mailbox ω × Nat × Except Error (Message ω) :=
  if mailboxCap < m.count then (m, next, .error .backingFailure)
  else if !((m.message slot).any fun message => message.messageId = id) then (m, next, .error .notFound)
  else if slot ∉ m.queued then (m, next, .error .backingFailure)
  else
    match commitLoop slot m.count m next with
    | (m, next, false) => (m, next, .error .backingFailure)
    | (m, next, true) =>
      match m.takeSlot slot with
      | (m, none) => (m, next, .error .backingFailure)
      | (m, some message) => (m, next, .ok message)

end Mailbox

end Mnu.Ipc
