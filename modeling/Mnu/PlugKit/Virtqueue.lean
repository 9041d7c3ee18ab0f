import Mnu.Lib.Run

/-!
# `Mnu.PlugKit.Virtqueue` — the split virtqueue of a driver

`SplitVirtqueue` of `plugkit/src/virtio/queue.rs`. The driver keeps the free descriptors on a stack and the
links of the chains it has handed to the device in a table of its own; what it writes to the queue memory it
never reads back, but for the used ring, which is the device's.

The device is not trusted. Before each access of the driver it may rewrite the whole queue memory
(`Device.rewrite`), and `sync_for_device` and `sync_for_cpu` may fail. A failed operation keeps what it has
changed so far, as `&mut self` does, so the operations return a result and a queue.

Offsets are natural numbers: a queue has at most `2 ^ 15` descriptors, and no sum of the source comes near
`usize::MAX`. `chains` records the chains that were handed out and not yet reported used. It is not there in
the source, and no operation looks at it.
-/

namespace Mnu.PlugKit.Virtqueue

open Mnu.Lib Function

/-! ## Layout -/

/-- The errors of this file among those of `VirtioError`. -/
inductive Error where
  | accessFailed
  | invalidQueueSize
  | queueFull
  | invalidDescriptor
  | invalidUsedIndex
  | dmaBufferTooSmall
  | commandTimeout
  deriving DecidableEq, Repr

/-- A buffer for the device. -/
structure Descriptor where
  address : UInt64
  length : UInt32
  deviceWritable : Bool
  deriving DecidableEq, Repr

/-- A chain that the device has done with. -/
structure UsedDescriptor where
  head : Nat
  written : UInt32
  deriving DecidableEq, Repr

/-- `VirtqueueLayout` -/
structure Layout where
  descriptorOffset : Nat
  availableOffset : Nat
  usedOffset : Nat
  totalSize : Nat
  deriving DecidableEq, Repr

/-- `align_up`. -/
def alignUp (value alignment : Nat) : Nat := (value + (alignment - 1)) / alignment * alignment

/-- `Layout::calculate`: tables, available ring and used ring. -/
def Layout.calculate (size : UInt16) : Except Error Layout :=
  if size < 2 ∨ !size.toNat.isPowerOfTwo then .error .invalidQueueSize
  else
    let count := size.toNat
    let descriptorBytes := count * 16
    let usedOffset := alignUp (descriptorBytes + (count * 2 + 6)) 4
    .ok ⟨0, descriptorBytes, usedOffset, usedOffset + (count * 8 + 6)⟩

/-! ## Memory -/

/-- The memory that driver and device share, and how often it was touched. -/
structure Memory where
  len : Nat
  bytes : Nat → UInt8
  /-- The accesses so far. -/
  turn : Nat

/-- What the device does before the access with this number, and whether a sync is successful. -/
structure Device where
  rewrite : Nat → (Nat → UInt8) → Nat → UInt8
  synced : Nat → Bool

/-- The device has its turn. -/
def Memory.tick (m : Memory) (dev : Device) : Memory :=
  { m with bytes := dev.rewrite m.turn m.bytes, turn := m.turn + 1 }

/-- Bytes stored at an offset. -/
def Memory.write (m : Memory) (offset : Nat) (value : List UInt8) : Memory :=
  { m with bytes := fun i => if offset ≤ i then value.getD (i - offset) (m.bytes i) else m.bytes i }

/-- `to_le_bytes` of a value of `count` bytes. -/
def toLeBytes (count value : Nat) : List UInt8 := (List.range count).map fun i =>
    UInt8.ofNat (value / 256 ^ i)

/-- A little-endian number at an offset. -/
def Memory.fromLeBytes (m : Memory) (offset count : Nat) : Nat :=
  ((List.range count).map fun i => (m.bytes (offset + i)).toNat * 256 ^ i).sum

/-! ## The queue -/

/-- `SplitQueue`: the rings, and what the driver knows of them. -/
structure Queue where
  memory : Memory
  size : UInt16
  layout : Layout
  /-- The stack of free descriptors, its top first. -/
  free : List Nat
  next : Nat → Option Nat
  activeHeads : Nat → Bool
  availableIndex : UInt16
  lastUsedIndex : UInt16
  chains : List (List Nat)

/-- A result, and the queue after it. -/
abbrev Result (α : Type) := Except Error α × Queue

/-- The rest of a call, unless it has failed. -/
def Result.bind {α β : Type} (r : Result α) (f : α → Queue → Result β) : Result β :=
  match r with
  | (.ok a, q) => f a q
  | (.error e, q) => (.error e, q)

/-- `SplitVirtqueue::new` -/
def new (memory : Memory) (size : UInt16) : Except Error Queue :=
  match Layout.calculate size with
  | .error e => .error e
  | .ok layout =>
    if memory.len < layout.totalSize then .error .dmaBufferTooSmall
    else .ok {
      memory := memory.write 0 (List.replicate layout.totalSize 0)
      size := size
      layout := layout
      free := List.range size.toNat
      next := fun _ => none
      activeHeads := fun _ => false
      availableIndex := 0
      lastUsedIndex := 0
      chains := [] }

section Operations

variable (dev : Device)

/-- An access to `count` bytes, after the device had its turn. -/
def access {α : Type} (q : Queue) (offset count : Nat) (f : Memory → α × Memory) : Result α :=
  let memory := q.memory.tick dev
  if offset + count ≤ memory.len then
    let (value, memory) := f memory
    (.ok value, { q with memory := memory })
  else (.error .dmaBufferTooSmall, { q with memory := memory })

/-- A load of the driver. -/
def read (q : Queue) (offset count : Nat) : Result Nat :=
  access dev q offset count fun m => (m.fromLeBytes offset count, m)

/-- A store of the driver. -/
def write (q : Queue) (offset count value : Nat) : Result Unit :=
  access dev q offset count fun m => ((), m.write offset (toLeBytes count value))

/-- `sync_for_device`, and `sync_for_cpu`. -/
def sync (q : Queue) : Result Unit :=
  let q := { q with memory := q.memory.tick dev }
  if dev.synced q.memory.turn then (.ok (), q) else (.error .accessFailed, q)

/-! ## Handing out -/

/-- The loop that takes `n` descriptors off the stack, and puts them back if there are not as many. -/
def allocate : Nat → List Nat → List Nat → Except (List Nat) (List Nat × List Nat)
  | 0, free, allocated => .ok (allocated, free)
  | _ + 1, [], allocated => .error allocated
  | n + 1, index :: free, allocated => allocate n free (allocated ++ [index])

/-- `write_descriptor`, field by field. -/
def writeDescriptor (q : Queue) (index : Nat) (d : Descriptor) (flags next : Nat) : Result Unit :=
  Result.bind (write dev q (index * 16) 8 d.address.toNat) fun _ q =>
  Result.bind (write dev q (index * 16 + 8) 4 d.length.toNat) fun _ q =>
  Result.bind (write dev q (index * 16 + 12) 2 flags) fun _ q =>
  write dev q (index * 16 + 14) 2 next

/-- The loop over the descriptors of a chain. -/
def writeChain (q : Queue) : List Nat → List Descriptor → Result Unit
  | index :: allocated, d :: ds =>
    let following := allocated.head?
    let flags := (if following.isSome then 1 else 0) + if d.deviceWritable then 2 else 0
    let q := { q with next := update q.next index following }
    Result.bind (writeDescriptor dev q index d flags (following.getD 0)) fun _ q => writeChain q allocated ds
  | _, _ => (.ok (), q)

/-- The chain is recorded and published in the available ring. -/
def publish (q : Queue) (allocated : List Nat) (head : Nat) : Result Nat :=
  let q := { q with activeHeads := update q.activeHeads head true, chains := allocated :: q.chains }
  let slot := (q.availableIndex % q.size).toNat
  Result.bind (write dev q (q.layout.availableOffset + 4 + slot * 2) 2 head) fun _ q =>
    let q := { q with availableIndex := q.availableIndex + 1 }
    Result.bind (write dev q (q.layout.availableOffset + 2) 2 q.availableIndex.toNat) fun _ q =>
    Result.bind (sync dev q) fun _ q => (.ok head, q)

/-- `enqueue`: the head of the chain. -/
def enqueue (q : Queue) (ds : List Descriptor) : Result Nat :=
  if ds = [] ∨ ∃ d ∈ ds, d.length = 0 then (.error .invalidDescriptor, q)
  else if q.free.length < ds.length then (.error .queueFull, q)
  else
    match allocate ds.length q.free [] with
    | .error allocated => (.error .queueFull, { q with free := allocated })
    | .ok (allocated, free) =>
      let head := allocated.headD 0
      if q.activeHeads head then (.error .invalidDescriptor, { q with free := allocated ++ free })
      else
        Result.bind (writeChain dev { q with free := free } allocated ds) fun _ q =>
          publish dev q allocated head

/-! ## Taking back -/

/-- The loop of `release_chain`. `left` is what is left of `size` after the descriptors released so far. -/
def releaseLoop (q : Queue) : Nat → Option Nat → Result Unit
  | _, none => (.ok (), q)
  | 0, some _ => (.error .invalidDescriptor, q)
  | left + 1, some index =>
    if q.size.toNat ≤ index then (.error .invalidDescriptor, q)
    else
      releaseLoop { q with next := update q.next index none, free := index :: q.free } left (q.next index)

/-- `release_chain`. -/
def releaseChain (q : Queue) (head : Nat) : Result Unit :=
  let q := { q with
    activeHeads := update q.activeHeads head false
    chains := q.chains.filter fun chain => chain.head? ≠ some head }
  releaseLoop q q.size.toNat (some head)

/-- `pop_used`: the next chain in the used ring, checked and released. -/
def popUsed (q : Queue) : Result (Option UsedDescriptor) :=
  Result.bind (sync dev q) fun _ q =>
  Result.bind (read dev q (q.layout.usedOffset + 2) 2) fun deviceIndex q =>
    let pending := UInt16.ofNat deviceIndex - q.lastUsedIndex
    if pending = 0 then (.ok none, q)
    else if q.size < pending then (.error .invalidUsedIndex, q)
    else
      let slot := (q.lastUsedIndex % q.size).toNat
      let elementOffset := q.layout.usedOffset + 4 + slot * 8
      Result.bind (read dev q elementOffset 4) fun head q =>
        -- `u16::try_from`
        if 2 ^ 16 ≤ head then (.error .invalidUsedIndex, q)
        else if q.size.toNat ≤ head ∨ !q.activeHeads head then (.error .invalidUsedIndex, q)
        else
          Result.bind (read dev q (elementOffset + 4) 4) fun written q =>
          Result.bind (releaseChain q head) fun _ q =>
            (.ok (some ⟨head, UInt32.ofNat written⟩), { q with lastUsedIndex := q.lastUsedIndex + 1 })

/-- The inner loop of `wait_for_used`: completions of other chains are dropped. Each round takes a chain back,
    so that `fuel` does not run out before there is none. -/
def drain (head : Nat) : Nat → Queue → Result (Option UsedDescriptor)
  | 0, q => (.ok none, q)
  | fuel + 1, q =>
    Result.bind (popUsed dev q) fun used q =>
      match used with
      | none => (.ok none, q)
      | some completed => if completed.head = head then (.ok (some completed), q) else drain head fuel q

/-- The outer loop, with a `poll` after each round. -/
def polls (head : Nat) : Nat → Queue → Result UsedDescriptor
  | 0, q => (.error .commandTimeout, q)
  | n + 1, q =>
    Result.bind (drain dev head (q.size.toNat + 1) q) fun used q =>
      match used with
      | some completed => (.ok completed, q)
      | none => polls head n q

/-- `wait_for_used`. -/
def waitForUsed (q : Queue) (head maxPolls : Nat) : Result UsedDescriptor :=
  if q.size.toNat ≤ head ∨ !q.activeHeads head then (.error .invalidDescriptor, q)
  else polls dev head maxPolls q

end Operations

/-! ## Runs -/

/-- A call of the driver. -/
inductive Call where
  | enqueue (ds : List Descriptor)
  | popUsed
  | waitForUsed (head : UInt16) (maxPolls : UInt32)

/-- A call, the device doing as it likes meanwhile. -/
structure Label where
  call : Call
  dev : Device

/-- A call, and what the device does meanwhile. -/
def step (q : Queue) (l : Label) : Option Queue :=
  some (match l.call with
    | .enqueue ds => (enqueue l.dev q ds).2
    | .popUsed => (popUsed l.dev q).2
    | .waitForUsed head maxPolls => (waitForUsed l.dev q head.toNat maxPolls.toNat).2)

/-- The queue as a system. -/
def virtqueue : System Queue Label where
  init q := ∃ memory size, new memory size = .ok q
  step := step

end Mnu.PlugKit.Virtqueue
