import Mnu.Boot.MemoryMap
import Mnu.Lib.Run
import Mnu.Lib.RingBuffer

/-!
# `Mnu.Mem.Frame` — the physical frame allocator

Model of `frame.rs`. New frames come from a cursor that runs over the usable regions of the memory map. A
freed frame waits in a ring of 32 before it goes to the free list, which is threaded through the frames
themselves: the first word of a free frame is the address of the next, the second a cookie made from the
address and a secret. The cookie is how a second free is noticed, and how an entry of the list is trusted.

Addresses are `u64`, with the saturating and wrapping operations of the source. `memory` holds the first two
words of every frame, which the allocator reads and writes through the direct map once `physMappingReady` is
set, and which the holder of a frame may overwrite. Counters and log messages are left out.
-/

namespace Mnu.Mem

open Mnu.Lib Mnu.Boot Function

/-- `FRAME_QUARANTINE_CAP`. -/
def frameQuarantineCap : Nat := 32

/-- `FRAME_FREE_COOKIE_CONST`. -/
def frameFreeCookieConst : UInt64 := 0x8f1d3b792c4a6e15

/-- `MnuFrameAllocator`, with the words of the frames that it uses. -/
structure FrameAllocator where
  memoryMap : List MemoryRegion
  nextFrame : Nat
  nextRegion : Nat
  freeListHead : Nat
  quarantine : Nat → Nat
  quarantineHead : Nat
  quarantineLen : Nat
  freeCookieSeed : UInt64
  physMappingReady : Bool
  memory : Nat → Nat × UInt64

/-- `value & !0xfff`. -/
def pageFloor (value : Nat) : Nat := value / 4096 * 4096

/-- `align_up(value, 4096)`. -/
def alignUp (value : Nat) : Nat := pageFloor (saturatingAdd value 4095)

/-- The end of a region as the two scans compute it. -/
def regionEnd (region : MemoryRegion) : Nat := pageFloor (saturatingAdd region.start region.len)

namespace FrameAllocator

/-- `new`: the first megabyte is left alone. -/
def new (memoryMap : List MemoryRegion) (seed : UInt64) (memory : Nat → Nat × UInt64) : FrameAllocator where
  memoryMap := memoryMap
  nextFrame := 0x100000 / 4096
  nextRegion := 0
  freeListHead := 0
  quarantine := fun _ => 0
  quarantineHead := 0
  quarantineLen := 0
  freeCookieSeed := seed
  physMappingReady := false
  memory := memory

/-- `free_cookie`. -/
def freeCookie (a : FrameAllocator) (phys : Nat) : UInt64 :=
  let value := a.freeCookieSeed ^^^ phys.toUInt64 ^^^ frameFreeCookieConst
  let value := value ^^^ (value >>> 33)
  let value := value * 0xff51afd7ed558ccd
  let value := value ^^^ (value >>> 33)
  let value := value * 0xc4ceb9fe1a85ec53
  value ^^^ (value >>> 33)

/-- `read_frame_meta`. -/
def readFrameMeta (a : FrameAllocator) (phys : Nat) : Option (Nat × UInt64) :=
  if a.physMappingReady then some (a.memory phys) else none

/-- `write_frame_meta`, and `clear_frame_meta` with zeros. -/
def writeFrameMeta (a : FrameAllocator) (phys next : Nat) (cookie : UInt64) : FrameAllocator :=
  if a.physMappingReady then { a with memory := update a.memory phys (next, cookie) } else a

/-- `push_free_list`. -/
def pushFreeList (a : FrameAllocator) (phys : Nat) : FrameAllocator :=
  { a.writeFrameMeta phys a.freeListHead (a.freeCookie phys) with freeListHead := phys }

/-- `release_quarantine_oldest`. -/
def releaseQuarantineOldest (a : FrameAllocator) : FrameAllocator :=
  if a.quarantineLen = 0 then a
  else
    let phys := a.quarantine a.quarantineHead
    { a with
      quarantine := update a.quarantine a.quarantineHead 0
      quarantineHead := (a.quarantineHead + 1) % frameQuarantineCap
      quarantineLen := a.quarantineLen - 1 }.pushFreeList phys

/-- The second half of `quarantine_push`, when there is room. -/
def quarantineInsert (a : FrameAllocator) (phys : Nat) : FrameAllocator :=
  let insertAt := (a.quarantineHead + a.quarantineLen) % frameQuarantineCap
  { a with
    quarantine := update a.quarantine insertAt phys
    quarantineLen := a.quarantineLen + 1 }.writeFrameMeta phys 0 (a.freeCookie phys)

/-- `quarantine_push`. -/
def quarantinePush (a : FrameAllocator) (phys : Nat) : FrameAllocator :=
  if frameQuarantineCap = 0 then a.pushFreeList phys
  else if frameQuarantineCap ≤ a.quarantineLen then a.releaseQuarantineOldest.quarantineInsert phys
  else a.quarantineInsert phys

/-- `is_usable_frame_addr`. The end of a region wraps. -/
def isUsableFrameAddr (a : FrameAllocator) (phys : Nat) : Bool :=
  a.memoryMap.any fun r =>
    r.regionType = .usable && r.start ≤ phys && phys < (r.start + r.len) % wordBound

/-- `MnuFrameAllocator::deallocate_frame`. -/
def deallocateFrame (a : FrameAllocator) (phys : Nat) : FrameAllocator × Bool :=
  if phys % 4096 ≠ 0 then (a, false)
  else if !a.isUsableFrameAddr phys then (a, false)
  else if !a.physMappingReady then (a, false)
  else
    match a.readFrameMeta phys with
    | some (_, cookie) => if cookie = a.freeCookie phys then (a, false) else (a.quarantinePush phys, true)
    | none => (a.quarantinePush phys, true)

/-- The first address that the cursor has not passed. -/
def minPhys (a : FrameAllocator) : Nat := min (a.nextFrame * 4096) (wordBound - 1)

/-- The loop of `allocate_frame` over the regions from `next_region` on. It returns the new `next_region`. -/
def bumpScan (minPhys : Nat) : List (MemoryRegion × Nat) → Nat → Nat × Option Nat
  | [], nextRegion => (nextRegion, none)
  | (region, index) :: rest, nextRegion =>
    if region.regionType ≠ .usable ∨ region.len < 4096 then bumpScan minPhys rest nextRegion
    else if regionEnd region ≤ alignUp region.start then bumpScan minPhys rest nextRegion
    else if regionEnd region ≤ max (alignUp region.start) minPhys then
      bumpScan minPhys rest (saturatingAdd index 1)
    else (index, some (max (alignUp region.start) minPhys))

/-- The part of `allocate_frame` that takes a new frame. -/
def bump (a : FrameAllocator) : FrameAllocator × Option Nat :=
  match bumpScan a.minPhys (a.memoryMap.zipIdx.drop a.nextRegion) a.nextRegion with
  | (nextRegion, none) => ({ a with nextRegion := nextRegion }, none)
  | (nextRegion, some phys) =>
    ({ a with nextRegion := nextRegion, nextFrame := phys / 4096 + 1 }, some phys)

/-- The part of `allocate_frame` that takes a frame from the free list. A list that cannot be trusted is
    dropped. -/
def popFreeList (a : FrameAllocator) : FrameAllocator × Option Nat :=
  let phys := a.freeListHead
  if phys = 0 then (a, none)
  else if phys % 4096 ≠ 0 ∨ !a.isUsableFrameAddr phys then ({ a with freeListHead := 0 }, none)
  else
    match a.readFrameMeta phys with
    | none => ({ a with freeListHead := 0 }, none)
    | some (next, cookie) =>
      if cookie = a.freeCookie phys then
        let head := if next ≠ 0 ∧ next % 4096 = 0 ∧ a.isUsableFrameAddr next then next else 0
        ({ a with freeListHead := head }.writeFrameMeta phys 0 0, some phys)
      else ({ a with freeListHead := 0 }, none)

/-- `allocate_frame`. -/
def allocateFrame (a : FrameAllocator) : FrameAllocator × Option Nat :=
  let a := if a.freeListHead = 0 ∧ a.quarantineLen ≠ 0 then a.releaseQuarantineOldest else a
  match a.popFreeList with
  | (a, some phys) => (a, some phys)
  | (a, none) => a.bump

/-- The loop of `reserve_contiguous_region`: the index, the start and the end of what is found. -/
def reserveScan (minPhys bytes : Nat) : List (MemoryRegion × Nat) → Option (Nat × Nat × Nat)
  | [] => none
  | (region, index) :: rest =>
    if region.regionType ≠ .usable ∨ region.len < bytes then reserveScan minPhys bytes rest
    else if regionEnd region ≤ alignUp region.start then reserveScan minPhys bytes rest
    else
      let phys := max (alignUp region.start) minPhys
      match checkedAdd phys bytes with
      | none => none
      | some stop =>
        if regionEnd region < stop then reserveScan minPhys bytes rest else some (index, phys, stop)

/-- `reserve_contiguous_region`. -/
def reserveContiguousRegion (a : FrameAllocator) (pageCount : Nat) : FrameAllocator × Option Nat :=
  if pageCount = 0 then (a, none)
  else
    let bytes := min (pageCount * 4096) (wordBound - 1)
    match reserveScan a.minPhys bytes (a.memoryMap.zipIdx.drop a.nextRegion) with
    | none => (a, none)
    | some (index, phys, stop) => ({ a with nextRegion := index, nextFrame := stop / 4096 }, some phys)

end FrameAllocator

/-! ## The allocator and its callers -/

/-- The frames of a reservation. -/
def framesFrom (phys pageCount : Nat) : List Nat := (List.range pageCount).map fun i => phys + 4096 * i

namespace Frame

/-- `held` are the frames that callers hold, `issued` all that were ever handed out. -/
structure State where
  alloc : FrameAllocator
  held : List Nat
  issued : List Nat

/-- A call of the allocator, or a write to a frame. -/
inductive Label where
  /-- `set_phys_offset`. -/
  | setPhysOffset
  | allocate
  | reserve (pageCount : Nat)
  | free (frame : Nat)
  /-- A holder writes to its frame. -/
  | overwrite (frame next : Nat) (cookie : UInt64)

/-- Hand out a frame for the first time, or again. -/
def State.give (s : State) (alloc : FrameAllocator) (frames : List Nat) : State :=
  ⟨alloc, frames ++ s.held, frames.filter (fun f => f ∉ s.issued) ++ s.issued⟩

/-- What each call does to the allocator, and to who holds what. -/
def step (s : State) : Label → Option State
  | .setPhysOffset => some { s with alloc := { s.alloc with physMappingReady := true } }
  | .allocate =>
    match s.alloc.allocateFrame with
    | (alloc, none) => some { s with alloc := alloc }
    | (alloc, some phys) => some (s.give alloc [phys])
  | .reserve pageCount =>
    match s.alloc.reserveContiguousRegion pageCount with
    | (alloc, none) => some { s with alloc := alloc }
    | (alloc, some phys) => some (s.give alloc (framesFrom phys pageCount))
  | .free frame =>
    if frame ∈ s.held then
      match s.alloc.deallocateFrame frame with
      | (alloc, true) => some { s with alloc := alloc, held := s.held.erase frame }
      | (alloc, false) => some { s with alloc := alloc }
    else none
  | .overwrite frame next cookie =>
    if frame ∈ s.held then
      some { s with alloc := { s.alloc with memory := update s.alloc.memory frame (next, cookie) } }
    else none

/-- The runs from a new allocator over a memory map, with any secret and any contents of memory. -/
def system (memoryMap : List MemoryRegion) : System State Label where
  init s := ∃ seed memory, s = ⟨.new memoryMap seed memory, [], []⟩
  step := step

end Frame

end Mnu.Mem
