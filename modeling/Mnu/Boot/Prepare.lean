import Mnu.Boot.MemoryMap

/-!
# `Mnu.Boot.Prepare` — copying the boot information into the kernel

Model of `src/boot_memory.rs` and of `BootInfo::validate`. The kernel checks what the loader handed
over, collects the ranges it still refers to (its own image, the initfs and rootfs payloads, the SMP
trampoline and the stack it is running on), and rebuilds the memory map around them.

Pointers into loader memory are modelled by what they point to: `BootInfo.memoryMap` is the slice that
`memory_map_addr` and `memory_map_len` describe, `BootInfo.smpHandoff` the record at `smp_handoff_addr`.
The addresses stay as fields because the code tests them for zero.
-/

namespace Mnu.Boot

open Lib

/-- `BOOT_ABI_MAGIC`. -/
def bootAbiMagic : Nat := 0x00544f4f42554e4d
/-- `BOOT_ABI_VERSION`. -/
def bootAbiVersion : Nat := 2
/-- `MAX_CPU_IDS`. -/
def maxCpuIds : Nat := 64
/-- `MAX_BOOT_MEMORY_REGIONS`. -/
def maxBootMemoryRegions : Nat := 256

/-- `size_of::<BootInfo>()`, `size_of::<MemoryRegion>()` and `size_of::<SmpHandoff>()` under `repr(C)`. -/
def sizeOfBootInfo : Nat := 504
/-- The size of a `MemoryRegion`. -/
def sizeOfMemoryRegion : Nat := 24
/-- The size of an `SmpHandoff`. -/
def sizeOfSmpHandoff : Nat := 40

/-- Bit positions of the feature flags that `validate` reads. -/
def bootFeatureSystemSlot : Nat := 6
/-- The GUID of the boot ESP is given. -/
def bootFeatureBootEspGuid : Nat := 7

/-- A system without slots. -/
def bootSystemSlotLegacy : Nat := 0
/-- Slot A. -/
def bootSystemSlotA : Nat := 1
/-- Slot B. -/
def bootSystemSlotB : Nat := 2

/-- Why a `BootInfo` is refused. -/
inductive BootInfoError where
  | invalidMagic
  | unsupportedVersion
  | invalidStructSize
  | invalidMemoryMapEntrySize
  | invalidCpuCount
  | invalidSystemSlot
  | invalidBootEspGuid
  deriving DecidableEq

/-- The handoff to the other CPUs. -/
structure SmpHandoff where
  ready : Nat
  kernelSecondaryEntry : Nat
  bootInfoPtr : Nat
  kernelCr3 : Nat
  apCount : Nat
  deriving DecidableEq

/-- The fields of `BootInfo` that validation and preparation read or write. -/
structure BootInfo where
  magic : Nat
  abiVersion : Nat
  structSize : Nat
  featureFlags : Nat
  memoryMapAddr : Nat
  memoryMap : List MemoryRegion
  memoryMapEntrySize : Nat
  kernelHeapAddr : Nat
  initfsAddr : Nat
  initfsSize : Nat
  rootfsAddr : Nat
  rootfsSize : Nat
  cpuApicIdCount : Nat
  smpHandoffAddr : Nat
  smpHandoffSize : Nat
  smpHandoff : SmpHandoff
  smpTrampolineAddr : Nat
  smpTrampolineSize : Nat
  systemSlot : Nat
  bootEspGuid : List Nat
  deriving DecidableEq

/-- The system slot is announced exactly when it is one of the two real ones. -/
def BootInfo.systemSlotValid (info : BootInfo) : Bool :=
  if info.featureFlags.testBit bootFeatureSystemSlot then
    info.systemSlot = bootSystemSlotA || info.systemSlot = bootSystemSlotB
  else info.systemSlot = bootSystemSlotLegacy

/-- The ESP GUID is announced, together with a slot, exactly when it is not all zero. -/
def BootInfo.bootEspGuidValid (info : BootInfo) : Bool :=
  if info.featureFlags.testBit bootFeatureBootEspGuid then
    info.featureFlags.testBit bootFeatureSystemSlot && info.bootEspGuid ≠ List.replicate 16 0
  else info.bootEspGuid = List.replicate 16 0

/-- `BootInfo::validate`. -/
def BootInfo.validate (info : BootInfo) : Except BootInfoError Unit :=
  if info.magic ≠ bootAbiMagic then .error .invalidMagic
  else if info.abiVersion ≠ bootAbiVersion then .error .unsupportedVersion
  else if info.structSize < sizeOfBootInfo then .error .invalidStructSize
  else if info.memoryMapEntrySize ≠ sizeOfMemoryRegion then .error .invalidMemoryMapEntrySize
  else if maxCpuIds < info.cpuApicIdCount then .error .invalidCpuCount
  else if ¬ info.systemSlotValid then .error .invalidSystemSlot
  else if ¬ info.bootEspGuidValid then .error .invalidBootEspGuid
  else .ok ()

/-- Why the memory of the boot is refused. -/
inductive BootMemoryError where
  | invalidBootInfo (error : BootInfoError)
  | invalidMemoryMap
  | invalidKernelRange
  | invalidSmpHandoff
  | transform (error : MemoryMapTransformError)
  deriving DecidableEq

/-- `PAGE_SIZE`. -/
def pageSize : Nat := 4096
/-- `MAX_RESERVED_RANGES`. -/
def maxReservedRanges : Nat := 5
/-- Each reserved range adds at most two regions. -/
def reclaimedMemoryMapCapacity : Nat := maxBootMemoryRegions + maxReservedRanges * 2

/-- `page_range`: the pages that a byte range touches; nothing for an empty or wrapping range. -/
def pageRange (start len : Nat) : Option PhysicalRange :=
  if len = 0 then none
  else do
    let pageStart := start - start % pageSize
    let limit ← checkedAdd start len
    let rounded ← checkedAdd limit (pageSize - 1)
    let pageEnd := rounded - rounded % pageSize
    let len ← checkedSub pageEnd pageStart
    some ⟨pageStart, len⟩

/-- `push_reserved_range`: an absent range is skipped, a sixth one does not fit. -/
def pushReservedRange (ranges : List PhysicalRange) (range : Option PhysicalRange) :
    Except BootMemoryError (List PhysicalRange) :=
  match range with
  | none => .ok ranges
  | some range =>
    if ranges.length < maxReservedRanges then .ok (ranges ++ [range]) else .error .invalidMemoryMap

/-- `boot_stack_range`: the loader region the boot stack lies in, if it would be reclaimed. -/
def bootStackRange (stackPointer : Nat) :
    List MemoryRegion → Except BootMemoryError (Option PhysicalRange)
  | [] => .error .invalidMemoryMap
  | region :: rest => do
      let limit ← okOr .invalidMemoryMap (checkedAdd region.start region.len)
      if stackPointer < region.start ∨ limit ≤ stackPointer then bootStackRange stackPointer rest
      else
        match region.regionType with
        | .bootloaderReclaimable => .ok (some ⟨region.start, region.len⟩)
        | .usable => .error .invalidMemoryMap
        | _ => .ok none

/-- `usable_bytes`. -/
def usableBytes (memoryMap : List MemoryRegion) : Nat :=
  (memoryMap.filter fun region => region.regionType = .usable).foldl
    (fun total region => saturatingAdd total region.len) 0

/-- The ranges `prepare_boot_info` reserves, in the order it pushes them. -/
def reservedRanges (source : BootInfo) (kernelStart kernelLen stackPointer : Nat) :
    Except BootMemoryError (List PhysicalRange) := do
  let reserved ← pushReservedRange [] (pageRange kernelStart kernelLen)
  let reserved ← pushReservedRange reserved (pageRange source.initfsAddr source.initfsSize)
  let reserved ← pushReservedRange reserved (pageRange source.rootfsAddr source.rootfsSize)
  let reserved ←
    pushReservedRange reserved (pageRange source.smpTrampolineAddr source.smpTrampolineSize)
  let stack ← bootStackRange stackPointer source.memoryMap
  pushReservedRange reserved stack

/-- The SMP hand-off has an address exactly when it has a size, and then the right size. -/
def smpHandoffValid (source : BootInfo) : Bool :=
  if source.smpHandoffAddr = 0 then source.smpHandoffSize = 0
  else source.smpHandoffSize = sizeOfSmpHandoff

/-- Addresses of the statics preparation fills in. -/
structure KernelStatics where
  memoryMapAddr : Nat
  smpHandoffAddr : Nat

/-- What a successful preparation leaves behind: `KERNEL_BOOT_INFO` (with the map it points to), the
    copied SMP hand-off and `RECLAIMED_BYTES`. -/
structure PreparedBoot where
  info : BootInfo
  smpHandoff : Option SmpHandoff
  reclaimedBytes : Nat
  deriving DecidableEq

/-- The image of the kernel must be a non-empty range. -/
def kernelLength (kernelStart kernelEnd : Nat) : Except BootMemoryError Nat := do
  let len ← okOr .invalidKernelRange (checkedSub kernelEnd kernelStart)
  if len = 0 then .error .invalidKernelRange else .ok len

/-- The memory map must be there and fit. -/
def sourceMemoryMap (source : BootInfo) : Except BootMemoryError (List MemoryRegion) :=
  if source.memoryMap.length = 0 ∨ maxBootMemoryRegions < source.memoryMap.length then
    .error .invalidMemoryMap
  else if source.memoryMapAddr = 0 then .error .invalidMemoryMap
  else .ok source.memoryMap

/-- `prepare_boot_info`. -/
def prepareBootInfo (statics : KernelStatics) (source : Option BootInfo)
    (kernelStart kernelEnd stackPointer kernelHeapAddr : Nat) :
    Except BootMemoryError PreparedBoot := do
  let source ← okOr .invalidMemoryMap source
  mapErr .invalidBootInfo source.validate
  let memoryMap ← sourceMemoryMap source
  let kernelLen ← kernelLength kernelStart kernelEnd
  let reserved ← reservedRanges source kernelStart kernelLen stackPointer
  if smpHandoffValid source then do
    let output ←
      mapErr .transform (buildReclaimedMemoryMap memoryMap reserved reclaimedMemoryMapCapacity)
    .ok
      { info :=
          { source with
            kernelHeapAddr := kernelHeapAddr
            memoryMapAddr := statics.memoryMapAddr
            memoryMap := output
            smpHandoffAddr :=
              if source.smpHandoffAddr ≠ 0 then statics.smpHandoffAddr else source.smpHandoffAddr }
        smpHandoff := if source.smpHandoffAddr ≠ 0 then some source.smpHandoff else none
        reclaimedBytes := usableBytes output - usableBytes memoryMap }
  else .error .invalidSmpHandoff

/-! ## What an accepted boot has established -/

/-- **Inversion of `prepare_boot_info`.** An accepted boot rebuilt the loader's map around the reserved
    ranges, and that is the map it hands on. -/
theorem prepareBootInfo_ok {statics : KernelStatics} {source : BootInfo}
    {kernelStart kernelEnd stackPointer kernelHeapAddr : Nat} {prepared : PreparedBoot}
    (h : prepareBootInfo statics (some source) kernelStart kernelEnd stackPointer kernelHeapAddr =
      .ok prepared) :
    ∃ reserved,
      reservedRanges source kernelStart (kernelEnd - kernelStart) stackPointer = .ok reserved ∧
      buildReclaimedMemoryMap source.memoryMap reserved reclaimedMemoryMapCapacity =
        .ok prepared.info.memoryMap := by
  obtain ⟨src, hsrc, h⟩ := bind_eq_ok.mp h
  cases okOr_eq_ok.mp hsrc
  obtain ⟨_, _, h⟩ := bind_eq_ok.mp h
  obtain ⟨memoryMap, hmap, h⟩ := bind_eq_ok.mp h
  obtain ⟨kernelLen, hlen, h⟩ := bind_eq_ok.mp h
  obtain ⟨reserved, hres, hrun⟩ := bind_eq_ok.mp h
  have hmap : memoryMap = source.memoryMap := by
    unfold sourceMemoryMap at hmap
    split_ifs at hmap
    cases hmap
    rfl
  have hlen : kernelLen = kernelEnd - kernelStart := by
    obtain ⟨len, hsub, hlen⟩ := bind_eq_ok.mp hlen
    obtain ⟨_, rfl⟩ := checkedSub_eq_some.mp (okOr_eq_ok.mp hsub)
    split at hlen
    · cases hlen
    cases hlen
    rfl
  subst hmap hlen
  by_cases hsmp : smpHandoffValid source
  · rw [if_pos hsmp] at hrun
    obtain ⟨output, hout, hrun⟩ := bind_eq_ok.mp hrun
    cases hrun
    exact ⟨reserved, hres, mapErr_eq_ok.mp hout⟩
  · rw [if_neg hsmp] at hrun
    cases hrun

end Mnu.Boot
