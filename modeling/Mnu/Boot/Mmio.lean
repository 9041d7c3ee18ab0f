import Mnu.Boot.Prepare

/-!
# `Mnu.Boot.Mmio` — which physical ranges a driver may map

Model of `is_allowed_mmio_range` in `src/mem/frame.rs`, scanned over the memory map that boot
preparation built. A request is allowed when it lies inside one region of an allowed type, or when it
meets no region at all (a hole of the map, where PCI windows live).

The scan is about ranges; by `isAllowedMmioRange_byte` it is decided byte by byte. Together with the
byte-wise reading of the rebuilt map (`buildReclaimedMemoryMap_carries`) this answers what the check
protects: usable RAM always, a reserved range only as far as the loader had not already given its bytes
one of the types that drivers may map.
-/

namespace Mnu.Boot

open Lib

/-- `ALLOW_RECLAIMABLE_MMIO`. -/
def allowReclaimableMmio : Bool := false

/-- `mmio_region_type_allowed`. -/
def mmioRegionTypeAllowed : MemoryType → Bool
  | .badMemory => false
  | .reserved | .acpiNvs | .framebuffer => true
  | .acpiReclaimable | .bootloaderReclaimable => allowReclaimableMmio
  | _ => false

/-- The loop of `is_allowed_mmio_range`, with its two flags and its early return. -/
def mmioScan (startPhys endPhys : Nat) : List MemoryRegion → Bool → Bool → Bool
  | [], overlapsAny, fullyContainedInAllowed => fullyContainedInAllowed || !overlapsAny
  | region :: rest, overlapsAny, fullyContainedInAllowed =>
    if region.len = 0 then mmioScan startPhys endPhys rest overlapsAny fullyContainedInAllowed
    else
      match checkedAdd region.start (region.len - 1) with
      | none => mmioScan startPhys endPhys rest overlapsAny fullyContainedInAllowed
      | some regionEnd =>
        if ¬ (startPhys ≤ regionEnd ∧ region.start ≤ endPhys) then
          mmioScan startPhys endPhys rest overlapsAny fullyContainedInAllowed
        else if mmioRegionTypeAllowed region.regionType = false then false
        else
          mmioScan startPhys endPhys rest true
            (fullyContainedInAllowed || (region.start ≤ startPhys && endPhys ≤ regionEnd))

/-- `is_allowed_mmio_range`; the first argument is the map of the frame allocator, if there is one. -/
def isAllowedMmioRange (alloc : Option (List MemoryRegion)) (startPhys size : Nat) : Bool :=
  if size = 0 then false
  else
    match checkedAdd startPhys (size - 1) with
    | none => false
    | some endPhys =>
      match alloc with
      | none => false
      | some memoryMap => mmioScan startPhys endPhys memoryMap false false

/-! ## What the scan decides -/

/-- A region the scan looks at: not empty and not wrapping. -/
def Scanned (region : MemoryRegion) : Prop :=
  region.len ≠ 0 ∧ region.start + (region.len - 1) < wordBound

/-- Overlap by inclusive ends, as the scan tests it. -/
def Meets (startPhys endPhys : Nat) (region : MemoryRegion) : Prop :=
  startPhys ≤ region.start + (region.len - 1) ∧ region.start ≤ endPhys

/-- Containment by inclusive ends, as the scan tests it. -/
def Holds (startPhys endPhys : Nat) (region : MemoryRegion) : Prop :=
  region.start ≤ startPhys ∧ endPhys ≤ region.start + (region.len - 1)

/-- **The scan, as a statement about the whole map.** Every scanned region the request meets has an
    allowed type, and one of them holds the request unless it meets none. -/
theorem mmioScan_eq_true {startPhys endPhys : Nat} (hse : startPhys ≤ endPhys) :
    ∀ (map : List MemoryRegion) (overlapsAny contained : Bool),
      mmioScan startPhys endPhys map overlapsAny contained = true ↔
        (∀ region ∈ map, Scanned region → Meets startPhys endPhys region →
          mmioRegionTypeAllowed region.regionType = true) ∧
        ((contained = true ∨ ∃ region ∈ map, Scanned region ∧ Holds startPhys endPhys region) ∨
          (overlapsAny = false ∧ ∀ region ∈ map, Scanned region → ¬ Meets startPhys endPhys region)) := by
  intro map
  induction map with
  | nil =>
    intro overlapsAny contained
    simp [mmioScan]
  | cons region rest ih =>
    intro overlapsAny contained
    -- a region that is skipped changes neither side
    have hskip : (Scanned region → ¬ Meets startPhys endPhys region) →
        (mmioScan startPhys endPhys rest overlapsAny contained = true ↔
          (∀ r ∈ region :: rest, Scanned r → Meets startPhys endPhys r →
            mmioRegionTypeAllowed r.regionType = true) ∧
          ((contained = true ∨ ∃ r ∈ region :: rest, Scanned r ∧ Holds startPhys endPhys r) ∨
            (overlapsAny = false ∧ ∀ r ∈ region :: rest, Scanned r → ¬ Meets startPhys endPhys r))) := by
      intro hmiss
      have hout : ¬ (Scanned region ∧ Holds startPhys endPhys region) := by
        rintro ⟨hscan, hlo, hhi⟩
        exact hmiss hscan ⟨by omega, by omega⟩
      have hall : Scanned region → Meets startPhys endPhys region →
          mmioRegionTypeAllowed region.regionType = true := fun h1 h2 => absurd h2 (hmiss h1)
      rw [ih]
      simp only [List.forall_mem_cons, List.exists_mem_cons_iff, hout, false_or]
      rw [and_iff_right hall, and_iff_right hmiss]
    unfold mmioScan
    by_cases hlen : region.len = 0
    · rw [if_pos hlen]
      exact hskip (fun h => absurd hlen h.1)
    · rw [if_neg hlen]
      cases hend : checkedAdd region.start (region.len - 1) with
      | none =>
        have := checkedAdd_eq_none.mp hend
        exact hskip (fun h => absurd h.2 (by omega))
      | some regionEnd =>
        obtain ⟨hlt, rfl⟩ := checkedAdd_eq_some.mp hend
        have hscan : Scanned region := ⟨hlen, hlt⟩
        by_cases hmeet : startPhys ≤ region.start + (region.len - 1) ∧ region.start ≤ endPhys
        · have hmeets : Meets startPhys endPhys region := hmeet
          simp only [hmeet, and_self, not_true_eq_false, if_false]
          cases htype : mmioRegionTypeAllowed region.regionType with
          | false => simp [hscan, hmeets, htype]
          | true =>
            rw [if_neg (by simp), ih]
            simp only [List.forall_mem_cons, List.exists_mem_cons_iff, hscan, hmeets, htype,
              Holds, Bool.or_eq_true, Bool.and_eq_true, decide_eq_true_eq, true_and,
              forall_const, or_assoc, reduceCtorEq, false_and, not_true_eq_false, and_false, or_false]
        · simp only [hmeet, not_false_eq_true, if_true]
          exact hskip (fun _ => hmeet)

/-- **The check, as a statement about the whole map.** -/
theorem isAllowedMmioRange_eq_true {memoryMap : List MemoryRegion} {startPhys size : Nat} :
    isAllowedMmioRange (some memoryMap) startPhys size = true ↔ size ≠ 0 ∧
      startPhys + (size - 1) < wordBound ∧
        (∀ region ∈ memoryMap, Scanned region → Meets startPhys (startPhys + (size - 1)) region →
          mmioRegionTypeAllowed region.regionType = true) ∧
        ((∃ region ∈ memoryMap, Scanned region ∧ Holds startPhys (startPhys + (size - 1)) region) ∨
          ∀ region ∈ memoryMap, Scanned region → ¬ Meets startPhys (startPhys + (size - 1)) region) := by
  unfold isAllowedMmioRange
  by_cases hsize : size = 0
  · simp [hsize]
  · rw [if_neg hsize]
    cases hend : checkedAdd startPhys (size - 1) with
    | none =>
      have := checkedAdd_eq_none.mp hend
      have hwrap : ¬ startPhys + (size - 1) < wordBound := by omega
      simp [hwrap]
    | some endPhys =>
      obtain ⟨hlt, rfl⟩ := checkedAdd_eq_some.mp hend
      simp only [mmioScan_eq_true (Nat.le_add_right startPhys (size - 1)), hsize, hlt, ne_eq,
        not_false_eq_true, true_and, Bool.false_eq_true, false_or]

/-- A map whose regions all end inside the address space, so that the scan skips no byte of it. -/
def NoWrap (memoryMap : List MemoryRegion) : Prop :=
  ∀ region ∈ memoryMap, region.len ≠ 0 → region.start + (region.len - 1) < wordBound

/-- On such a map, an allowed request meets only bytes of allowed types. -/
theorem carries_allowed {memoryMap : List MemoryRegion} {startPhys size x : Nat} {t : MemoryType}
    (hwrap : NoWrap memoryMap) (h : isAllowedMmioRange (some memoryMap) startPhys size = true)
    (hx : InSpan startPhys size x) (ht : Carries memoryMap x t) : mmioRegionTypeAllowed t = true := by
  obtain ⟨_, _, hall, _⟩ := isAllowedMmioRange_eq_true.mp h
  obtain ⟨region, hmem, ⟨hlo, hhi⟩, rfl⟩ := ht
  obtain ⟨h1, h2⟩ := hx
  exact hall region hmem ⟨by omega, hwrap region hmem (by omega)⟩ ⟨by omega, by omega⟩

/-- **The check on a single byte**: it is allowed exactly when the map gives it no forbidden type. -/
theorem isAllowedMmioRange_byte {memoryMap : List MemoryRegion} {x : Nat} (hwrap : NoWrap memoryMap)
    (hx : x < wordBound) : isAllowedMmioRange (some memoryMap) x 1 = true ↔
      ∀ t, Carries memoryMap x t → mmioRegionTypeAllowed t = true := by
  constructor
  · intro h t ht
    exact carries_allowed hwrap h ⟨Nat.le_refl x, by omega⟩ ht
  · intro h
    have hcover : ∀ region, Scanned region → Meets x (x + (1 - 1)) region →
      InSpan region.start region.len x := by
      intro region hscan hmeet
      obtain ⟨hlen, _⟩ := hscan
      obtain ⟨h1, h2⟩ := hmeet
      exact ⟨by omega, by omega⟩
    refine isAllowedMmioRange_eq_true.mpr ⟨by omega, by omega, ?_, ?_⟩
    · intro region hmem hscan hmeet
      exact h _ ⟨region, hmem, hcover region hscan hmeet, rfl⟩
    · -- a region that meets a one-byte request holds it
      by_cases hany : ∃ region ∈ memoryMap, Scanned region ∧ Meets x (x + (1 - 1)) region
      · obtain ⟨region, hmem, hscan, h1, h2⟩ := hany
        exact Or.inl ⟨region, hmem, hscan, by omega, by omega⟩
      · exact Or.inr (fun region hmem hscan hmeet => hany ⟨region, hmem, hscan, hmeet⟩)

/-! ## Over an accepted boot -/

/-- A reserved byte is protected when the loader's map also covers it by a region whose type survives
    preparation and is closed to drivers. -/
def Protected (source : List MemoryRegion) (x : Nat) : Prop :=
  ∃ region ∈ source, InSpan region.start region.len x ∧
    region.regionType ≠ .bootloaderReclaimable ∧ mmioRegionTypeAllowed region.regionType = false

/-- In the rebuilt map a reserved byte carries a type closed to drivers exactly if it is protected:
    what was reclaimable there has become `Reserved`, which drivers may map. -/
theorem exists_forbidden_iff_protected {input output : List MemoryRegion}
    {reserved : List PhysicalRange} {capacity x : Nat}
    (h : buildReclaimedMemoryMap input reserved capacity = .ok output) (hx : InRanges reserved x) :
    (∃ t, Carries output x t ∧ mmioRegionTypeAllowed t = false) ↔ Protected input x := by
  simp only [buildReclaimedMemoryMap_carries h]
  constructor
  · rintro ⟨t, ⟨region, hmem, hin, rfl⟩, hforbid⟩
    refine ⟨region, hmem, hin, ?_⟩
    unfold retyped at hforbid
    split at hforbid
    · rw [reclaimedType_of_inRanges hx] at hforbid
      exact absurd hforbid (by decide)
    · rename_i htype
      exact ⟨htype, hforbid⟩
  · rintro ⟨region, hmem, hin, htype, hforbid⟩
    exact ⟨region.regionType, ⟨region, hmem, hin, if_neg htype⟩, hforbid⟩

/-- **What the MMIO check keeps away from drivers.** After an accepted boot, no allowed range touches
    usable RAM or a range preparation reserved if and only if every reserved byte is `Protected`. -/
theorem mmio_avoids_owned_memory_iff {statics : KernelStatics} {source : BootInfo}
    {kernelStart kernelEnd stackPointer kernelHeapAddr : Nat} {prepared : PreparedBoot}
    {reserved : List PhysicalRange}
    (hboot : prepareBootInfo statics (some source) kernelStart kernelEnd stackPointer
      kernelHeapAddr = .ok prepared)
    (hreserved : reservedRanges source kernelStart (kernelEnd - kernelStart) stackPointer = .ok reserved) :
    (∀ startPhys size, isAllowedMmioRange (some prepared.info.memoryMap) startPhys size = true →
      ∀ x, InSpan startPhys size x → ¬ Carries prepared.info.memoryMap x .usable ∧ ¬ InRanges reserved x) ↔
    ∀ x, InRanges reserved x → Protected source.memoryMap x := by
  obtain ⟨reserved', hres', hbuild⟩ := prepareBootInfo_ok hboot
  obtain rfl : reserved' = reserved := Except.ok.inj (hres'.symm.trans hreserved)
  have hwrap : NoWrap prepared.info.memoryMap := buildReclaimedMemoryMap_le hbuild
  constructor
  · intro hsafe x hx
    by_contra hprot
    have hlt : x < wordBound := by
      obtain ⟨range, hmem, _, hhi⟩ := hx
      have := (buildReclaimedMemoryMap_input hbuild).2 range hmem
      omega
    have hallowed : isAllowedMmioRange (some prepared.info.memoryMap) x 1 = true := by
      refine (isAllowedMmioRange_byte hwrap hlt).mpr (fun t ht => ?_)
      by_contra hforbid
      exact hprot ((exists_forbidden_iff_protected hbuild hx).mp ⟨t, ht, Bool.eq_false_iff.mpr hforbid⟩)
    exact (hsafe x 1 hallowed x ⟨Nat.le_refl x, by omega⟩).2 hx
  · intro hprot startPhys size hallowed x hx
    refine ⟨fun husable => ?_, fun hres => ?_⟩
    · exact absurd (carries_allowed hwrap hallowed hx husable) (by decide)
    obtain ⟨t, ht, hforbid⟩ := (exists_forbidden_iff_protected hbuild hres).mpr (hprot x hres)
    rw [carries_allowed hwrap hallowed hx ht] at hforbid
    exact absurd hforbid (by decide)

/-- A loader that put the kernel image and its own stack into two reclaimable regions. -/
def loaderBoot : BootInfo where
  magic := bootAbiMagic
  abiVersion := bootAbiVersion
  structSize := sizeOfBootInfo
  featureFlags := 0
  memoryMapAddr := 0x3000
  memoryMap :=
    [⟨0x1000, 0x1000, .bootloaderReclaimable⟩, ⟨0x200000, 0x200000, .bootloaderReclaimable⟩]
  memoryMapEntrySize := sizeOfMemoryRegion
  kernelHeapAddr := 0
  initfsAddr := 0
  initfsSize := 0
  rootfsAddr := 0
  rootfsSize := 0
  cpuApicIdCount := 1
  smpHandoffAddr := 0
  smpHandoffSize := 0
  smpHandoff := ⟨0, 0, 0, 0, 0⟩
  smpTrampolineAddr := 0
  smpTrampolineSize := 0
  systemSlot := bootSystemSlotLegacy
  bootEspGuid := List.replicate 16 0

/-- What preparation makes of it: the pages of the kernel image are now typed `Reserved`. -/
def loaderBootPrepared : PreparedBoot where
  info :=
    { loaderBoot with
      kernelHeapAddr := 0x500000
      memoryMapAddr := 0x600000
      memoryMap :=
        [⟨0x1000, 0x1000, .reserved⟩, ⟨0x200000, 0x80000, .reserved⟩, ⟨0x280000, 0x180000, .usable⟩] }
  smpHandoff := none
  reclaimedBytes := 0x180000

theorem mmio_avoids_owned_memory_iff_loaderBoot : (∀ startPhys size,
      isAllowedMmioRange (some loaderBootPrepared.info.memoryMap) startPhys size = true →
      ∀ x, InSpan startPhys size x → ¬ Carries loaderBootPrepared.info.memoryMap x .usable ∧
        ¬ InRanges [⟨0x200000, 0x80000⟩, ⟨0x1000, 0x1000⟩] x) ↔
    ∀ x, InRanges [⟨0x200000, 0x80000⟩, ⟨0x1000, 0x1000⟩] x → Protected loaderBoot.memoryMap x := by
  have hboot : prepareBootInfo ⟨0x600000, 0x700000⟩ (some loaderBoot) 0x200000 0x280000 0x1800
      0x500000 = .ok loaderBootPrepared := by decide +kernel
  have hreserved : reservedRanges loaderBoot 0x200000 (0x280000 - 0x200000) 0x1800 =
      .ok [⟨0x200000, 0x80000⟩, ⟨0x1000, 0x1000⟩] := by decide
  exact mmio_avoids_owned_memory_iff hboot hreserved

/-- On this boot the first page of the kernel image may be mapped as MMIO. -/
theorem kernel_image_page_allowed :
    prepareBootInfo ⟨0x600000, 0x700000⟩ (some loaderBoot) 0x200000 0x280000 0x1800 0x500000 =
      .ok loaderBootPrepared ∧ reservedRanges loaderBoot 0x200000 (0x280000 - 0x200000) 0x1800 =
      .ok [⟨0x200000, 0x80000⟩, ⟨0x1000, 0x1000⟩] ∧
    isAllowedMmioRange (some loaderBootPrepared.info.memoryMap) 0x200000 0x1000 = true ∧
    ∀ x, InSpan 0x200000 0x1000 x → InRanges [⟨0x200000, 0x80000⟩, ⟨0x1000, 0x1000⟩] x := by
  refine ⟨by decide +kernel, by decide, by decide, ?_⟩
  intro x hx
  refine ⟨⟨0x200000, 0x80000⟩, by simp, ?_⟩
  simp only [InSpan] at hx ⊢
  omega

end Mnu.Boot
