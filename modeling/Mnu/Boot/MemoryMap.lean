import Mnu.Lib.Except
import Mnu.Lib.Word

/-!
# `Mnu.Boot.MemoryMap` — reclaiming loader pages in the boot memory map

Model of the memory-map half of `crates/abi/src/boot.rs`. The loader hands over a list of typed regions;
`build_reclaimed_memory_map` copies it, turning the `BootloaderReclaimable` bytes that no reserved range
covers into `Usable` and the ones that a reserved range covers into `Reserved`, and merging neighbours
of one type on the way.

The code works on regions, cursors and a bounded output slice. What it computes is a fact about single
bytes: `buildReclaimedMemoryMap_carries` says which types the output gives to a byte, in terms of the
types the input gives to it (`retyped`). Everything later in the boot chain is derived from that.
-/

namespace Mnu.Boot

open Lib

/-- What a region is good for. -/
inductive MemoryType where
  | usable
  | reserved
  | acpiReclaimable
  | acpiNvs
  | badMemory
  | bootloaderReclaimable
  | kernelStack
  | pageTable
  | framebuffer
  deriving DecidableEq

/-- A region of the memory map. -/
structure MemoryRegion where
  start : Nat
  len : Nat
  regionType : MemoryType
  deriving DecidableEq

/-- A range to keep. -/
structure PhysicalRange where
  start : Nat
  len : Nat
  deriving DecidableEq

/-- Why a map is refused. -/
inductive MemoryMapTransformError where
  | invalidMemoryRegion
  | invalidReservedRange
  | outputTooSmall
  deriving DecidableEq

/-- Write `region` into the next free slot of an output slice of `capacity` slots. -/
def pushRegion (capacity : Nat) (output : List MemoryRegion) (region : MemoryRegion) :
    Except MemoryMapTransformError (List MemoryRegion) :=
  if output.length < capacity then .ok (region :: output) else .error .outputTooSmall

/-- `append_memory_region`. The list holds the slots written so far, the newest first, so its head is
    the source's `output[*output_len - 1]`. -/
def appendMemoryRegion (capacity : Nat) (output : List MemoryRegion) (region : MemoryRegion) :
    Except MemoryMapTransformError (List MemoryRegion) :=
  if region.len = 0 then .ok output
  else
    match output with
    | [] => pushRegion capacity [] region
    | previous :: rest => do
        let previousEnd ← okOr .invalidMemoryRegion (checkedAdd previous.start previous.len)
        if previousEnd = region.start ∧ previous.regionType = region.regionType then do
          let len ← okOr .invalidMemoryRegion (checkedAdd previous.len region.len)
          .ok ({ previous with len := len } :: rest)
        else pushRegion capacity (previous :: rest) region

/-- One iteration of the loop of `next_reserved_range`. -/
def nextReservedStep (cursor regionEnd : Nat) (next : Option (Nat × Nat)) (range : PhysicalRange) :
    Option (Nat × Nat) :=
  let overlapStart := max range.start cursor
  let overlapEnd := min (range.start + range.len) regionEnd
  if overlapEnd ≤ overlapStart then next
  else
    match next with
    | some (bestStart, bestEnd) =>
      if bestStart < overlapStart then next
      else if bestStart = overlapStart then some (bestStart, max bestEnd overlapEnd)
      else some (overlapStart, overlapEnd)
    | none => some (overlapStart, overlapEnd)

/-- `next_reserved_range`: the first reserved stretch at or after `cursor`. -/
def nextReservedRange (cursor regionEnd : Nat) (reserved : List PhysicalRange) : Option (Nat × Nat) :=
  reserved.foldl (nextReservedStep cursor regionEnd) none

/-! ## What `next_reserved_range` finds -/

/-- `x` lies in one of the ranges. -/
def InRanges (ranges : List PhysicalRange) (x : Nat) : Prop :=
  ∃ range ∈ ranges, InSpan range.start range.len x

instance (ranges : List PhysicalRange) (x : Nat) : Decidable (InRanges ranges x) :=
  inferInstanceAs (Decidable (∃ range ∈ ranges, InSpan range.start range.len x))

/-- `next` is the first stretch of `ranges` inside `[cursor, regionEnd)`: nothing before it is covered
    and all of it is. -/
def IsFirst (cursor regionEnd : Nat) (ranges : List PhysicalRange) : Option (Nat × Nat) → Prop
  | none => ∀ x, cursor ≤ x → x < regionEnd → ¬ InRanges ranges x
  | some (s, e) => cursor ≤ s ∧ s < e ∧ e ≤ regionEnd ∧
      (∀ x, cursor ≤ x → x < s → ¬ InRanges ranges x) ∧ (∀ x, s ≤ x → x < e → InRanges ranges x)

variable {x : Nat} {seen : List PhysicalRange} {map : List MemoryRegion} {r : PhysicalRange} {t : MemoryType}

theorem inRanges_snoc : InRanges (seen ++ [r]) x ↔ InRanges seen x ∨ InSpan r.start r.len x := by
  simp only [InRanges, List.mem_append, List.mem_singleton, or_and_right, exists_or, exists_eq_left]

theorem not_inRanges_snoc (hseen : ¬ InRanges seen x)
    (hr : ¬ InSpan r.start r.len x) : ¬ InRanges (seen ++ [r]) x :=
  fun hx => (inRanges_snoc.mp hx).elim hseen hr

variable {cursor regionEnd : Nat}

/-- One more range leaves the first one first. -/
theorem nextReservedStep_isFirst
    {next : Option (Nat × Nat)} (range : PhysicalRange) (h : IsFirst cursor regionEnd seen next) :
    IsFirst cursor regionEnd (seen ++ [range]) (nextReservedStep cursor regionEnd next range) := by
  unfold nextReservedStep
  by_cases hempty : min (range.start + range.len) regionEnd ≤ max range.start cursor
  · -- the range misses `[cursor, regionEnd)`, so it covers none of the bytes in question
    have hmiss : ∀ x, cursor ≤ x → x < regionEnd → ¬ InSpan range.start range.len x := by
      intro x h1 h2 ⟨h3, h4⟩
      omega
    rw [if_pos hempty]
    rcases next with _ | ⟨s, e⟩
    · exact fun x h1 h2 => not_inRanges_snoc (h x h1 h2) (hmiss x h1 h2)
    · obtain ⟨h1, h2, h3, h4, h5⟩ := h
      exact ⟨h1, h2, h3, fun x hc hs => not_inRanges_snoc (h4 x hc hs) (hmiss x hc (by omega)),
        fun x hs he => inRanges_snoc.mpr (.inl (h5 x hs he))⟩
  · rw [if_neg hempty]
    have hin : ∀ x, max range.start cursor ≤ x → x < min (range.start + range.len) regionEnd →
        InSpan range.start range.len x := by
      intro x h1 h2
      exact ⟨by omega, by omega⟩
    have hbefore : ∀ x, cursor ≤ x → x < max range.start cursor → ¬ InSpan range.start range.len x := by
      intro x h1 h2 ⟨h3, h4⟩
      omega
    -- if the overlap comes first, it is the answer for the longer list
    have hnew : (∀ x, cursor ≤ x → x < max range.start cursor → ¬ InRanges seen x) →
        IsFirst cursor regionEnd (seen ++ [range])
          (some (max range.start cursor, min (range.start + range.len) regionEnd)) := by
      intro hseen
      exact ⟨by omega, by omega, by omega, fun x hc hs => not_inRanges_snoc (hseen x hc hs) (hbefore x hc hs),
        fun x hs he => inRanges_snoc.mpr (.inr (hin x hs he))⟩
    rcases next with _ | ⟨s, e⟩
    · exact hnew (fun x hc hs => h x hc (by omega))
    · obtain ⟨h1, h2, h3, h4, h5⟩ := h
      by_cases hlt : s < max range.start cursor
      · simp only [hlt, if_true]
        exact ⟨h1, h2, h3, fun x hc hs => not_inRanges_snoc (h4 x hc hs) (hbefore x hc (by omega)),
          fun x hs he => inRanges_snoc.mpr (.inl (h5 x hs he))⟩
      · by_cases heq : s = max range.start cursor
        · simp only [hlt, if_false, if_pos heq]
          refine ⟨h1, by omega, by omega, fun x hc hs => not_inRanges_snoc (h4 x hc hs)
            (hbefore x hc (by omega)), ?_⟩
          intro x hs he
          rcases Nat.lt_or_ge x e with hx | hx
          · exact inRanges_snoc.mpr (.inl (h5 x hs hx))
          · exact inRanges_snoc.mpr (.inr (hin x (by omega) (by omega)))
        · simp only [hlt, if_false, if_neg heq]
          exact hnew (fun x hc hs => h4 x hc (by omega))

theorem foldl_nextReservedStep_isFirst : ∀ (ranges seen : List PhysicalRange) (next : Option (Nat × Nat)),
      IsFirst cursor regionEnd seen next → IsFirst cursor regionEnd (seen ++ ranges)
        (ranges.foldl (nextReservedStep cursor regionEnd) next) := by
  intro ranges
  induction ranges with
  | nil =>
    intro seen next h
    simpa using h
  | cons range rest ih =>
    intro seen next h
    have hstep := ih (seen ++ [range]) _ (nextReservedStep_isFirst range h)
    simpa using hstep

/-- **`next_reserved_range` returns the first reserved stretch**, or nothing when no byte of
    `[cursor, regionEnd)` is reserved. -/
theorem nextReservedRange_isFirst (cursor regionEnd : Nat) (reserved : List PhysicalRange) :
    IsFirst cursor regionEnd reserved (nextReservedRange cursor regionEnd reserved) := by
  have h0 : IsFirst cursor regionEnd [] none := by
    intro x _ _
    simp [InRanges]
  exact foldl_nextReservedStep_isFirst reserved [] none h0

variable {reserved : List PhysicalRange}

/-- What is found lies inside. -/
theorem nextReservedRange_bounds {s e : Nat} (h : nextReservedRange cursor regionEnd reserved = some (s, e)) :
    cursor ≤ s ∧ s < e ∧ e ≤ regionEnd := by
  have hf := nextReservedRange_isFirst cursor regionEnd reserved
  rw [h] at hf
  exact ⟨hf.1, hf.2.1, hf.2.2.1⟩

/-! ## The transformation -/

/-- The `while cursor < region_end` loop over one reclaimable region. It ends because the cursor moves
    to the end of a stretch that starts at or after it. -/
def reclaimRegion (capacity : Nat) (reserved : List PhysicalRange) (regionEnd cursor : Nat)
    (output : List MemoryRegion) : Except MemoryMapTransformError (List MemoryRegion) :=
  if cursor < regionEnd then
    match _h : nextReservedRange cursor regionEnd reserved with
    | none => appendMemoryRegion capacity output ⟨cursor, regionEnd - cursor, .usable⟩
    | some (reservedStart, reservedEnd) => do
        let output ← (if cursor < reservedStart then
            appendMemoryRegion capacity output ⟨cursor, reservedStart - cursor, .usable⟩
          else .ok output)
        let output ← appendMemoryRegion capacity output
          ⟨reservedStart, reservedEnd - reservedStart, .reserved⟩
        reclaimRegion capacity reserved regionEnd reservedEnd output
  else .ok output
termination_by regionEnd - cursor
decreasing_by
  have := nextReservedRange_bounds ‹_›
  omega

/-- One iteration of the outer loop of `build_reclaimed_memory_map`. -/
def reclaimStep (capacity : Nat) (reserved : List PhysicalRange) (output : List MemoryRegion)
    (region : MemoryRegion) : Except MemoryMapTransformError (List MemoryRegion) := do
  let regionEnd ← okOr .invalidMemoryRegion (checkedAdd region.start region.len)
  if region.regionType ≠ .bootloaderReclaimable then
    appendMemoryRegion capacity output region
  else if region.start % 4096 ≠ 0 ∨ region.len % 4096 ≠ 0 then
    .error .invalidMemoryRegion
  else reclaimRegion capacity reserved regionEnd region.start output

/-- A reserved range is non-empty, page aligned and does not wrap. -/
def reservedRangeValid (range : PhysicalRange) : Bool :=
  range.len ≠ 0 && range.start % 4096 = 0 && range.len % 4096 = 0 && (checkedAdd range.start range.len).isSome

/-- `build_reclaimed_memory_map`; the filled part of the output slice, in slot order. -/
def buildReclaimedMemoryMap (input : List MemoryRegion) (reserved : List PhysicalRange)
    (capacity : Nat) : Except MemoryMapTransformError (List MemoryRegion) :=
  if reserved.all reservedRangeValid then do
    let output ← input.foldlM (reclaimStep capacity reserved) []
    .ok output.reverse
  else .error .invalidReservedRange

/-! ## What the transformation does to a byte -/

/-- Some region of the map covers `x` and gives it type `t`. -/
def Carries (map : List MemoryRegion) (x : Nat) (t : MemoryType) : Prop :=
  ∃ region ∈ map, InSpan region.start region.len x ∧ region.regionType = t

variable {region : MemoryRegion}

theorem carries_cons : Carries (region :: map) x t ↔
      (InSpan region.start region.len x ∧ region.regionType = t) ∨ Carries map x t := by
  simp only [Carries, List.mem_cons, or_and_right, exists_or, exists_eq_left]

theorem carries_reverse : Carries map.reverse x t ↔ Carries map x t := by
  simp only [Carries, List.mem_reverse]

variable {capacity : Nat} {output output' : List MemoryRegion}

/-- `append_memory_region` skips an empty region, writes a new slot, or lets the last slot grow. -/
theorem appendMemoryRegion_cases (h : appendMemoryRegion capacity output region = .ok output') :
    (region.len = 0 ∧ output' = output) ∨ output' = region :: output ∨
      ∃ previous rest, output = previous :: rest ∧ previous.start + previous.len = region.start ∧
        previous.regionType = region.regionType ∧
          output' = { previous with len := previous.len + region.len } :: rest := by
  have hpush : ∀ {out}, pushRegion capacity out region = .ok output' → output' = region :: out := by
    intro out h
    unfold pushRegion at h
    split at h <;> cases h
    rfl
  unfold appendMemoryRegion at h
  split at h
  · cases h
    exact .inl ⟨‹_›, rfl⟩
  · cases output with
    | nil => exact .inr (.inl (hpush h))
    | cons previous rest =>
      obtain ⟨previousEnd, hend, h⟩ := bind_eq_ok.mp h
      obtain ⟨_, rfl⟩ := checkedAdd_eq_some.mp (okOr_eq_ok.mp hend)
      split at h
      · -- the region continues the previous one
        rename_i hmerge
        obtain ⟨len, hsum, h⟩ := bind_eq_ok.mp h
        obtain ⟨_, rfl⟩ := checkedAdd_eq_some.mp (okOr_eq_ok.mp hsum)
        cases h
        exact .inr (.inr ⟨previous, rest, rfl, hmerge.1, hmerge.2, rfl⟩)
      · exact .inr (.inl (hpush h))

/-- **`append_memory_region` adds exactly the bytes of its region**, merged or not. -/
theorem appendMemoryRegion_carries (h : appendMemoryRegion capacity output region = .ok output') (x : Nat)
    (t : MemoryType) : Carries output' x t ↔
      Carries output x t ∨ (InSpan region.start region.len x ∧ region.regionType = t) := by
  rcases appendMemoryRegion_cases h with ⟨hlen, rfl⟩ | rfl | ⟨previous, rest, rfl, hend, htype, rfl⟩
  · simp [hlen]
  · rw [carries_cons, or_comm]
  · simp only [carries_cons, inSpan_add, hend, htype]
    tauto

/-- What a reclaimable byte becomes. -/
def reclaimedType (reserved : List PhysicalRange) (x : Nat) : MemoryType :=
  if InRanges reserved x then .reserved else .usable

/-- The stretch `[a, b)` written with one type agrees with `reclaimedType` on it. -/
theorem span_reclaimedType (reserved : List PhysicalRange) {a b : Nat} {u : MemoryType} (hab : a ≤ b)
    (hu : ∀ x, a ≤ x → x < b → reclaimedType reserved x = u) (x : Nat) (t : MemoryType) :
    (InSpan a (b - a) x ∧ u = t) ↔ (a ≤ x ∧ x < b) ∧ reclaimedType reserved x = t := by
  have hspan : InSpan a (b - a) x ↔ a ≤ x ∧ x < b := by
    unfold InSpan
    omega
  rw [hspan]
  constructor
  · rintro ⟨hx, rfl⟩
    exact ⟨hx, hu x hx.1 hx.2⟩
  · rintro ⟨hx, rfl⟩
    exact ⟨hx, (hu x hx.1 hx.2).symm⟩

theorem reclaimedType_of_inRanges (h : InRanges reserved x) : reclaimedType reserved x = .reserved := if_pos h

theorem reclaimedType_of_not_inRanges (h : ¬ InRanges reserved x) :
    reclaimedType reserved x = .usable := if_neg h

/-- **The inner loop** appends stretches of one type that tile the rest of the region: what an append of
    the next stretch carries from its start to its end holds at the end of the region. -/
theorem reclaimRegion_induct {P : Nat → List MemoryRegion → Prop}
    (happend : ∀ {a b t out out'}, a ≤ b → b ≤ regionEnd →
      (∀ x, a ≤ x → x < b → reclaimedType reserved x = t) →
      appendMemoryRegion capacity out ⟨a, b - a, t⟩ = .ok out' → P a out → P b out')
    (h : reclaimRegion capacity reserved regionEnd cursor output = .ok output') (hcur : cursor ≤ regionEnd)
    (hP : P cursor output) : P regionEnd output' := by
  induction hn : regionEnd - cursor using Nat.strong_induction_on generalizing cursor output with
  | _ n ih =>
    rw [reclaimRegion] at h
    by_cases hlt : cursor < regionEnd
    · rw [if_pos hlt] at h
      have hfirst := nextReservedRange_isFirst cursor regionEnd reserved
      split at h
      · -- no reserved stretch is left: the rest of the region is usable
        rename_i hnone
        rw [hnone] at hfirst
        exact happend hcur le_rfl (fun x h1 h2 => reclaimedType_of_not_inRanges (hfirst x h1 h2)) h hP
      · rename_i s e hsome
        rw [hsome] at hfirst
        obtain ⟨hcs, hse, hee, hfree, hres⟩ := hfirst
        obtain ⟨out1, h1, h⟩ := bind_eq_ok.mp h
        obtain ⟨out2, h2, h⟩ := bind_eq_ok.mp h
        have hgap : P s out1 := by
          split at h1
          · exact happend hcs (by omega) (fun x h1 h2 => reclaimedType_of_not_inRanges (hfree x h1 h2)) h1 hP
          · cases h1
            rwa [show s = cursor by omega]
        have hstretch : P e out2 :=
          happend hse.le hee (fun x h1 h2 => reclaimedType_of_inRanges (hres x h1 h2)) h2 hgap
        exact ih (regionEnd - e) (by omega) h hee hstretch rfl
    · rw [if_neg hlt] at h
      cases h
      rwa [show regionEnd = cursor by omega]

/-- It writes every byte from the cursor to the end of the region, with the type `reclaimedType` gives it. -/
theorem reclaimRegion_carries (h : reclaimRegion capacity reserved regionEnd cursor output = .ok output')
    (hcur : cursor ≤ regionEnd) (x : Nat) (t : MemoryType) : Carries output' x t ↔
      Carries output x t ∨ ((cursor ≤ x ∧ x < regionEnd) ∧ reclaimedType reserved x = t) := by
  refine (reclaimRegion_induct (P := fun e out => cursor ≤ e ∧ (Carries out x t ↔
    Carries output x t ∨ ((cursor ≤ x ∧ x < e) ∧ reclaimedType reserved x = t))) ?_ h hcur ⟨le_rfl, ?_⟩).2
  · rintro a b u out out' hab hb hu happ ⟨hca, hout⟩
    have hsplit : (cursor ≤ x ∧ x < b) ↔ (cursor ≤ x ∧ x < a) ∨ (a ≤ x ∧ x < b) := by omega
    rw [appendMemoryRegion_carries happ x t, hout, span_reclaimedType reserved hab hu,
      hsplit, or_and_right, or_assoc]
    exact ⟨hca.trans hab, Iff.rfl⟩
  · have hnone : ¬ (cursor ≤ x ∧ x < cursor) := by omega
    simp only [hnone, false_and, or_false]

/-- The type a byte of an input region ends up with. -/
def retyped (reserved : List PhysicalRange) (region : MemoryRegion) (x : Nat) : MemoryType :=
  if region.regionType = .bootloaderReclaimable then reclaimedType reserved x else region.regionType

/-- **What one region adds to the output.** -/
theorem reclaimStep_carries
    (h : reclaimStep capacity reserved output region = .ok output') (x : Nat) (t : MemoryType) :
    Carries output' x t ↔ Carries output x t ∨
      (InSpan region.start region.len x ∧ retyped reserved region x = t) := by
  obtain ⟨regionEnd, hend, h⟩ := bind_eq_ok.mp h
  obtain ⟨_, rfl⟩ := checkedAdd_eq_some.mp (okOr_eq_ok.mp hend)
  unfold retyped
  split at h
  · rename_i htype
    rw [if_neg htype]
    exact appendMemoryRegion_carries h x t
  · rename_i htype
    rw [if_pos (not_not.mp htype)]
    split at h
    · cases h
    · exact reclaimRegion_carries h (Nat.le_add_right ..) x t

variable {input : List MemoryRegion} (h : buildReclaimedMemoryMap input reserved capacity = .ok output)

include h in
/-- **The transformed map, byte by byte.** The output gives a byte exactly the types its input regions
    are `retyped` to: reclaimable bytes become usable or, under a reserved range, reserved, and every
    other type is kept. -/
theorem buildReclaimedMemoryMap_carries
    (x : Nat) (t : MemoryType) :
    Carries output x t ↔ ∃ region ∈ input, InSpan region.start region.len x ∧
      retyped reserved region x = t := by
  unfold buildReclaimedMemoryMap at h
  split at h
  · obtain ⟨out, hfold, h⟩ := bind_eq_ok.mp h
    cases h
    rw [carries_reverse]
    refine foldlM_induct (P := fun done out => Carries out x t ↔
      ∃ region ∈ done, InSpan region.start region.len x ∧ retyped reserved region x = t)
        (by simp [Carries]) ?_ hfold
    intro done region rest out out' _ hstep hout
    rw [reclaimStep_carries hstep x t, hout]
    simp only [List.mem_append, List.mem_singleton, or_and_right, exists_or, exists_eq_left]
  · cases h

/-! ## The regions of the new map are disjoint -/

/-- No byte lies in both regions. -/
def Apart (a b : MemoryRegion) : Prop := ∀ x, InSpan a.start a.len x → ¬ InSpan b.start b.len x

instance : Std.Symm Apart := ⟨fun _ _ h x hb ha => h x ha hb⟩

theorem appendMemoryRegion_apart (h : appendMemoryRegion capacity output region = .ok output')
    (hout : output.Pairwise Apart) (hnew : ∀ x t, InSpan region.start region.len x → ¬ Carries output x t) :
    output'.Pairwise Apart := by
  rcases appendMemoryRegion_cases h with ⟨-, rfl⟩ | rfl | ⟨previous, rest, rfl, hend, -, rfl⟩
  · exact hout
  · refine List.pairwise_cons.mpr ⟨fun other hother x hx hin => ?_, hout⟩
    exact hnew x other.regionType hx ⟨other, hother, hin, rfl⟩
  · obtain ⟨hprev, hrest⟩ := List.pairwise_cons.mp hout
    refine List.pairwise_cons.mpr ⟨fun other hother x hx hin => ?_, hrest⟩
    rw [inSpan_add, hend] at hx
    rcases hx with hx | hx
    · exact hprev other hother x hx hin
    · exact hnew x other.regionType hx ⟨other, List.mem_cons_of_mem _ hother, hin, rfl⟩

/-- Regions stay apart. -/
theorem reclaimStep_apart (h : reclaimStep capacity reserved output region = .ok output')
    (hout : output.Pairwise Apart) (hnew : ∀ x t, InSpan region.start region.len x → ¬ Carries output x t) :
    output'.Pairwise Apart := by
  obtain ⟨regionEnd, hend, h⟩ := bind_eq_ok.mp h
  obtain ⟨_, rfl⟩ := checkedAdd_eq_some.mp (okOr_eq_ok.mp hend)
  split at h
  · exact appendMemoryRegion_apart h hout hnew
  split at h
  · cases h
  -- what is still to come of the region is not covered yet
  refine (reclaimRegion_induct (P := fun e out => region.start ≤ e ∧ out.Pairwise Apart ∧
    ∀ x t, e ≤ x → x < region.start + region.len → ¬ Carries out x t) ?_ h (Nat.le_add_right ..)
    ⟨le_rfl, hout, fun x t h1 h2 => hnew x t ⟨h1, h2⟩⟩).2.1
  rintro a b u out out' hab hb - happ ⟨hra, hapart, hfree⟩
  refine ⟨hra.trans hab, appendMemoryRegion_apart happ hapart ?_, ?_⟩
  · rintro x t ⟨h1, h2⟩
    exact hfree x t h1 (by simp only at h2; omega)
  · intro x t h1 h2 hcar
    rcases (appendMemoryRegion_carries happ x t).mp hcar with hold | ⟨⟨-, hlt⟩, -⟩
    · exact hfree x t (hab.trans h1) h2 hold
    · simp only at hlt
      omega

theorem foldlM_reclaimStep_apart (hin : input.Pairwise Apart)
    (h : input.foldlM (reclaimStep capacity reserved) [] = .ok output) : output.Pairwise Apart := by
  -- what is written so far lies in the regions done so far
  refine (foldlM_induct (P := fun (done out : List MemoryRegion) => out.Pairwise Apart ∧
    ∀ x t, Carries out x t → ∃ region ∈ done, InSpan region.start region.len x) ?_ ?_ h).1
  · exact ⟨.nil, fun x t ⟨other, hother, _⟩ => absurd hother List.not_mem_nil⟩
  rintro done region rest out out' rfl hstep ⟨hout, hdone⟩
  refine ⟨reclaimStep_apart hstep hout ?_, ?_⟩
  · intro x t hx hcar
    obtain ⟨other, hother, hx'⟩ := hdone x t hcar
    exact (List.pairwise_append.mp hin).2.2 other hother region List.mem_cons_self x hx' hx
  · intro x t hcar
    rcases (reclaimStep_carries hstep x t).mp hcar with hold | ⟨hx, -⟩
    · obtain ⟨other, hother, hx⟩ := hdone x t hold
      exact ⟨other, List.mem_append_left _ hother, hx⟩
    · exact ⟨region, by simp, hx⟩

/-- What the map `output` says about each byte, and that it says it once. -/
structure Reclaimed (input : List MemoryRegion) (reserved : List PhysicalRange) (output : List MemoryRegion) :
    Prop where
  /-- A byte keeps its type; one of a reclaimable region is usable outside the reserved ranges, reserved
      inside. -/
  typed : ∀ region ∈ input, ∀ x, InSpan region.start region.len x → ∀ t, Carries output x t ↔
    t = if region.regionType = .bootloaderReclaimable then if InRanges reserved x then .reserved else .usable
      else region.regionType
  apart : output.Pairwise Apart
  covered : ∀ x t, Carries output x t → ∃ region ∈ input, InSpan region.start region.len x

/-- **The reclaimed map is exact**, for disjoint regions in any order and reserved ranges in any order,
    overlapping or not: the transformation ends, and if it does not fail, every byte of the input has the type
    it should have and no other byte has one. -/
theorem reclaimed_map_exact (hin : input.Pairwise Apart) (reserved : List PhysicalRange) (capacity : Nat) :
    (∃ error, buildReclaimedMemoryMap input reserved capacity = .error error) ∨
      ∃ output, buildReclaimedMemoryMap input reserved capacity = .ok output ∧
        Reclaimed input reserved output := by
  cases h : buildReclaimedMemoryMap input reserved capacity with
  | error error => exact .inl ⟨error, rfl⟩
  | ok output =>
    have hcarries := buildReclaimedMemoryMap_carries h
    refine .inr ⟨output, rfl, ?_, ?_, ?_⟩
    · intro region hregion x hx t
      rw [hcarries]
      constructor
      · rintro ⟨other, hother, hx', rfl⟩
        by_cases heq : other = region
        · rw [heq]
          rfl
        · exact absurd hx (hin.forall hother hregion heq x hx')
      · rintro rfl
        exact ⟨region, hregion, hx, rfl⟩
    · unfold buildReclaimedMemoryMap at h
      split at h
      · obtain ⟨out, hfold, h⟩ := bind_eq_ok.mp h
        cases h
        rw [List.pairwise_reverse]
        exact (foldlM_reclaimStep_apart hin hfold).imp symm
      · cases h
    · intro x t hcar
      obtain ⟨region, hregion, hx, -⟩ := (hcarries x t).mp hcar
      exact ⟨region, hregion, hx⟩

/-- A region whose first page comes after the other region, and two reserved ranges in it that overlap. -/
def twoRegions : List MemoryRegion := [⟨0x1000, 0x8000, .bootloaderReclaimable⟩, ⟨0, 0x1000, .acpiNvs⟩]

/-- Two ranges that overlap, in the wrong order. -/
def overlapping : List PhysicalRange := [⟨0x4000, 0x3000⟩, ⟨0x3000, 0x2000⟩]

theorem reclaimed_map_exact_overlapping :
    ∃ output, buildReclaimedMemoryMap twoRegions overlapping 4 = .ok output ∧ output.length = 4 ∧
      Reclaimed twoRegions overlapping output := by
  have hapart : twoRegions.Pairwise Apart := by
    simp [twoRegions, Apart, InSpan]
    omega
  have hrun : buildReclaimedMemoryMap twoRegions overlapping 4 = .ok [⟨0x1000, 0x2000, .usable⟩,
      ⟨0x3000, 0x4000, .reserved⟩, ⟨0x7000, 0x2000, .usable⟩, ⟨0, 0x1000, .acpiNvs⟩] := by
    decide +kernel
  rcases reclaimed_map_exact hapart overlapping 4 with ⟨error, herror⟩ | ⟨output, hout, hexact⟩
  · rw [hrun] at herror
    cases herror
  · refine ⟨output, hout, ?_, hexact⟩
    rw [hrun] at hout
    cases hout
    rfl

/-! ## No region wraps around

`is_allowed_mmio_range` skips a region whose end does not fit in a word. An accepted map has none. -/

theorem reclaimStep_input_lt (h : reclaimStep capacity reserved output region = .ok output') :
    region.start + region.len < wordBound := by
  obtain ⟨regionEnd, hend, _⟩ := bind_eq_ok.mp h
  exact (checkedAdd_eq_some.mp (okOr_eq_ok.mp hend)).1

include h

theorem buildReclaimedMemoryMap_input : (∀ region ∈ input, region.start + region.len < wordBound) ∧
      ∀ range ∈ reserved, range.start + range.len < wordBound := by
  unfold buildReclaimedMemoryMap at h
  split at h
  · rename_i hvalid
    obtain ⟨out, hfold, _⟩ := bind_eq_ok.mp h
    refine ⟨foldlM_induct (P := fun done _ => ∀ region ∈ done, region.start + region.len < wordBound)
      nofun ?_ hfold, ?_⟩
    · intro done region rest out out' _ hstep hdone other hother
      rcases List.mem_append.mp hother with hother | hother
      · exact hdone other hother
      · rw [List.mem_singleton.mp hother]
        exact reclaimStep_input_lt hstep
    intro range hmem
    have hv := List.all_eq_true.mp hvalid range hmem
    simp only [reservedRangeValid, Bool.and_eq_true] at hv
    obtain ⟨limit, hlimit⟩ := Option.isSome_iff_exists.mp hv.2
    exact (checkedAdd_eq_some.mp hlimit).1
  · cases h

/-- No region of the transformed map reaches past the last word: a byte it would cover there would
    have to come from an input region. -/
theorem buildReclaimedMemoryMap_le :
    ∀ region ∈ output, region.len ≠ 0 → region.start + (region.len - 1) < wordBound := by
  intro region hmem hlen
  by_contra hwrap
  have hcover : InSpan region.start region.len (max region.start wordBound) := by
    unfold InSpan
    omega
  obtain ⟨source, hsource, hin, _⟩ :=
    (buildReclaimedMemoryMap_carries h _ _).mp ⟨region, hmem, hcover, rfl⟩
  have hlt := (buildReclaimedMemoryMap_input h).1 source hsource
  obtain ⟨_, hin⟩ := hin
  omega

end Mnu.Boot
