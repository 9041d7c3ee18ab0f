import Mnu.Lib.Bytes

/-!
# `Mnu.Mem.SharedPages` — a byte extent kept in pages

Model of `byte_extent.rs` and `shared_pages.rs`, and of the operations of `shared_memory.rs` on them. Lengths
are in bytes, storage is in pages that come into being, zeroed, when they are first needed. The last page may
be valid only in part. Mappings of it reach the bytes behind the length, so a resize clears the part that
leaves or enters the extent: `[length, capacity)` when it shrinks, `[old length, old capacity)` when it grows.

A frame belongs to one page, so the pages carry their contents. The page size is the constant that every
object is made with. Arithmetic is on `u64` with explicit checks. What can fail outside the object is passed
in: `issued` for the identifier of a new object, `granted` for an allocated frame, `prepared` for the address
of a boundary page, `revoked` for the coordinator, which returns an error only before it uses its commit.

`Holds m b` says that the object `m` shows the bytes `b`. Each operation keeps it, with the operation of a
plain array on the other side.
-/

namespace Mnu.Mem

open Mnu.Lib Function

/-- Why a size is refused. -/
inductive SizeError where
  | invalid
  | limitExceeded
  deriving DecidableEq

/-- The native status codes that memory objects return. -/
inductive NativeError where
  | invalidArgument
  | resourceUnavailable
  | backingFailure
  | notReady
  deriving DecidableEq

/-! ## `byte_extent.rs` -/

/-- `u64::is_power_of_two`. -/
def isPowerOfTwo (n : Nat) : Bool := n ≠ 0 && n &&& (n - 1) = 0

/-- What a resize does to pages. -/
structure ResizePlan where
  length : Nat
  capacity : Nat
  invalidate : Option (Nat × Nat)
  zero : Option (Nat × Nat)

/-- `capacity`: the length in whole pages. -/
def capacity (length pageBytes maximumPages : Nat) : Except SizeError Nat :=
  if !isPowerOfTwo pageBytes then .error .invalid
  else
    let pages := length / pageBytes + (if length % pageBytes ≠ 0 then 1 else 0)
    if 2 ^ 64 ≤ pages then .error .limitExceeded
    else if maximumPages < pages then .error .limitExceeded
    else if 2 ^ 64 ≤ pages * pageBytes then .error .limitExceeded
    else .ok (pages * pageBytes)

/-- `plan`. -/
def plan (oldLength length pageBytes maximumPages : Nat) : Except SizeError ResizePlan := do
  let oldCapacity ← capacity oldLength pageBytes maximumPages
  let capacity ← capacity length pageBytes maximumPages
  if length < oldLength then
    return ⟨length, capacity, some (length / pageBytes * pageBytes, oldCapacity),
      if length < capacity then some (length, capacity) else none⟩
  else if oldLength < length ∧ oldLength < oldCapacity then
    return ⟨length, capacity, some (oldLength / pageBytes * pageBytes, oldCapacity),
      some (oldLength, oldCapacity)⟩
  else return ⟨length, capacity, none, none⟩

/-! ## `shared_pages.rs` and `shared_memory.rs` -/

/-- `PAGE_BYTES`. -/
def pageBytes : Nat := 4096

/-- The bytes of one page. -/
abbrev Page := Nat → UInt8

/-- `SharedMemory`, with its `SharedPages`. -/
structure SharedMemory where
  length : Nat
  maximumPages : Nat
  pages : Nat → Option Page
  generation : Nat

namespace SharedMemory

variable {m m' : SharedMemory} {b : Bytes} {i length maximumPages index : Nat}
  {p : ResizePlan} {issued : Bool}

/-- `SharedPages::new_bytes`. -/
def newBytes (length maximumPages : Nat) : Except SizeError SharedMemory := do
  let _ ← plan 0 length pageBytes maximumPages
  return ⟨length, maximumPages, fun _ => none, 0⟩

/-- `SharedPages::new`: whole pages, at least one. -/
def newPages (length maximumPages : Nat) : Except SizeError SharedMemory :=
  if length = 0 then .error .invalid
  else if !isPowerOfTwo pageBytes ∨ length % pageBytes ≠ 0 then .error .invalid
  else if maximumPages < length / pageBytes then .error .limitExceeded
  else .ok ⟨length, maximumPages, fun _ => none, 0⟩

/-- `from_pages`. -/
def fromPages (pages : Except SizeError SharedMemory) (issued : Bool) : Except NativeError SharedMemory :=
  match pages with
  | .error .invalid => .error .invalidArgument
  | .error .limitExceeded => .error .resourceUnavailable
  | .ok m => if issued then .ok m else .error .resourceUnavailable

/-- `SharedMemory::new`. -/
def new (length maximumPages : Nat) (issued : Bool) : Except NativeError SharedMemory :=
  fromPages (newPages length maximumPages) issued

/-- `SharedMemory::new_resizable`. -/
def newResizable (length maximumPages : Nat) (issued : Bool) : Except NativeError SharedMemory :=
  fromPages (newBytes length maximumPages) issued

/-- `contains_range`. -/
def containsRange (m : SharedMemory) (offset length : Nat) : Bool :=
  offset + length < 2 ^ 64 && offset + length ≤ m.length

/-- The number of pages that `page_or_try_insert` allows. -/
def pageCount (length : Nat) : Nat := length / pageBytes + if length % pageBytes ≠ 0 then 1 else 0

/-- `populate`. -/
def populate (m : SharedMemory) (index : Nat) (granted : Bool) : SharedMemory × Except NativeError Unit :=
  if pageCount m.length ≤ index then (m, .error .invalidArgument)
  else if (m.pages index).isSome then (m, .ok ())
  else if granted then ({ m with pages := update m.pages index (some fun _ => 0) }, .ok ())
  else (m, .error .resourceUnavailable)

/-- The boundary page that the plan has cleared, if it is resident. -/
def zeroed (m : SharedMemory) (range : Option (Nat × Nat)) : Nat → Option Page :=
  match range with
  | none => m.pages
  | some (start, stop) =>
    let index := start / pageBytes
    let base := index * pageBytes
    update m.pages index ((m.pages index).map fun page offset =>
      if start - base ≤ offset ∧ offset < stop - base then 0 else page offset)

/-- The action of a `ResizeCommit`. -/
def commit (m : SharedMemory) (plan : ResizePlan) : SharedMemory :=
  let pages := m.zeroed plan.zero
  { m with
    length := plan.length
    pages := if plan.length < m.length then
        fun index => if plan.capacity / pageBytes ≤ index then none else pages index
      else pages
    generation := m.generation + 1 }

/-- Whether a resident boundary page has to be prepared. -/
def boundary (m : SharedMemory) (plan : ResizePlan) : Bool :=
  plan.zero.any fun (start, _) => (m.pages (start / pageBytes)).isSome

/-- `resize_transaction`. The coordinator revokes, or gives up before it uses its commit. -/
def resize (m : SharedMemory) (length : Nat) (prepared : Bool) (revoked : Option NativeError) :
    SharedMemory × Except NativeError Unit :=
  if m.length = length then (m, .ok ())
  else if 2 ^ 64 ≤ m.generation + 1 then (m, .error .resourceUnavailable)
  else
    match plan m.length length pageBytes m.maximumPages with
    | .error .invalid => (m, .error .invalidArgument)
    | .error .limitExceeded => (m, .error .resourceUnavailable)
    | .ok plan =>
      if m.boundary plan && !prepared then (m, .error .backingFailure)
      else
        match plan.invalidate, revoked with
        | some _, some error => (m, .error error)
        | _, _ => (m.commit plan, .ok ())

/-- Store a byte to the frame of its page. -/
def poke (m : SharedMemory) (i : Nat) (v : UInt8) : SharedMemory :=
  { m with
    pages := update m.pages (i / pageBytes)
      ((m.pages (i / pageBytes)).map fun page => update page (i % pageBytes) v) }

/-- The byte at a position. A page that is absent will be populated with zeros. -/
def byte (m : SharedMemory) (i : Nat) : UInt8 :=
  match m.pages (i / pageBytes) with
  | none => 0
  | some page => page (i % pageBytes)

/-! ## What an object shows -/

/-- The object has these bytes, and no page behind them. -/
structure Holds (m : SharedMemory) (b : Bytes) : Prop where
  length : m.length = b.length
  byte : ∀ i, i < m.length → m.byte i = b.byte i
  pages : ∀ index, pageCount m.length ≤ index → m.pages index = none

theorem byte_of_absent (h : m.pages (i / pageBytes) = none) : m.byte i = 0 := by
  rw [SharedMemory.byte, h]

theorem byte_of_page {page : Page} (h : m.pages (i / pageBytes) = some page) :
    m.byte i = page (i % pageBytes) := by
  rw [SharedMemory.byte, h]

/-- A byte depends on its own page only. -/
theorem byte_congr (h : m'.pages (i / pageBytes) = m.pages (i / pageBytes)) : m'.byte i = m.byte i := by
  rw [SharedMemory.byte, SharedMemory.byte, h]

/-- Installing a page shows its bytes, and leaves the others. -/
theorem byte_update (page : Page) (index : Nat) :
    ({ m with pages := update m.pages index (some page) } : SharedMemory).byte i =
      if i / pageBytes = index then page (i % pageBytes) else m.byte i := by
  split
  · rename_i heq
    apply byte_of_page
    show update m.pages index (some page) (i / pageBytes) = some page
    rw [heq, update_self]
  · rename_i heq
    exact byte_congr (update_of_ne heq _ _)

theorem fromPages_ok {pages : Except SizeError SharedMemory} (h : fromPages pages issued = .ok m) :
    pages = .ok m := by
  unfold fromPages at h
  split at h
  · cases h
  · cases h
  split at h
  · cases h
    rfl
  · cases h

theorem holds_zeros (length maximumPages : Nat) :
    Holds ⟨length, maximumPages, fun _ => none, 0⟩ (.zeros length) :=
  ⟨rfl, fun _ _ => rfl, fun _ _ => rfl⟩

theorem new_holds
    (h : new length maximumPages issued = .ok m ∨ newResizable length maximumPages issued = .ok m) :
    Holds m (.zeros length) := by
  have hempty : m = ⟨length, maximumPages, fun _ => none, 0⟩ := by
    rcases h with h | h
    · have hpages := fromPages_ok h
      unfold newPages at hpages
      split at hpages
      · cases hpages
      split at hpages
      · cases hpages
      split at hpages
      · cases hpages
      cases hpages
      rfl
    · have hpages := fromPages_ok h
      unfold newBytes at hpages
      cases hplan : plan 0 length pageBytes maximumPages with rw [hplan] at hpages
      | error e =>
        cases hpages
      | ok p =>
        cases hpages
        rfl
  rw [hempty]
  exact holds_zeros length maximumPages

/-- A populated page shows the zeros that were there before. -/
theorem Holds.populate (h : Holds m b) (index : Nat) (granted : Bool) :
    Holds (m.populate index granted).1 b := by
  unfold SharedMemory.populate
  split
  · exact h
  rename_i hin
  split
  · exact h
  rename_i habsent
  split
  · refine ⟨h.length, ?_, ?_⟩
    · intro i hi
      dsimp only at hi ⊢
      rw [byte_update, ← h.byte i hi]
      split
      · rename_i heq
        rw [byte_of_absent]
        rw [heq]
        simpa using habsent
      · rfl
    · intro x hx
      have hne : x ≠ index := by
        rintro rfl
        exact hin hx
      show update m.pages index _ x = none
      rw [update_of_ne hne]
      exact h.pages x hx
  · exact h

theorem populate_length (m : SharedMemory) (index : Nat) (granted : Bool) :
    (m.populate index granted).1.length = m.length := by
  unfold SharedMemory.populate
  split
  · rfl
  split
  · rfl
  split
  · rfl
  · rfl

/-- A population inside the extent leaves a resident page, or fails for want of a frame. -/
theorem populate_cases (hin : index < pageCount m.length) (granted : Bool) :
    ((m.populate index granted).2 = .ok () ∧ ((m.populate index granted).1.pages index).isSome) ∨
      ((m.populate index granted).2 = .error .resourceUnavailable ∧ granted = false ∧
        m.pages index = none) := by
  unfold SharedMemory.populate
  rw [if_neg (Nat.not_le.mpr hin)]
  split
  · rename_i hres
    exact .inl ⟨rfl, hres⟩
  rename_i habsent
  split
  · refine .inl ⟨rfl, ?_⟩
    show (update m.pages index _ index).isSome = true
    rw [update_self]
    rfl
  · rename_i hgrant
    exact .inr ⟨rfl, by simpa using hgrant, by simpa using habsent⟩

/-- **A store to a resident page changes a byte of the array, if it is below the length.** -/
theorem Holds.poke (h : Holds m b) {v : UInt8} {j : Nat} (hres : (m.pages (j / pageBytes)).isSome) :
    Holds (m.poke j v) (b.put j v) := by
  obtain ⟨page, hpage⟩ := Option.isSome_iff_exists.mp hres
  unfold SharedMemory.poke
  rw [hpage]
  refine ⟨h.length, ?_, ?_⟩
  · intro i hi
    have hi' : i < m.length := hi
    rw [Option.map_some, byte_update]
    by_cases hat : i = j
    · subst hat
      rw [if_pos rfl, update_self, Bytes.byte_put_self (h.length ▸ hi')]
    · rw [Bytes.byte_put_ne hat, ← h.byte i hi']
      split
      · -- another offset of the same page
        rename_i heq
        have hoff : i % pageBytes ≠ j % pageBytes := by
          intro hoff
          apply hat
          rw [← Nat.div_add_mod i pageBytes, heq, hoff, Nat.div_add_mod]
        rw [update_of_ne hoff]
        exact (byte_of_page (heq ▸ hpage)).symm
      · rfl
  · intro x hx
    have hx' := h.pages x hx
    have hne : x ≠ j / pageBytes := by
      rintro rfl
      rw [hpage] at hx'
      cases hx'
    show update m.pages (j / pageBytes) _ x = none
    rw [update_of_ne hne]
    exact hx'

/-! ## Resizing -/

theorem capacity_ok {c : Nat} (h : capacity length pageBytes maximumPages = .ok c) :
    c = pageCount length * pageBytes := by
  unfold capacity at h
  rw [if_neg (by decide)] at h
  dsimp only at h
  rw [show length / pageBytes + (if length % pageBytes ≠ 0 then 1 else 0) = pageCount length from rfl] at h
  generalize pageCount length = pages at h ⊢
  split at h
  · cases h
  split at h
  · cases h
  split at h
  · cases h
  cases h
  rfl

/-- The three plans. -/
theorem plan_ok {oldLength : Nat} (h : plan oldLength length pageBytes maximumPages = .ok p) :
    p.length = length ∧ p.capacity = pageCount length * pageBytes ∧
      ((length < oldLength ∧ p.zero = if length < p.capacity then some (length, p.capacity) else none) ∨
        (oldLength < length ∧ oldLength < pageCount oldLength * pageBytes ∧
          p.zero = some (oldLength, pageCount oldLength * pageBytes)) ∨
        (oldLength ≤ length ∧ (oldLength < length → pageCount oldLength * pageBytes ≤ oldLength) ∧
          p.zero = none)) := by
  unfold plan at h
  cases hold : capacity oldLength pageBytes maximumPages with
  | error e =>
    rw [hold] at h
    cases h
  | ok oldCapacity =>
    cases hnew : capacity length pageBytes maximumPages with
    | error e =>
      rw [hold, hnew] at h
      cases h
    | ok c =>
      have hold' := capacity_ok hold
      have hnew' := capacity_ok hnew
      subst hold' hnew'
      rw [hold, hnew] at h
      simp only [bind, Except.bind, pure, Except.pure] at h
      split at h
      · rename_i hlt
        cases h
        exact ⟨rfl, rfl, .inl ⟨hlt, rfl⟩⟩
      · rename_i hge
        split at h
        · rename_i hgrow
          cases h
          exact ⟨rfl, rfl, .inr (.inl ⟨hgrow.1, hgrow.2, rfl⟩)⟩
        · rename_i hgrow
          cases h
          exact ⟨rfl, rfl, .inr (.inr ⟨Nat.not_lt.mp hge, fun hlt => by omega, rfl⟩)⟩

/-- Clearing part of a page clears those bytes and no others. -/
theorem byte_zeroed {start stop : Nat} (hpage : stop ≤ start / pageBytes * pageBytes + pageBytes)
    (hzero : m'.pages (i / pageBytes) = m.zeroed (some (start, stop)) (i / pageBytes)) :
    m'.byte i = if start ≤ i ∧ i < stop then 0 else m.byte i := by
  unfold zeroed at hzero
  dsimp only at hzero
  by_cases heq : i / pageBytes = start / pageBytes
  · rw [heq, update_self, ← heq] at hzero
    have hbase : i / pageBytes * pageBytes + i % pageBytes = i := Nat.div_add_mod' i pageBytes
    have hstart : i / pageBytes * pageBytes ≤ start := heq ▸ Nat.div_mul_le_self start pageBytes
    cases hp : m.pages (i / pageBytes) with rw [hp] at hzero
    | none =>
      rw [byte_of_absent hzero, byte_of_absent hp, ite_self]
    | some page =>
      rw [byte_of_page hzero, byte_of_page hp]
      by_cases hin : start ≤ i ∧ i < stop
      · rw [if_pos hin]
        exact if_pos (by omega)
      · rw [if_neg hin]
        exact if_neg (by omega)
  · rw [update_of_ne heq] at hzero
    rw [byte_congr hzero, if_neg]
    -- a position between start and stop is on the page of start
    intro hin
    apply heq
    unfold pageBytes at hpage ⊢
    omega

theorem zeroed_none {range : Option (Nat × Nat)} (h : m.pages index = none) :
    m.zeroed range index = none := by
  unfold zeroed
  split
  · exact h
  dsimp only
  rw [update_apply]
  split
  · rename_i heq
    rw [← heq, h]
    rfl
  · exact h

/-- The pages end less than a page behind the length. -/
theorem pageCount_bounds (n : Nat) : n ≤ pageCount n * pageBytes ∧
    pageCount n * pageBytes < n + pageBytes := by
  unfold pageCount pageBytes
  split <;> omega

theorem pageCount_mono {n : Nat} (h : n ≤ length) : pageCount n ≤ pageCount length := by
  unfold pageCount pageBytes
  split <;> split <;> omega

/-- A position is below the length in pages if it is below the length. -/
theorem page_lt_pageCount (h : i < length) : i / pageBytes < pageCount length := by
  have hb := pageCount_bounds length
  unfold pageBytes at hb ⊢
  omega

/-- The boundary page reaches up to the end of the pages. -/
theorem pageCount_boundary (n : Nat) : pageCount n * pageBytes ≤ n / pageBytes * pageBytes + pageBytes := by
  unfold pageCount pageBytes
  split <;> omega

theorem commit_pages_shrink (h : p.length < m.length) (index : Nat) : (m.commit p).pages index =
      if p.capacity / pageBytes ≤ index then none else m.zeroed p.zero index := by
  unfold SharedMemory.commit
  dsimp only
  rw [if_pos h]

theorem commit_pages_grow (h : ¬ p.length < m.length) (index : Nat) :
    (m.commit p).pages index = m.zeroed p.zero index := by
  unfold SharedMemory.commit
  dsimp only
  rw [if_neg h]

/-- A shrink clears and removes nothing that stays in the extent. -/
theorem Holds.shrunk (h : Holds m b) (hlength : p.length = length)
    (hcapacity : p.capacity = pageCount length * pageBytes) (hlt : length < m.length)
    (hzero : p.zero = if length < p.capacity then some (length, p.capacity) else none) :
    Holds (m.commit p) (b.resize length) := by
  have hsmall : p.length < m.length := hlength ▸ hlt
  have hfirst : p.capacity / pageBytes = pageCount length := by
    rw [hcapacity]
    exact Nat.mul_div_cancel _ (by decide)
  refine ⟨hlength, ?_, ?_⟩
  · intro i hi
    have hi' : i < length := hlength ▸ hi
    have hpages := commit_pages_shrink hsmall (i / pageBytes)
    rw [hfirst, if_neg (Nat.not_le.mpr (page_lt_pageCount hi')), hzero] at hpages
    rw [Bytes.byte_resize_old hi', ← h.byte i (by omega)]
    split at hpages
    · rw [hcapacity] at hpages
      rw [byte_zeroed (pageCount_boundary length) hpages, if_neg (by omega)]
    · exact byte_congr hpages
  · intro index hindex
    have hindex' : pageCount length ≤ index := hlength ▸ hindex
    rw [commit_pages_shrink hsmall, hfirst, if_pos hindex']

/-- A growth shows the padding of the old boundary page as zeros. The pages behind it are not there yet. -/
theorem Holds.grown (h : Holds m b) (hlength : p.length = length) (hle : m.length ≤ length)
    (hbytes : ∀ i, (m.commit p).byte i =
      if m.length ≤ i ∧ i < pageCount m.length * pageBytes then 0 else m.byte i) :
    Holds (m.commit p) (b.resize length) := by
  refine ⟨hlength, ?_, ?_⟩
  · intro i hi
    have hi' : i < length := hlength ▸ hi
    rw [hbytes, Bytes.byte_resize_old hi']
    by_cases hold : i < m.length
    · rw [if_neg (by omega)]
      exact h.byte i hold
    · rw [b.tail i (by rw [← h.length]; omega)]
      split
      · rfl
      rename_i hout
      apply byte_of_absent
      apply h.pages
      have hpast : pageCount m.length * pageBytes ≤ i := by omega
      exact (Nat.le_div_iff_mul_le (by decide)).mpr hpast
  · intro index hindex
    have hindex' : pageCount length ≤ index := hlength ▸ hindex
    rw [commit_pages_grow (by omega)]
    apply zeroed_none
    apply h.pages
    exact Nat.le_trans (pageCount_mono hle) hindex'

/-- **A resize that commits cuts off or adds zeros.** -/
theorem Holds.commit (h : Holds m b)
    (hne : m.length ≠ length) (hp : plan m.length length pageBytes maximumPages = .ok p) :
    Holds (m.commit p) (b.resize length) := by
  obtain ⟨hlength, hcapacity, hcases⟩ := plan_ok hp
  rcases hcases with ⟨hlt, hzero⟩ | ⟨hlt, _, hzero⟩ | ⟨hle, hwhole, hzero⟩
  · exact h.shrunk hlength hcapacity hlt hzero
  · apply h.grown hlength (Nat.le_of_lt hlt)
    intro i
    apply byte_zeroed (pageCount_boundary m.length)
    rw [commit_pages_grow (by omega), hzero]
  · apply h.grown hlength hle
    intro i
    have hsame : (m.commit p).byte i = m.byte i := by
      apply byte_congr
      rw [commit_pages_grow (by omega), hzero]
      rfl
    rw [hsame]
    split
    · -- there is no padding: the old length is a page boundary
      have hw := hwhole (by omega)
      omega
    · rfl

/-- **A resize does what it is asked for, or nothing.** -/
theorem Holds.resize (h : Holds m b) (length : Nat) (prepared : Bool) (revoked : Option NativeError) :
    (∃ error, m.resize length prepared revoked = (m, .error error)) ∨
      ∃ m', m.resize length prepared revoked = (m', .ok ()) ∧ Holds m' (b.resize length) := by
  unfold SharedMemory.resize
  split
  · rename_i hsame
    refine .inr ⟨m, rfl, ?_⟩
    subst hsame
    refine ⟨rfl, ?_, h.pages⟩
    intro i hi
    rw [Bytes.byte_resize_old hi]
    exact h.byte i hi
  rename_i hne
  split
  · exact .inl ⟨_, rfl⟩
  split
  · exact .inl ⟨_, rfl⟩
  · exact .inl ⟨_, rfl⟩
  · rename_i p hp
    split
    · exact .inl ⟨_, rfl⟩
    split
    · exact .inl ⟨_, rfl⟩
    · exact .inr ⟨_, rfl, h.commit hne hp⟩

end SharedMemory

end Mnu.Mem
