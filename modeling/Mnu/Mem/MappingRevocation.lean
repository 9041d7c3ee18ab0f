import Mnu.Lib.Except
import Mnu.Mem.Pte

/-!
# `Mnu.Mem.MappingRevocation` — taking mappings away, all or none

Model of `mapping_revocation.rs` over the native backend (`mapping_revocation_native.rs`,
`paging/suspension.rs`). A revocation checks its ranges, discovers the user leaves in them, suspends one after
the other, waits for all CPUs, runs the commit of its caller, and only then clears the leaves and releases
their frames. The journal of suspended leaves restores them when it is dropped.

Every call of the backend that can fail does so when `Faults` says so, and so does every allocation. `trace`
records what is done to the leaves; `revoke_all_or_none` reads it back, and says that nothing but a fault, a
bad range or the commit makes a revocation fail.
-/

namespace Mnu.Mem.Revocation

open Mnu.Lib Function

variable {ε τ : Type}

/-- A leaf: the page table it is in and its virtual address. -/
abbrev Leaf := Nat × Nat

/-- What is done to the leaves and their frames. -/
inductive Event where
  | suspended (leaf : Leaf)
  | restored (leaf : Leaf)
  | synchronized
  | cleared (leaf : Leaf)
  | released (frame : Nat)
  deriving DecidableEq

/-- `Native`, with the leaves it edits. -/
structure Backend where
  leaf : Leaf → Entry
  releaseFrames : Bool
  trace : List Event

/-- Where the backend and the allocator fail. -/
structure Faults (ε : Type) where
  nextPage : Nat → Nat → Option ε
  suspend : Leaf → Option ε
  synchronize : Option ε
  planRoom : Nat → Bool
  pageRoom : Nat → Bool
  journalRoom : Bool

/-- The errors of a revocation. -/
inductive Error (ε : Type) where
  | invalidRange
  | allocation
  | backend (error : ε)

/-- `RecordedUserPage`. -/
structure Page where
  location : Leaf
  original : Entry

/-- A leaf that `next_user_page_entry` reports and `suspend_user_page` takes. -/
def isUser (entry : Entry) : Bool := entry ≠ .unused && Pte.contains entry.flags Pte.userAccessible

namespace Backend

/-- The walk of `next_page` over so many pages from `cursor` on. -/
def walk (b : Backend) (table : Nat) : Nat → Nat → Option Nat
  | 0, _ => none
  | n + 1, cursor => if isUser (b.leaf (table, cursor)) then some cursor else b.walk table n (cursor + 4096)

/-- `next_page`: the first user leaf of a range. -/
def nextPage (b : Backend) (table start stop : Nat) : Option Nat := b.walk table ((stop - start) / 4096) start

/-- `suspend_user_page`. -/
def suspend (b : Backend) (leaf : Leaf) : Option Page × Backend :=
  let entry := b.leaf leaf
  if isUser entry then
    (some ⟨leaf, entry⟩, { b with
      leaf := update b.leaf leaf { entry with flags := entry.flags &&& ~~~Pte.present }
      trace := b.trace ++ [.suspended leaf] })
  else (none, b)

/-- `SuspendedUserPage::restore`. -/
def restore (b : Backend) (page : Page) : Backend :=
  { b with
    leaf := update b.leaf page.location page.original
    trace := b.trace ++ [.restored page.location] }

/-- `synchronize`: all CPUs have given the old translations up. -/
def synchronize (b : Backend) : Backend := { b with trace := b.trace ++ [.synchronized] }

/-- `SuspendedUserPage::release`, or `detach` for a mapping that does not own its frame. -/
def release (b : Backend) (page : Page) : Backend :=
  { b with
    leaf := update b.leaf page.location .unused
    trace := b.trace ++ .cleared page.location ::
      if b.releaseFrames then [.released page.original.addr] else [] }

end Backend

/-- A range: page table, start, exclusive end. -/
abbrev Range := Nat × Nat × Nat

/-- The first loop of `Suspension::new`. -/
def checkRanges (faults : Faults ε) : List Range → List Range → Except (Error ε) (List Range)
  | [], plan => .ok plan
  | (table, start, stop) :: ranges, plan =>
    if stop ≤ start ∨ table % 4096 ≠ 0 ∨ start % 4096 ≠ 0 ∨ stop % 4096 ≠ 0 then .error .invalidRange
    else if !faults.planRoom plan.length then .error .allocation
    else checkRanges faults ranges (plan ++ [(table, start, stop)])

/-- The order of `sort_unstable` on ranges. -/
def Range.le (a b : Range) : Bool :=
  a.1 < b.1 || (a.1 = b.1 && (a.2.1 < b.2.1 || (a.2.1 = b.2.1 && a.2.2 ≤ b.2.2)))

/-- The check of neighbours in the sorted plan. -/
def overlaps : List Range → Bool
  | a :: b :: plan => (a.1 = b.1 && b.2.1 < a.2.2) || overlaps (b :: plan)
  | _ => false

/-- The loop over one range. It makes progress by a page in each round, so `fuel` is the number of its pages.
    -/
def discover (faults : Faults ε) (b : Backend) (table stop : Nat) :
    Nat → Nat → List Leaf → Except (Error ε) (List Leaf)
  | 0, _, pages => .ok pages
  | fuel + 1, cursor, pages =>
    if stop ≤ cursor then .ok pages
    else
      match faults.nextPage table cursor with
      | some e => .error (.backend e)
      | none =>
        match b.nextPage table cursor stop with
        | none => .ok pages
        | some address =>
          if address < cursor ∨ stop ≤ address ∨ address % 4096 ≠ 0 then .error .invalidRange
          else if !faults.pageRoom pages.length then .error .allocation
          else discover faults b table stop fuel (address + 4096) (pages ++ [(table, address)])

/-- The discovery of all leaves. -/
def discoverAll (faults : Faults ε) (b : Backend) : List Range → List Leaf → Except (Error ε) (List Leaf)
  | [], pages => .ok pages
  | (table, start, stop) :: plan, pages =>
    match discover faults b table stop ((stop - start) / 4096) start pages with
    | .error e => .error e
    | .ok pages => discoverAll faults b plan pages

/-- The loop that suspends: the journal so far, and the error that ends it. -/
def suspendAll (faults : Faults ε) : List Leaf → Backend → List Page → Option ε × Backend × List Page
  | [], b, journal => (none, b, journal)
  | leaf :: leaves, b, journal =>
    match faults.suspend leaf with
    | some e => (some e, b, journal)
    | none =>
      match b.suspend leaf with
      | (none, b) => suspendAll faults leaves b journal
      | (some page, b) => suspendAll faults leaves b (journal ++ [page])

/-- `Drop for Suspension`: from the last page to the first. -/
def rollback (b : Backend) (journal : List Page) : Backend := journal.reverse.foldl Backend.restore b

/-- What `Suspension::new` decides before its first edit. -/
def prepare (faults : Faults ε) (ranges : List Range) (b : Backend) : Except (Error ε) (List Leaf) :=
  match checkRanges faults ranges [] with
  | .error e => .error e
  | .ok plan =>
    if overlaps (plan.mergeSort Range.le) then .error .invalidRange
    else
      match discoverAll faults b (plan.mergeSort Range.le) [] with
      | .error e => .error e
      | .ok pages => if faults.journalRoom then .ok pages else .error .allocation

/-- `revoke_with`; `commit` is what the callback returns. -/
def revokeWith (faults : Faults ε) (ranges : List Range) (commit : Except ε τ) (b : Backend) :
    Except (Error ε) τ × Backend :=
  match prepare faults ranges b with
  | .error e => (.error e, b)
  | .ok leaves =>
    match suspendAll faults leaves b [] with
    | (some e, b, journal) => (.error (.backend e), rollback b journal)
    | (none, b, journal) =>
      match if journal.isEmpty then none else faults.synchronize with
      | some e => (.error (.backend e), rollback b journal)
      | none =>
        let b := if journal.isEmpty then b else b.synchronize
        match commit with
        | .error e => (.error (.backend e), rollback b journal)
        | .ok result => (.ok result, journal.foldl Backend.release b)

/-! ## Discovery -/

/-- The user leaves among so many pages from `cursor` on. -/
def leavesFrom (b : Backend) (table : Nat) : Nat → Nat → List Leaf
  | 0, _ => []
  | n + 1, cursor =>
    (if isUser (b.leaf (table, cursor)) then [(table, cursor)] else []) ++
      leavesFrom b table n (cursor + 4096)

/-- The user leaves of a range. -/
def leavesIn (b : Backend) (range : Range) : List Leaf :=
  leavesFrom b range.1 ((range.2.2 - range.2.1) / 4096) range.2.1

variable {plan ranges : List Range} {leaves pages' pages : List Leaf}
  {faults : Faults ε} {b : Backend} {table stop cursor : Nat}

/-- The walk stops at the first user leaf, and the leaves behind it are those still to come. -/
theorem walk_spec (b : Backend) (table n cursor : Nat) :
    (b.walk table n cursor = none ∧ leavesFrom b table n cursor = []) ∨
      ∃ m, m < n ∧ b.walk table n cursor = some (cursor + (n - 1 - m) * 4096) ∧
        leavesFrom b table n cursor = (table, cursor + (n - 1 - m) * 4096) ::
          leavesFrom b table m (cursor + (n - 1 - m) * 4096 + 4096) := by
  induction n generalizing cursor with
  | zero => exact .inl ⟨rfl, rfl⟩
  | succ n ih =>
    simp only [Backend.walk, leavesFrom]
    split
    · exact .inr ⟨n, Nat.lt_succ_self n, by simp⟩
    · rcases ih (cursor + 4096) with h | ⟨m, hm, hwalk, hleaves⟩
      · exact .inl h
      · have haddr : cursor + 4096 + (n - 1 - m) * 4096 = cursor + (n + 1 - 1 - m) * 4096 := by omega
        rw [haddr] at hwalk hleaves
        exact .inr ⟨m, by omega, hwalk, hleaves⟩

/-- The loop over a range appends its user leaves. -/
theorem discover_ok {fuel : Nat} (hfuel : (stop - cursor) / 4096 ≤ fuel)
    (h : discover faults b table stop fuel cursor pages = .ok pages') :
    pages' = pages ++ leavesFrom b table ((stop - cursor) / 4096) cursor := by
  induction fuel generalizing cursor pages with
  | zero =>
    cases h
    simp [Nat.le_zero.mp hfuel, leavesFrom]
  | succ fuel ih =>
    rw [discover] at h
    split at h
    · cases h
      simp [Nat.sub_eq_zero_of_le ‹_›, leavesFrom]
    · split at h
      · cases h
      · rcases walk_spec b table ((stop - cursor) / 4096) cursor with
          ⟨hwalk, hnil⟩ | ⟨m, hm, hwalk, hleaves⟩
        · simp only [Backend.nextPage, hwalk, Except.ok.injEq] at h
          rw [hnil, h, List.append_nil]
        · simp only [Backend.nextPage, hwalk] at h
          split at h
          · cases h
          split at h
          · cases h
          -- the pages behind the leaf that was found are those still to come
          have hrest : (stop - (cursor + ((stop - cursor) / 4096 - 1 - m) * 4096 + 4096)) / 4096 = m := by
            omega
          rw [ih (by omega) h, hrest, hleaves, List.append_assoc, List.singleton_append]

theorem discoverAll_ok
    (h : discoverAll faults b plan pages = .ok pages') : pages' = pages ++ plan.flatMap (leavesIn b) := by
  induction plan generalizing pages with
  | nil => cases h; simp
  | cons range plan ih =>
    obtain ⟨table, start, stop⟩ := range
    rw [discoverAll] at h
    split at h
    · cases h
    rename_i found hfound
    rw [ih h, discover_ok (Nat.le_refl _) hfound, List.flatMap_cons, List.append_assoc]
    rfl

theorem mem_leavesFrom {n : Nat} {leaf : Leaf} : leaf ∈ leavesFrom b table n cursor ↔
      leaf.1 = table ∧ isUser (b.leaf leaf) = true ∧ ∃ i < n, leaf.2 = cursor + i * 4096 := by
  induction n generalizing cursor with
  | zero => simp [leavesFrom]
  | succ n ih =>
    rw [leavesFrom, List.mem_append, ih, List.mem_ite_nil_right, List.mem_singleton]
    constructor
    · rintro (⟨hu, rfl⟩ | ⟨ht, hu, i, hi, ha⟩)
      · exact ⟨rfl, hu, 0, Nat.succ_pos n, by simp⟩
      · exact ⟨ht, hu, i + 1, by omega, by omega⟩
    · rintro ⟨ht, hu, i, hi, ha⟩
      cases i with
      | zero =>
        have hleaf : leaf = (table, cursor) := Prod.ext ht (by simpa using ha)
        exact .inl ⟨hleaf ▸ hu, hleaf⟩
      | succ i => exact .inr ⟨ht, hu, i, by omega, by omega⟩

theorem nodup_leavesFrom (n cursor : Nat) : (leavesFrom b table n cursor).Nodup := by
  induction n generalizing cursor with
  | zero => exact List.nodup_nil
  | succ n ih =>
    rw [leavesFrom]
    split
    · refine List.nodup_cons.mpr ⟨fun hmem => ?_, ih _⟩
      obtain ⟨-, -, i, -, ha⟩ := mem_leavesFrom.mp hmem
      simp only at ha
      omega
    · exact ih _

/-- What the checks of the ranges leave through. -/
def Range.valid (range : Range) : Prop :=
  range.2.1 < range.2.2 ∧ range.1 % 4096 = 0 ∧ range.2.1 % 4096 = 0 ∧ range.2.2 % 4096 = 0

theorem checkRanges_ok {plan' : List Range} (h : checkRanges faults ranges plan = .ok plan') :
    plan' = plan ++ ranges ∧ ∀ range ∈ ranges, range.valid := by
  induction ranges generalizing plan with
  | nil => cases h; simp
  | cons range ranges ih =>
    obtain ⟨table, start, stop⟩ := range
    simp only [checkRanges] at h
    split at h
    · cases h
    split at h
    · cases h
    rename_i hvalid _
    obtain ⟨rfl, hall⟩ := ih h
    refine ⟨by simp, List.forall_mem_cons.mpr ⟨?_, hall⟩⟩
    simp only [not_or, Nat.not_le, not_not] at hvalid
    exact hvalid

/-- In a sorted plan without overlapping neighbours no two ranges of one table overlap. -/
theorem apart_of_sorted (hvalid : ∀ range ∈ plan, range.valid)
    (hsorted : plan.Pairwise fun a b => Range.le a b = true) (hno : overlaps plan = false) :
    plan.Pairwise fun a b => a.1 = b.1 → a.2.2 ≤ b.2.1 := by
  induction plan with
  | nil => exact .nil
  | cons a plan ih =>
    cases plan with
    | nil => exact List.pairwise_singleton _ _
    | cons b plan =>
      obtain ⟨ha, hrest⟩ := List.pairwise_cons.mp hsorted
      obtain ⟨hb, -⟩ := List.pairwise_cons.mp hrest
      simp only [overlaps, Bool.or_eq_false_iff, Bool.and_eq_false_iff, decide_eq_false_iff_not,
        Nat.not_lt] at hno
      refine List.pairwise_cons.mpr ⟨?_, ih (fun r hr => hvalid r (List.mem_cons_of_mem _ hr)) hrest hno.2⟩
      intro c hc htable
      have hab := ha b List.mem_cons_self
      rcases List.mem_cons.mp hc with rfl | hc
      · exact hno.1.resolve_left (fun hne => hne htable)
      · have hbc := hb c hc
        simp only [Range.le, Bool.or_eq_true, Bool.and_eq_true, decide_eq_true_eq] at hab hbc
        rcases hno.1 with hne | hle <;> omega

theorem Range.le_total (a b : Range) : (Range.le a b || Range.le b a) = true := by
  simp only [Range.le, Bool.or_eq_true, Bool.and_eq_true, decide_eq_true_eq]
  omega

theorem Range.le_trans (a b c : Range) (hab : Range.le a b = true) (hbc : Range.le b c = true) :
    Range.le a c = true := by
  simp only [Range.le, Bool.or_eq_true, Bool.and_eq_true, decide_eq_true_eq] at hab hbc ⊢
  omega

/-- A leaf named by the ranges. -/
def Named (ranges : List Range) (leaf : Leaf) : Prop :=
  ∃ range ∈ ranges, leaf.1 = range.1 ∧ range.2.1 ≤ leaf.2 ∧ leaf.2 < range.2.2 ∧ leaf.2 % 4096 = 0

/-- **The leaves discovered are the user leaves named by the ranges, each once.** -/
theorem prepare_ok (h : prepare faults ranges b = .ok leaves) :
    leaves.Nodup ∧ ∀ leaf, leaf ∈ leaves ↔ isUser (b.leaf leaf) = true ∧ Named ranges leaf := by
  unfold prepare at h
  split at h
  · cases h
  rename_i plan hcheck
  obtain ⟨rfl, hvalid⟩ := checkRanges_ok hcheck
  split at h
  · cases h
  rename_i hno
  split at h
  · cases h
  rename_i pages hpages
  split at h
  swap
  · cases h
  cases h
  have hmem : ∀ range, range ∈ plan.mergeSort Range.le ↔ range ∈ plan := fun range => List.mem_mergeSort
  have hvalid' : ∀ range ∈ plan.mergeSort Range.le, range.valid := fun r hr => hvalid r ((hmem r).mp hr)
  have hapart := apart_of_sorted hvalid' (List.pairwise_mergeSort Range.le_trans Range.le_total _)
    (eq_false_of_ne_true hno)
  rw [discoverAll_ok hpages, List.nil_append]
  constructor
  · refine List.nodup_flatMap.mpr ⟨fun range _ => nodup_leavesFrom _ _, ?_⟩
    refine hapart.imp_of_mem fun {x y} hx hy hxy leaf hl hl' => ?_
    obtain ⟨ht, -, i, hi, ha⟩ := mem_leavesFrom.mp hl
    obtain ⟨ht', -, j, hj, ha'⟩ := mem_leavesFrom.mp hl'
    have := hxy (ht.symm.trans ht')
    have := hvalid' x hx
    unfold Range.valid at this
    omega
  · intro leaf
    simp only [List.mem_flatMap, hmem, leavesIn, mem_leavesFrom, Named]
    constructor
    · rintro ⟨range, hr, ht, hu, i, hi, ha⟩
      have := hvalid range hr
      unfold Range.valid at this
      exact ⟨hu, range, hr, ht, by omega, by omega, by omega⟩
    · rintro ⟨hu, range, hr, ht, hge, hlt, hal⟩
      have := hvalid range hr
      unfold Range.valid at this
      exact ⟨range, hr, ht, hu, (leaf.2 - range.2.1) / 4096, by omega, by omega⟩

/-! ## Revocations without a fault -/

/-- The backend and the allocator never fail. -/
structure Faults.Silent (faults : Faults ε) : Prop where
  nextPage : ∀ table cursor, faults.nextPage table cursor = none
  suspend : ∀ leaf, faults.suspend leaf = none
  synchronize : faults.synchronize = none
  planRoom : ∀ n, faults.planRoom n = true
  pageRoom : ∀ n, faults.pageRoom n = true
  journalRoom : faults.journalRoom = true

/-- Ranges of whole pages, no two of which share a page of one table. -/
structure Apart (ranges : List Range) : Prop where
  valid : ∀ range ∈ ranges, range.valid
  disjoint : ranges.Pairwise fun a b => a.1 = b.1 → a.2.2 ≤ b.2.1 ∨ b.2.2 ≤ a.2.1

theorem checkRanges_silent (hplan : ∀ n, faults.planRoom n = true) (hvalid : ∀ range ∈ ranges, range.valid) :
    checkRanges faults ranges plan = .ok (plan ++ ranges) := by
  induction ranges generalizing plan with
  | nil => rw [checkRanges, List.append_nil]
  | cons range ranges ih =>
    obtain ⟨table, start, stop⟩ := range
    obtain ⟨hrange, hrest⟩ := List.forall_mem_cons.mp hvalid
    have hgood : ¬ (stop ≤ start ∨ table % 4096 ≠ 0 ∨ start % 4096 ≠ 0 ∨ stop % 4096 ≠ 0) := by
      simp only [Range.valid] at hrange
      omega
    rw [checkRanges, if_neg hgood, hplan, ih hrest, List.append_assoc]
    rfl

/-- Neighbours of a sorted plan overlap only if two of the ranges do. -/
theorem not_overlaps (h : Apart plan) (hsorted : plan.Pairwise fun a b => Range.le a b = true) :
    overlaps plan = false := by
  induction plan with
  | nil => rfl
  | cons a plan ih =>
    cases plan with
    | nil => rfl
    | cons b plan =>
      obtain ⟨hbefore, hsorted'⟩ := List.pairwise_cons.mp hsorted
      obtain ⟨hdisjoint, hdisjoint'⟩ := List.pairwise_cons.mp h.disjoint
      rw [overlaps, ih ⟨fun r hr => h.valid r (List.mem_cons_of_mem _ hr), hdisjoint'⟩ hsorted',
        Bool.or_false]
      have hle := hbefore b List.mem_cons_self
      have hapart := hdisjoint b List.mem_cons_self
      have hvalid := h.valid b (List.mem_cons_of_mem _ List.mem_cons_self)
      simp only [Range.le, Range.valid, Bool.or_eq_true, Bool.and_eq_true, decide_eq_true_eq] at hle hvalid
      simp only [Bool.and_eq_false_iff, decide_eq_false_iff_not]
      by_contra hboth
      simp only [not_or, not_not] at hboth
      rcases hapart hboth.1 <;> omega

/-- The loop over a range of whole pages finds each leaf inside of it. -/
theorem discover_silent (hnext : ∀ table cursor, faults.nextPage table cursor = none)
    (hpage : ∀ n, faults.pageRoom n = true) (fuel : Nat) (hcursor : cursor % 4096 = 0) :
    ∃ pages', discover faults b table stop fuel cursor pages = .ok pages' := by
  induction fuel generalizing cursor pages with
  | zero => exact ⟨pages, rfl⟩
  | succ fuel ih =>
    rw [discover]
    split
    · exact ⟨pages, rfl⟩
    · rename_i hcontinue
      rw [hnext]
      rcases walk_spec b table ((stop - cursor) / 4096) cursor with ⟨hwalk, -⟩ | ⟨m, hm, hwalk, -⟩
      · exact ⟨pages, by simp only [Backend.nextPage, hwalk]⟩
      · simp only [Backend.nextPage, hwalk]
        rw [if_neg (by omega), hpage]
        exact ih (by omega)

theorem discoverAll_silent (hnext : ∀ table cursor, faults.nextPage table cursor = none)
    (hpage : ∀ n, faults.pageRoom n = true) (hvalid : ∀ range ∈ plan, range.valid) :
    ∃ pages', discoverAll faults b plan pages = .ok pages' := by
  induction plan generalizing pages with
  | nil => exact ⟨pages, rfl⟩
  | cons range plan ih =>
    obtain ⟨table, start, stop⟩ := range
    obtain ⟨hrange, hrest⟩ := List.forall_mem_cons.mp hvalid
    obtain ⟨found, hfound⟩ : ∃ found, discover faults b table stop ((stop - start) / 4096) start pages =
      .ok found :=
      discover_silent hnext hpage _ hrange.2.2.1
    rw [discoverAll, hfound]
    exact ih hrest

/-- Before its first edit a revocation is stopped by nothing but a fault or a bad range. -/
theorem prepare_silent (hsilent : faults.Silent) (hranges : Apart ranges) :
    ∃ leaves, prepare faults ranges b = .ok leaves := by
  have hsorted := List.pairwise_mergeSort Range.le_trans Range.le_total ranges
  have hplan : Apart (ranges.mergeSort Range.le) := by
    refine ⟨fun range hr => hranges.valid range (List.mem_mergeSort.mp hr), ?_⟩
    refine (List.mergeSort_perm ranges Range.le).symm.pairwise hranges.disjoint fun {x y} hxy heq => ?_
    exact (hxy heq.symm).symm
  obtain ⟨pages, hpages⟩ : ∃ pages, discoverAll faults b (ranges.mergeSort Range.le) [] = .ok pages :=
    discoverAll_silent hsilent.nextPage hsilent.pageRoom hplan.valid
  rw [prepare, checkRanges_silent hsilent.planRoom hranges.valid]
  simp only [List.nil_append, not_overlaps hplan hsorted, Bool.false_eq_true, if_false,
    hpages, hsilent.journalRoom, if_true]
  exact ⟨pages, rfl⟩

theorem suspendAll_silent (hsuspend : ∀ leaf, faults.suspend leaf = none) (journal : List Page) :
    (suspendAll faults leaves b journal).1 = none := by
  induction leaves generalizing b journal with
  | nil => rfl
  | cons leaf leaves ih =>
    rw [suspendAll, hsuspend]
    dsimp only
    split <;> exact ih _

/-- **A revocation that meets no fault and is committed succeeds.** -/
theorem revokeWith_silent (hsilent : faults.Silent) (hranges : Apart ranges) (result : τ) :
    (revokeWith faults ranges (.ok result) b).1 = .ok result := by
  obtain ⟨leaves, hprepare⟩ := prepare_silent (b := b) hsilent hranges
  have hsuspend : (suspendAll faults leaves b []).1 = none := suspendAll_silent hsilent.suspend []
  unfold revokeWith
  simp only [hprepare]
  split
  · rename_i hfailed
    rw [hfailed] at hsuspend
    cases hsuspend
  · rw [hsilent.synchronize, ite_self]

/-! ## Suspending, restoring and releasing -/

theorem foldl_restore (f : Leaf → Entry) (leaves : List Leaf) (b : Backend) :
    (leaves.map fun p => Page.mk p (f p)).foldl Backend.restore b = { b with
      leaf := fun p => if p ∈ leaves then f p else b.leaf p
      trace := b.trace ++ leaves.map .restored } := by
  induction leaves generalizing b with
  | nil => simp
  | cons p leaves ih =>
    rw [List.map_cons, List.foldl_cons, ih]
    simp only [Backend.restore, List.mem_cons, List.map_cons, List.append_assoc,
      List.singleton_append, Backend.mk.injEq, and_true]
    funext q
    by_cases hq : q = p <;> simp [hq]

theorem foldl_release (f : Leaf → Entry) (leaves : List Leaf) (b : Backend) :
    (leaves.map fun p => Page.mk p (f p)).foldl Backend.release b = { b with
      leaf := fun p => if p ∈ leaves then .unused else b.leaf p
      trace := b.trace ++ leaves.flatMap fun p =>
        .cleared p :: if b.releaseFrames then [.released (f p).addr] else [] } := by
  induction leaves generalizing b with
  | nil => simp
  | cons p leaves ih =>
    rw [List.map_cons, List.foldl_cons, ih]
    simp only [Backend.release, List.mem_cons, List.flatMap_cons, List.append_assoc,
      Backend.mk.injEq, and_true]
    funext q
    by_cases hq : q = p <;> simp [hq]

/-- The backend with so many leaves suspended. -/
def Backend.suspended (b : Backend) (leaves : List Leaf) : Backend :=
  { b with
    leaf := fun p => if p ∈ leaves then { b.leaf p with flags := (b.leaf p).flags &&& ~~~Pte.present }
      else b.leaf p
    trace := b.trace ++ leaves.map .suspended }

/-- The loop suspends the leaves in order, up to the first failure. -/
theorem suspendAll_spec (faults : Faults ε) (b : Backend) (done : List Leaf)
    (hnodup : (done ++ leaves).Nodup) (huser : ∀ p ∈ leaves, isUser (b.leaf p) = true) :
    ∃ e prefixed rest, leaves = prefixed ++ rest ∧ (e = none → rest = []) ∧
      suspendAll faults leaves (b.suspended done) (done.map fun p => ⟨p, b.leaf p⟩) =
        (e, b.suspended (done ++ prefixed), (done ++ prefixed).map fun p => ⟨p, b.leaf p⟩) := by
  induction leaves generalizing done with
  | nil => exact ⟨none, [], [], rfl, fun _ => rfl, by simp [suspendAll]⟩
  | cons p leaves ih =>
    rw [suspendAll]
    cases hfault : faults.suspend p with
    | some e => exact ⟨some e, [], p :: leaves, rfl, nofun, by simp⟩
    | none =>
      have hp : p ∉ done := fun hm => (List.nodup_append.mp hnodup).2.2 p hm p List.mem_cons_self rfl
      have hsuspend : (b.suspended done).suspend p = (some ⟨p, b.leaf p⟩, b.suspended (done ++ [p])) := by
        simp only [Backend.suspend, Backend.suspended, hp, if_false, huser p List.mem_cons_self, if_true,
          List.mem_append, List.mem_singleton, List.map_append, List.map_cons,
            List.map_nil, List.append_assoc,
          Prod.mk.injEq, Backend.mk.injEq, and_true, true_and]
        funext q
        by_cases hq : q = p <;> simp [hq]
      obtain ⟨e, prefixed, rest, rfl, hrest, heq⟩ := ih (done ++ [p]) (by simpa using hnodup)
        fun q hq => huser q (List.mem_cons_of_mem _ hq)
      refine ⟨e, p :: prefixed, rest, rfl, hrest, ?_⟩
      simp only [List.map_append, List.map_cons, List.map_nil, List.append_assoc,
        List.singleton_append] at heq ⊢
      simp only [hsuspend, heq]

/-- Dropping the journal undoes the suspension. -/
theorem rollback_suspended (leaves : List Leaf) (events : List Event) :
    rollback { b.suspended leaves with trace := (b.suspended leaves).trace ++ events }
        (leaves.map fun p => ⟨p, b.leaf p⟩) = { b with
      trace := b.trace ++ leaves.map .suspended ++ events ++ leaves.reverse.map .restored } := by
  rw [rollback, ← List.map_reverse, foldl_restore]
  simp only [Backend.suspended, List.mem_reverse, Backend.mk.injEq, and_true]
  funext q
  by_cases hq : q ∈ leaves <;> simp [hq]

/-- What a revocation has done, by its result: it restored every leaf it suspended, or it cleared every user
    leaf named by its ranges. -/
def AllOrNone (ranges : List Range) (commit : Except ε τ) (b : Backend) : Except (Error ε) τ × Backend → Prop
  | (.error _, b') => ∃ (leaves : List Leaf) (sync : List Event),
      leaves.Nodup ∧ (sync = [] ∨ sync = [.synchronized]) ∧ b' = { b with
        trace := b.trace ++ leaves.map .suspended ++ sync ++ leaves.reverse.map .restored }
  | (.ok result, b') => commit = .ok result ∧ ∃ leaves : List Leaf, leaves.Nodup ∧
      (∀ leaf, leaf ∈ leaves ↔ isUser (b.leaf leaf) = true ∧ Named ranges leaf) ∧ b' = { b with
        leaf := fun p => if p ∈ leaves then .unused else b.leaf p
        trace := b.trace ++ leaves.map .suspended ++ (if leaves = [] then [] else [.synchronized]) ++
          leaves.flatMap fun p => .cleared p :: if b.releaseFrames then [.released (b.leaf p).addr] else [] }

theorem allOrNone_revokeWith (faults : Faults ε) (ranges : List Range) (commit : Except ε τ) (b : Backend) :
    AllOrNone ranges commit b (revokeWith faults ranges commit b) := by
  unfold revokeWith
  cases hprepare : prepare faults ranges b with
  | error e => exact ⟨[], [], List.nodup_nil, .inl rfl, by simp⟩
  | ok leaves =>
    obtain ⟨hnodup, hmem⟩ := prepare_ok hprepare
    obtain ⟨e, prefixed, rest, rfl, hrest, heq⟩ := suspendAll_spec faults b []
      (by simpa using hnodup) fun p hp => ((hmem p).mp hp).1
    have hstart : b.suspended [] = b := by simp [Backend.suspended]
    simp only [List.map_nil, List.nil_append, hstart] at heq
    have hpre : prefixed.Nodup := hnodup.of_append_left
    have hback (sync : List Event) (b' : Backend)
        (hb : b' = { b.suspended prefixed with trace := (b.suspended prefixed).trace ++ sync }) :=
      hb ▸ rollback_suspended (b := b) prefixed sync
    simp only [heq]
    cases e with
    | some e => exact ⟨prefixed, [], hpre, .inl rfl, hback [] _ (by simp)⟩
    | none =>
      obtain rfl := hrest rfl
      rw [List.append_nil] at hmem hnodup
      cases prefixed with
      | nil =>
        simp only [List.map_nil, List.isEmpty_nil, if_true]
        cases commit with
        | error e => exact ⟨[], [], hpre, .inl rfl, hback [] _ (by simp)⟩
        | ok result => exact ⟨rfl, [], hpre, hmem, by simp [Backend.suspended]⟩
      | cons p prefixed =>
        simp only [List.map_cons, List.isEmpty_cons, Bool.false_eq_true, if_false]
        cases faults.synchronize with
        | some e => exact ⟨p :: prefixed, [], hpre, .inl rfl, hback [] _ (by simp)⟩
        | none =>
          cases commit with
          | error e => exact ⟨p :: prefixed, [.synchronized], hpre, .inr rfl, hback _ _ rfl⟩
          | ok result =>
            refine ⟨rfl, p :: prefixed, hpre, hmem, ?_⟩
            rw [← List.map_cons (f := fun p => Page.mk p (b.leaf p)), foldl_release]
            simp only [Backend.suspended, Backend.synchronize, Backend.mk.injEq]
            refine ⟨funext fun q => ?_, trivial, by simp⟩
            by_cases hq : q ∈ p :: prefixed <;> simp [hq]

/-- **A revocation does all or nothing.** If it fails, wherever that was, the leaves it suspended are restored
    to what they were, each once, and nothing is released. If it succeeds, the user leaves named by its ranges
    are suspended, and after the synchronization each is cleared once and its frame released. It succeeds
    whenever nothing fails and its ranges are valid and apart. -/
theorem revoke_all_or_none (faults : Faults ε) (ranges : List Range) (commit : Except ε τ) (b : Backend) :
    AllOrNone ranges commit b (revokeWith faults ranges commit b) ∧
      (faults.Silent → Apart ranges → ∀ result, commit = .ok result →
        (revokeWith faults ranges commit b).1 = .ok result) := by
  refine ⟨allOrNone_revokeWith faults ranges commit b, ?_⟩
  rintro hsilent hranges result rfl
  exact revokeWith_silent hsilent hranges result

/-- Nothing fails. -/
def noFaults : Faults Unit := ⟨fun _ _ => none, fun _ => none, none, fun _ => true, fun _ => true, true⟩

/-- Two ranges of table 0x1000, the second of them named first. -/
def twoRanges : List Range := [(0x1000, 0x8000, 0xA000), (0x1000, 0x2000, 0x5000)]

/-- User leaves at pages 2, 4 and 8 of that table, the one at page 4 not present. -/
def threeLeaves : Backend where
  leaf p :=
    if p = (0x1000, 0x2000) then ⟨0x20000, Pte.present ||| Pte.userAccessible⟩
    else if p = (0x1000, 0x4000) then ⟨0x30000, Pte.userAccessible⟩
    else if p = (0x1000, 0x8000) then ⟨0x40000, Pte.present ||| Pte.userAccessible⟩
    else .unused
  releaseFrames := true
  trace := []

theorem revoke_all_or_none_threeLeaves :
    (revokeWith noFaults twoRanges (.ok ()) threeLeaves).1 = .ok () ∧
      (revokeWith noFaults twoRanges (.ok ()) threeLeaves).2.trace =
        [.suspended (0x1000, 0x2000), .suspended (0x1000, 0x4000), .suspended (0x1000, 0x8000), .synchronized,
          .cleared (0x1000, 0x2000), .released 0x20000, .cleared (0x1000, 0x4000), .released 0x30000,
          .cleared (0x1000, 0x8000), .released 0x40000] := by
  have hsilent : noFaults.Silent := ⟨fun _ _ => rfl, fun _ => rfl, rfl, fun _ => rfl, fun _ => rfl, rfl⟩
  have hranges : Apart twoRanges := ⟨by simp [twoRanges, Range.valid], by simp [twoRanges]⟩
  refine ⟨(revoke_all_or_none noFaults twoRanges (.ok ()) threeLeaves).2 hsilent hranges () rfl, ?_⟩
  have hsorted : twoRanges.mergeSort Range.le = twoRanges.reverse := by
    simp [twoRanges, List.mergeSort, List.MergeSort.Internal.splitInTwo, Range.le]
  have hprepare : prepare noFaults twoRanges threeLeaves =
      .ok [(0x1000, 0x2000), (0x1000, 0x4000), (0x1000, 0x8000)] := by
    rw [prepare, show checkRanges noFaults twoRanges [] = .ok twoRanges from rfl]
    dsimp only
    rw [hsorted]
    rfl
  rw [revokeWith, hprepare]
  decide +kernel

end Mnu.Mem.Revocation
