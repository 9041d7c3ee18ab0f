import Mnu.Mem.ExtentTransaction

/-!
# `Mnu.Mem.ExtentTransactionInv` — every suspended page is resolved once

The pages that wait, those that were restored and those that were released make up the pages that were
recorded (`Inv.perm`), and no location is recorded twice, since the captured spans do not overlap. What may be
restored depends on the phase: `Phase` says for each publication state which marks are set and what has been
restored so far.

Every operation is one of a few moves between phases, followed by a run of the loop of `resolve` (`Resolves`),
so there is one lemma about moves (`Inv.settled`) and one description of each operation by its cases. What a
step does to the table itself is `Writes`: the records and the ledger speak of entries that are really there.
-/

namespace Mnu.Mem.Extent

open Mnu.Lib Pte Function

/-! ## The locations of a transaction are distinct -/

theorem span_le_total (a b : Span) : Span.Le a b ∨ Span.Le b a := by
  unfold Span.Le
  omega

theorem span_le_trans (a b c : Span) (h : Span.Le a b) (h' : Span.Le b c) : Span.Le a c := by
  unfold Span.Le at *
  omega

instance : Std.Total Span.Le := ⟨span_le_total⟩

instance : IsTrans Span Span.Le := ⟨span_le_trans⟩

/-- Sorted spans whose neighbours do not overlap do not overlap at all. -/
theorem disjoint_of_not_ambiguous {spans : List Span} (hsorted : spans.Pairwise Span.Le)
    (hne : ∀ span ∈ spans, span.low < span.high) (h : ambiguous spans = false) :
    spans.Pairwise fun a b => a.root = b.root → a.high ≤ b.low := by
  induction spans with
  | nil => exact .nil
  | cons a rest ih =>
    obtain ⟨hfirst, hrest⟩ := List.pairwise_cons.mp hsorted
    have hne' : ∀ span ∈ rest, span.low < span.high := fun span hs => hne span (List.mem_cons_of_mem a hs)
    cases rest with
    | nil => exact List.pairwise_singleton _ a
    | cons b rest =>
      simp only [ambiguous, Bool.or_eq_false_iff, Bool.and_eq_false_iff, beq_eq_false_iff_ne,
        decide_eq_false_iff_not] at h
      have hpair := ih hrest hne' h.2
      refine List.pairwise_cons.mpr ⟨?_, hpair⟩
      intro c hc hroot
      have hab : a.root = b.root → a.high ≤ b.low := by
        intro heq
        rcases h.1 with hdiff | hlow
        · exact absurd heq hdiff
        · exact Nat.not_lt.mp hlow
      rcases List.mem_cons.mp hc with rfl | hc'
      · exact hab hroot
      · -- the neighbour is between the two, and it is not empty
        have hle := hfirst b List.mem_cons_self
        have hbc := (List.pairwise_cons.mp hrest).1 c hc'
        have hb := hne' b List.mem_cons_self
        have hbroot : a.root = b.root := by
          unfold Span.Le at hle hbc
          omega
        have hnext := (List.pairwise_cons.mp hpair).1 c hc' (hbroot ▸ hroot)
        have := hab hbroot
        omega

theorem capture_disjoint {spans sorted : List Span} (h : capture spans = some sorted) :
    sorted.Pairwise fun a b => a.root = b.root → a.high ≤ b.low := by
  unfold capture at h
  dsimp only at h
  split at h
  · cases h
  rename_i hamb
  cases h
  apply disjoint_of_not_ambiguous (List.pairwise_insertionSort _ _) _ (by simpa using hamb)
  intro span hs
  have hmem := (List.mem_insertionSort _).mp hs
  simpa using (List.mem_filter.mp hmem).2

section Walk

variable {walk : Nat → Nat → Nat → Option (Option Nat)}

/-- The loop over a range moves up, and stays inside. -/
theorem collect_sorted {root stop fuel cursor : Nat} {l : List Nat}
    (h : collect walk root stop fuel cursor = some l) :
    (∀ x ∈ l, cursor ≤ x ∧ x < stop) ∧ l.Pairwise (· < ·) := by
  induction fuel generalizing cursor l with
  | zero =>
    cases h
    exact ⟨nofun, .nil⟩
  | succ fuel ih =>
    unfold collect at h
    split at h
    · cases h
      exact ⟨nofun, .nil⟩
    split at h
    · cases h
    · cases h
      exact ⟨nofun, .nil⟩
    · rename_i address _
      split at h
      · cases h
      rename_i hok
      obtain ⟨rest, hrest, rfl⟩ := Option.map_eq_some_iff.mp h
      obtain ⟨hbounds, hpair⟩ := ih hrest
      refine ⟨?_, List.pairwise_cons.mpr ⟨?_, hpair⟩⟩
      · intro x hx
        rcases List.mem_cons.mp hx with rfl | hx
        · omega
        · have := hbounds x hx
          omega
      · intro x hx
        have := hbounds x hx
        omega

/-- The fuel of a range is never used up: one more round changes nothing. -/
theorem collect_fuel {root stop fuel cursor : Nat} (h : stop ≤ cursor + fuel) :
    collect walk root stop (fuel + 1) cursor = collect walk root stop fuel cursor := by
  induction fuel generalizing cursor with
  | zero =>
    unfold collect
    rw [if_pos (by omega)]
  | succ fuel ih =>
    rw [collect, collect]
    split
    · rfl
    split
    · rfl
    · rfl
    split
    · rfl
    · rw [ih (by omega)]

/-- **No location is found twice.** -/
theorem locations_nodup {spans : List Span} {l : List Location}
    (hdisjoint : spans.Pairwise fun a b => a.root = b.root → a.high ≤ b.low)
    (h : locations walk spans = some l) :
    l.Nodup ∧ ∀ x ∈ l, ∃ span ∈ spans, x.1 = span.root ∧ span.low ≤ x.2 ∧ x.2 < span.high := by
  induction spans generalizing l with
  | nil =>
    cases h
    exact ⟨List.nodup_nil, nofun⟩
  | cons span rest ih =>
    obtain ⟨hfirst, hrest⟩ := List.pairwise_cons.mp hdisjoint
    unfold locations at h
    simp only [bind, pure, Option.bind_eq_some_iff, Option.some.injEq] at h
    obtain ⟨addresses, hcollect, others, hothers, rfl⟩ := h
    obtain ⟨hnodup, hin⟩ := ih hrest hothers
    obtain ⟨hbounds, hpair⟩ := collect_sorted hcollect
    constructor
    · apply List.Nodup.append
      · apply List.Nodup.map
        · intro a b hab
          exact (Prod.mk.inj hab).2
        · exact hpair.imp fun hlt => Nat.ne_of_lt hlt
      · exact hnodup
      · intro x hx hx'
        obtain ⟨address, haddress, rfl⟩ := List.mem_map.mp hx
        obtain ⟨other, hother, hroot, hlow, _⟩ := hin _ hx'
        have := hfirst other hother hroot
        have := hbounds address haddress
        dsimp only at hlow
        omega
    · intro x hx
      rcases List.mem_append.mp hx with hx | hx
      · obtain ⟨address, haddress, rfl⟩ := List.mem_map.mp hx
        exact ⟨span, List.mem_cons_self, rfl, hbounds address haddress⟩
      · obtain ⟨other, hother, hfacts⟩ := hin x hx
        exact ⟨other, List.mem_cons_of_mem span hother, hfacts⟩

end Walk

/-! ## Resolving pages -/

/-- The entry is the original again, but for the bits that hardware sets. -/
def Restoration.Exact (r : Restoration) : Prop :=
  r.entry.addr = r.page.record.original.addr ∧
    r.entry.flags &&& ~~~accessedDirty = r.page.record.original.flags &&& ~~~accessedDirty ∧
    r.page.record.original.flags &&& r.entry.flags = r.page.record.original.flags

/-- The page was outside of what the resize changes, or its suffix was cleared. -/
def Restoration.Kept (r : Restoration) : Prop := r.page.affected = false ∨ r.zeroed = true

theorem restoredEntry_exact (page : Page) (e : Entry) (zeroed : Bool) :
    Restoration.Exact ⟨page, page.record.restoredEntry e, zeroed⟩ := by
  refine ⟨rfl, ?_, ?_⟩
  · show (page.record.original.flags ||| (e.flags &&& accessedDirty)) &&& ~~~accessedDirty = _
    ext i
    simp only [BitVec.getElem_and, BitVec.getElem_or, BitVec.getElem_not]
    cases page.record.original.flags[i] <;> cases e.flags[i] <;> cases accessedDirty[i] <;> rfl
  · show page.record.original.flags &&& (page.record.original.flags ||| (e.flags &&& accessedDirty)) = _
    ext i
    simp only [BitVec.getElem_and, BitVec.getElem_or]
    cases page.record.original.flags[i] <;> rfl

/-- The records of a ledger. -/
def Ledger.records (ledger : Ledger) : List Record :=
  ledger.restored.map (fun r => r.page.record) ++ ledger.released.map (fun p => p.record)

/-- The entries of what a resolution adds to the ledger: a restored page has its restored entry in the table,
    and a released page has none any more. -/
structure Entered (ledger ledger' : Ledger) : Prop where
  restored : ∀ r ∈ ledger'.restored, r ∈ ledger.restored ∨ ledger'.table r.page.record.location = some r.entry
  released : ∀ p ∈ ledger'.released, p ∈ ledger.released ∨ ledger'.table p.record.location = some .unused

/-- What a run of `resolve` does: the publication stays, pages move into the ledger, and the phase says how.
    -/
structure Resolves (w : Work) (ledger : Ledger) (w' : Work) (ledger' : Ledger)
    (result : Except NativeError Unit) : Prop where
  publication : w'.publication = w.publication
  isExternal : w'.isExternal = w.isExternal
  isRefresh : w'.isRefresh = w.isRefresh
  perm : (w'.pages.map (fun p => p.record) ++ ledger'.records).Perm
    (w.pages.map (fun p => p.record) ++ ledger.records)
  restored : ∀ r ∈ ledger'.restored, r ∈ ledger.restored ∨
    ((r.Exact ∧ w.publication ≠ .unavailable ∧ (w.publication = .published → r.Kept)) ∧
      w.publication ≠ .inFlight ∧ w.publication ≠ .requested)
  complete : result = .ok () → w'.pages = []
  entered : (w.pages.map fun p => p.record.location).Nodup → Entered ledger ledger'

theorem tryEdit_some {r : Record} {table table' : Table} {edit : Entry → Entry} {e : Entry}
    (h : r.tryEdit table edit = some (e, table')) :
    ∃ c, e = edit c ∧ table' = update table r.location (some e) := by
  unfold Record.tryEdit at h
  split at h
  · cases h
  split at h
  · cases h
    exact ⟨_, rfl, rfl⟩
  · cases h

theorem tryEdit_of_current {r : Record} {table : Table} (h : r.isCurrent table = true)
    (edit : Entry → Entry) : ∃ e, r.tryEdit table edit = some (e, update table r.location (some e)) := by
  unfold Record.isCurrent at h
  obtain ⟨c, hc, hm⟩ := (Option.any_eq_true _ _).mp h
  refine ⟨edit c, ?_⟩
  unfold Record.tryEdit
  rw [hc]
  exact if_pos hm

/-- The loop, page by page. -/
theorem resolvePages_spec {spans : List Span} {p : Publication} {pages pages' : List Page}
    {ledger ledger' : Ledger} {ok : Bool} (h : resolvePages spans p pages ledger = (pages', ledger', ok)) :
    (pages'.map (fun p => p.record) ++ ledger'.records).Perm
    (pages.map (fun p => p.record) ++ ledger.records) ∧ (∀ r ∈ ledger'.restored, r ∈ ledger.restored ∨
        (r.Exact ∧ p ≠ .unavailable ∧ (p = .published → r.Kept))) ∧ (ok = true → pages' = []) := by
  induction pages generalizing ledger with
  | nil =>
    cases h
    exact ⟨List.Perm.refl _, fun r hr => .inl hr, fun _ => rfl⟩
  | cons page pages ih =>
    unfold resolvePages at h
    split at h
    · cases h
      exact ⟨List.Perm.refl _, fun r hr => .inl hr, nofun⟩
    split at h
    · rename_i hrestore
      split at h
      · cases h
        exact ⟨List.Perm.refl _, fun r hr => .inl hr, nofun⟩
      · rename_i entry table hedit
        obtain ⟨hperm, hrestored, hcomplete⟩ := ih h
        obtain ⟨c, rfl, _⟩ := tryEdit_some hedit
        refine ⟨?_, ?_, hcomplete⟩
        · refine hperm.trans ?_
          show (pages.map (fun p => p.record) ++ (page.record :: _ ++ _)).Perm (page.record :: _ ++ _)
          exact List.perm_middle
        · intro r hr
          rcases hrestored r hr with hold | hnew
          · rcases List.mem_cons.mp hold with rfl | hold
            · refine .inr ⟨restoredEntry_exact page c _, hrestore.1, ?_⟩
              intro hpub
              rcases hrestore.2 with hne | haffected | hzero
              · exact absurd hpub hne
              · exact .inl haffected
              · refine .inr ?_
                show (decide (p = .published) && page.zero.isSome) = true
                rw [hzero, hpub]
                rfl
            · exact .inl hold
          · exact .inr hnew
    · split at h
      · cases h
        exact ⟨List.Perm.refl _, fun r hr => .inl hr, nofun⟩
      · obtain ⟨hperm, hrestored, hcomplete⟩ := ih h
        refine ⟨?_, hrestored, hcomplete⟩
        refine hperm.trans ?_
        show (pages.map (fun p => p.record) ++ (_ ++ page.record :: _)).Perm (page.record :: _ ++ _)
        rw [← List.append_assoc]
        refine List.perm_middle.trans ?_
        rw [List.append_assoc]
        exact List.Perm.refl _

/-- **The loop writes what it enters into the ledger**, and it leaves the entries of other locations alone. -/
theorem resolvePages_entered {spans : List Span} {p : Publication} {pages pages' : List Page}
    {ledger ledger' : Ledger} {ok : Bool} (hnodup : (pages.map fun page => page.record.location).Nodup)
    (h : resolvePages spans p pages ledger = (pages', ledger', ok)) : Entered ledger ledger' ∧
      ∀ location ∉ pages.map (fun page => page.record.location),
        ledger'.table location = ledger.table location := by
  have hsame : Entered ledger ledger ∧ ∀ location ∉ pages.map (fun page => page.record.location),
      ledger.table location = ledger.table location :=
    ⟨⟨fun _ hr => .inl hr, fun _ hp => .inl hp⟩, fun _ _ => rfl⟩
  induction pages generalizing ledger with
  | nil =>
    cases h
    exact hsame
  | cons page pages ih =>
    obtain ⟨hnew, hrest⟩ := List.nodup_cons.mp hnodup
    unfold resolvePages at h
    split at h
    · cases h
      exact hsame
    split at h
    · split at h
      · cases h
        exact hsame
      · rename_i entry table hedit
        obtain ⟨_, -, rfl⟩ := tryEdit_some hedit
        obtain ⟨hentered, hframe⟩ := ih hrest h ⟨⟨fun _ hr => .inl hr, fun _ hp => .inl hp⟩, fun _ _ => rfl⟩
        refine ⟨⟨fun r hr => ?_, hentered.released⟩, fun location hnot => ?_⟩
        · rcases hentered.restored r hr with hold | hthere
          · rcases List.mem_cons.mp hold with rfl | hold
            · -- the pages behind this one are elsewhere
              exact .inr ((hframe _ hnew).trans (update_self _ _ _))
            · exact .inl hold
          · exact .inr hthere
        · rw [List.map_cons, List.mem_cons, not_or] at hnot
          exact (hframe location hnot.2).trans (update_of_ne hnot.1 _ _)
    · split at h
      · cases h
        exact hsame
      · rename_i entry table hedit
        obtain ⟨_, rfl, rfl⟩ := tryEdit_some hedit
        obtain ⟨hentered, hframe⟩ := ih hrest h ⟨⟨fun _ hr => .inl hr, fun _ hp => .inl hp⟩, fun _ _ => rfl⟩
        refine ⟨⟨hentered.restored, fun q hq => ?_⟩, fun location hnot => ?_⟩
        · rcases hentered.released q hq with hold | hthere
          · rcases List.mem_cons.mp hold with rfl | hold
            · exact .inr ((hframe _ hnew).trans (update_self _ _ _))
            · exact .inl hold
          · exact .inr hthere
        · rw [List.map_cons, List.mem_cons, not_or] at hnot
          exact (hframe location hnot.2).trans (update_of_ne hnot.1 _ _)

/-- **If every page is still as it was left, none remains.** -/
theorem resolvePages_complete {spans : List Span} {p : Publication} {pages : List Page} {ledger : Ledger}
    (hcurrent : ∀ page ∈ pages, current spans ledger.table page = true)
    (hnodup : (pages.map fun page => page.record.location).Nodup) :
    ∃ ledger', resolvePages spans p pages ledger = ([], ledger', true) := by
  induction pages generalizing ledger with
  | nil => exact ⟨ledger, rfl⟩
  | cons page pages ih =>
    obtain ⟨hnew, hrest⟩ := List.nodup_cons.mp hnodup
    have hpage := hcurrent page List.mem_cons_self
    have hnow : page.record.isCurrent ledger.table = true := by
      unfold current at hpage
      exact (Bool.and_eq_true_iff.mp hpage).2
    -- an edit of this page leaves the entries of the others
    have hothers : ∀ e, ∀ other ∈ pages,
        current spans (update ledger.table page.record.location (some e)) other = true := by
      intro e other hother
      have hold := hcurrent other (List.mem_cons_of_mem page hother)
      have hne : other.record.location ≠ page.record.location := by
        intro heq
        exact hnew (List.mem_map.mpr ⟨other, hother, heq⟩)
      unfold current Record.isCurrent at hold ⊢
      rw [update_of_ne hne]
      exact hold
    unfold resolvePages
    rw [if_neg (by simp [hpage])]
    split
    · obtain ⟨e, hedit⟩ := tryEdit_of_current hnow page.record.restoredEntry
      rw [hedit]
      apply ih _ hrest
      exact hothers e
    · obtain ⟨e, hedit⟩ := tryEdit_of_current hnow (fun _ => Entry.unused)
      rw [hedit]
      apply ih _ hrest
      exact hothers e

/-! ## The operations on the work -/

variable {w w' : Work} {ledger ledger' : Ledger} {result publish : Except NativeError Unit}
  {location : Location}

theorem Resolves.refl (w : Work) (ledger : Ledger) (error : NativeError) :
    Resolves w ledger w ledger (.error error) :=
  ⟨rfl, rfl, rfl, List.Perm.refl _, fun _ hr => .inl hr, nofun,
    fun _ => ⟨fun _ hr => .inl hr, fun _ hp => .inl hp⟩⟩

theorem resolve_spec (h : w.resolve ledger = (w', ledger', result)) :
    Resolves w ledger w' ledger' result := by
  unfold Work.resolve at h
  split at h
  · cases h
    exact Resolves.refl w ledger _
  · cases h
    exact Resolves.refl w ledger _
  · rename_i hfly hreq
    split at h
    all_goals
      rename_i pages L hloop
      cases h
      obtain ⟨hperm, hrestored, hcomplete⟩ := resolvePages_spec hloop
      refine ⟨rfl, rfl, rfl, hperm, ?_, fun hok => hcomplete (by cases hok <;> rfl),
        fun hnodup => (resolvePages_entered hnodup hloop).1⟩
      intro r hr
      exact (hrestored r hr).imp_right fun hnew => ⟨hnew, hfly, hreq⟩

/-- A publication fails and changes nothing, or the work is published and resolved. -/
theorem publishAndResolve_cases (h : w.publishAndResolve ledger publish = (w', ledger', result)) :
    (w' = w ∧ ledger' = ledger ∧ ∃ error, result = .error error) ∨
      Resolves { w with publication := .published } ledger w' ledger' result := by
  unfold Work.publishAndResolve Work.publishCache at h
  by_cases hpub : w.publication = .published
  · rw [if_pos hpub] at h
    have hsame : { w with publication := .published } = w := by
      rw [← hpub]
    refine .inr ?_
    rw [hsame]
    exact resolve_spec h
  · rw [if_neg hpub] at h
    by_cases hall : w.pages.all (current w.spans ledger.table) = true
    · rw [if_neg (by simpa using hall)] at h
      cases publish with
      | error error =>
        cases h
        exact .inl ⟨rfl, rfl, _, rfl⟩
      | ok u => exact .inr (resolve_spec h)
    · rw [if_pos (by simpa using hall)] at h
      cases h
      exact .inl ⟨rfl, rfl, _, rfl⟩

/-- What `finish` does. -/
theorem finish_cases {request : Bool} (h : w.finish ledger request publish = (w', ledger', result)) :
    (w' = w ∧ ledger' = ledger ∧ ∃ error, result = .error error) ∨
      ((w.publication = .prepared ∨ w.publication = .inFlight) ∧ w' = { w with publication := .requested } ∧
        ledger' = ledger ∧ ∃ error, result = .error error) ∨
      (w.publication ≠ .unchanged ∧ w.publication ≠ .unavailable ∧
        Resolves { w with publication := .published } ledger w' ledger' result) := by
  unfold Work.finish at h
  split at h
  · cases h
    exact .inl ⟨rfl, rfl, _, rfl⟩
  split at h
  · cases h
    exact .inl ⟨rfl, rfl, _, rfl⟩
  rename_i hunchanged
  split at h
  · cases h
    exact .inl ⟨rfl, rfl, _, rfl⟩
  split at h
  · cases h
    exact .inl ⟨rfl, rfl, _, rfl⟩
  rename_i hunavailable
  split at h
  · rename_i hreq
    rcases publishAndResolve_cases h with ⟨hw, hl, herr⟩ | hres
    · exact .inr (.inl ⟨hreq.2, hw, hl, herr⟩)
    · exact .inr (.inr ⟨hunchanged, hunavailable, hres⟩)
  · rcases publishAndResolve_cases h with hsame | hres
    · exact .inl hsame
    · exact .inr (.inr ⟨hunchanged, hunavailable, hres⟩)

/-- What `progress` does. -/
theorem progress_cases (h : w.progress ledger publish = (w', ledger', result)) :
    (w' = w ∧ ledger' = ledger ∧ ∃ error, result = .error error) ∨
      (w.publication = .inFlight ∧ Resolves { w with publication := .unavailable } ledger w' ledger' result) ∨
      Resolves w ledger w' ledger' result ∨ ((w.publication = .requested ∨ w.publication = .published) ∧
        Resolves { w with publication := .published } ledger w' ledger' result) := by
  unfold Work.progress at h
  split at h
  · rename_i hfly
    split at h
    · cases h
      exact .inl ⟨rfl, rfl, _, rfl⟩
    · exact .inr (.inl ⟨hfly, resolve_spec h⟩)
  · exact .inr (.inr (.inl (resolve_spec h)))
  · exact .inr (.inr (.inl (resolve_spec h)))
  · exact .inr (.inr (.inl (resolve_spec h)))
  · rename_i hp
    exact (publishAndResolve_cases h).imp_right fun hres => .inr (.inr ⟨.inl hp, hres⟩)
  · rename_i hp
    exact (publishAndResolve_cases h).imp_right fun hres => .inr (.inr ⟨.inr hp, hres⟩)

/-! ## The invariant -/

/-- The records that wait. -/
def State.pending (s : State) : List Record := s.work.pages.map fun p => p.record

/-- The marks that a phase allows, and what may have been restored in it. -/
def Phase (s : State) : Prop :=
  match s.work.publication with
  | .prepared =>
    s.begun = false ∧ s.confirmed = false ∧ s.requested = false ∧ s.lost = false ∧
      (s.holder ≠ .queue → s.holder ≠ .completed → s.ledger.restored = [])
  | .inFlight =>
    s.begun = true ∧ s.confirmed = false ∧ s.requested = false ∧ s.lost = false ∧ s.work.isExternal = true ∧
      s.ledger.restored = []
  | .unchanged => s.confirmed = true ∧ s.requested = false ∧ s.lost = false
  | .unavailable => s.requested = false ∧ s.lost = true ∧ s.ledger.restored = []
  | .requested => s.requested = true ∧ s.lost = false ∧ s.ledger.restored = []
  | .published => s.requested = true ∧ s.lost = false ∧ ∀ r ∈ s.ledger.restored, r.Kept

/-- The invariant of a transaction. -/
structure Inv (s : State) : Prop where
  nodup : (s.recorded.map (fun r => r.location) ++ s.todo.map (fun t => t.1)).Nodup
  perm : (s.pending ++ s.ledger.records).Perm s.recorded
  exact : ∀ r ∈ s.ledger.restored, r.Exact
  complete : s.holder = .completed → s.work.pages = []
  fresh : s.holder = .nobody → s.recorded = [] ∧ s.ledger.restored = [] ∧ s.ledger.released = []
  early : s.holder = .nobody ∨ s.holder = .preparing → s.work.publication = .prepared
  backing : s.work.isExternal = true → s.work.isRefresh = false
  phase : Phase s

variable {s s' : State}

theorem Inv.start (table : Table) : Inv (.start table) where
  nodup := List.nodup_nil
  perm := List.Perm.refl _
  exact := nofun
  complete := fun _ => rfl
  fresh := fun _ => ⟨rfl, rfl, rfl⟩
  early := fun _ => rfl
  backing := nofun
  phase := ⟨rfl, rfl, rfl, rfl, fun _ _ => rfl⟩

/-- A phase looks at nothing that a resolution changes, but for what it restores. -/
theorem Phase.resolves {next : Holder} (h : Phase (s.settle w ledger next))
    (hnext : next = .queue ∨ next = .completed ∨ w.publication ≠ .prepared)
    (hres : Resolves w ledger w' ledger' result) : Phase (s.settle w' ledger' next) := by
  have hnone : w.publication = .inFlight ∨ w.publication = .requested ∨ w.publication = .unavailable →
      ledger.restored = [] → ledger'.restored = [] := by
    intro hp hnil
    apply List.eq_nil_iff_forall_not_mem.mpr
    intro r hr
    rcases hres.restored r hr with hold | ⟨⟨_, hun, _⟩, hfly, hreq⟩
    · rw [hnil] at hold
      cases hold
    · rcases hp with hp | hp | hp
      · exact hfly hp
      · exact hreq hp
      · exact hun hp
  unfold Phase State.settle at h ⊢
  dsimp only at h ⊢
  rw [hres.publication]
  cases hp : w.publication with simp only [hp] at h ⊢
  | prepared =>
    refine ⟨h.1, h.2.1, h.2.2.1, h.2.2.2.1, ?_⟩
    intro hq hc
    rcases hnext with hn | hn | hn
    · exact absurd hn hq
    · exact absurd hn hc
    · exact absurd hp hn
  | inFlight =>
    obtain ⟨h1, h2, h3, h4, h5, h6⟩ := h
    refine ⟨h1, h2, h3, h4, ?_, hnone (.inl hp) h6⟩
    rw [hres.isExternal]
    exact h5
  | unchanged =>
    exact h
  | unavailable =>
    exact ⟨h.1, h.2.1, hnone (.inr (.inr hp)) h.2.2⟩
  | requested =>
    exact ⟨h.1, h.2.1, hnone (.inr (.inl hp)) h.2.2⟩
  | published =>
    refine ⟨h.1, h.2.1, ?_⟩
    intro r hr
    rcases hres.restored r hr with hold | ⟨⟨_, _, hkept⟩, _⟩
    · exact h.2.2 r hold
    · exact hkept hp

theorem suspendUserPage_some {table table' : Table} {r : Record}
    (h : suspendUserPage table location = some (r, table')) :
    r.location = location ∧ table r.location = some r.original := by
  unfold suspendUserPage at h
  split at h
  · cases h
  rename_i entry hentry
  split at h
  · cases h
  cases h
  exact ⟨rfl, hentry⟩

/-! ## The table -/

/-- No two pages that wait are at one location. -/
theorem Inv.pages_nodup (h : Inv s) : (s.work.pages.map fun page => page.record.location).Nodup := by
  have hall : ((s.pending ++ s.ledger.records).map fun r => r.location).Nodup :=
    (h.perm.map _).nodup_iff.mpr h.nodup.of_append_left
  rw [List.map_append] at hall
  have hpending := hall.of_append_left
  unfold State.pending at hpending
  rw [List.map_map] at hpending
  exact hpending

/-- What a step writes: a page that it records had its original entry in the table, and what it enters into
    the ledger is what it has done to the entry. -/
structure Writes (s s' : State) : Prop where
  recorded : ∀ r ∈ s'.recorded, r ∈ s.recorded ∨ s.ledger.table r.location = some r.original
  entered : Entered s.ledger s'.ledger

theorem Writes.same (hrecorded : s'.recorded = s.recorded)
    (hrestored : s'.ledger.restored = s.ledger.restored)
    (hreleased : s'.ledger.released = s.ledger.released) : Writes s s' := by
  refine ⟨fun r hr => .inl ?_, fun r hr => .inl ?_, fun p hp => .inl ?_⟩
  · rwa [← hrecorded]
  · rwa [← hrestored]
  · rwa [← hreleased]

theorem Writes.settle (h : Inv s) {p : Publication} {next : Holder}
    (hres : Resolves { s.work with publication := p } s.ledger w' ledger' result) :
    Writes s (s.settle w' ledger' next) :=
  ⟨fun _ hr => .inl hr, hres.entered h.pages_nodup⟩

theorem Writes.owned (h : Inv s) {p : Publication}
    (hres : Resolves { s.work with publication := p } s.ledger w' ledger' result) :
    Writes s (s.owned (w', ledger', result)) := by
  cases result with
  | ok u => exact .settle h hres
  | error e => exact .settle h hres

theorem Writes.finish (h : Inv s) (request : Bool) (publish : Except NativeError Unit) :
    Writes s (s.owned (s.work.finish s.ledger request publish)) := by
  generalize hr : s.work.finish s.ledger request publish = r
  obtain ⟨w', ledger', result⟩ := r
  rcases finish_cases hr with ⟨rfl, rfl, error, rfl⟩ | ⟨_, rfl, rfl, error, rfl⟩ | ⟨_, _, hres⟩
  · exact .owned h (Resolves.refl _ _ error)
  · exact .owned h (Resolves.refl _ _ error)
  · exact .owned h hres

theorem Writes.progress (h : Inv s) (publish : Except NativeError Unit) :
    Writes s (s.flushed (s.work.progress s.ledger publish)) := by
  generalize hr : s.work.progress s.ledger publish = r
  obtain ⟨w', ledger', result⟩ := r
  have hflushed : ∀ p, Resolves { s.work with publication := p } s.ledger w' ledger' result →
      Writes s (s.flushed (w', ledger', result)) := by
    intro p hres
    cases result with
    | ok u => exact .settle h hres
    | error e => exact .settle h hres
  rcases progress_cases hr with ⟨rfl, rfl, error, rfl⟩ | ⟨_, hres⟩ | hres | ⟨_, hres⟩
  · exact hflushed s.work.publication (Resolves.refl _ _ error)
  · exact hflushed _ hres
  · exact hflushed s.work.publication hres
  · exact hflushed _ hres

theorem Writes.suspend (s : State) (location : Location) (affected : Bool) (rest : List (Location × Bool))
    (failed : Bool) (suffix : Option (Nat × Nat)) :
    Writes s (s.suspend location affected rest failed suffix) := by
  unfold State.suspend
  split
  · exact .same rfl rfl rfl
  split
  · exact .same rfl rfl rfl
  · rename_i record table hsuspend
    refine ⟨fun r hr => ?_, fun _ hr => .inl hr, fun _ hp => .inl hp⟩
    rcases List.mem_cons.mp hr with rfl | hold
    · exact .inr (suspendUserPage_some hsuspend).2
    · exact .inl hold

section Steps

variable (h : Inv s) {p : Publication} {next : Holder}
  (hres : Resolves { s.work with publication := p } s.ledger w' ledger' result)
include h

include hres in
/-- **The rule for moves.** A move to another phase, and then a resolution, keeps the invariant if the phase
    allows the move. -/
theorem Inv.settled
    (hphase : Phase (s.settle { s.work with publication := p } s.ledger next))
    (hnext : next ≠ .nobody ∧ next ≠ .preparing) (hlate : next = .queue ∨ next = .completed ∨ p ≠ .prepared)
    (hdone : next = .completed → result = .ok ()) : Inv (s.settle w' ledger' next) where
  nodup := h.nodup
  perm := hres.perm.trans h.perm
  exact := by
    intro r hr
    rcases hres.restored r hr with hold | hnew
    · exact h.exact r hold
    · exact hnew.1.1
  complete := fun hc => hres.complete (hdone hc)
  fresh := fun hn => absurd hn hnext.1
  early := by
    rintro (hn | hn)
    · exact absurd hn hnext.1
    · exact absurd hn hnext.2
  backing := by
    intro hext
    have hext' : w'.isExternal = true := hext
    show w'.isRefresh = false
    rw [hres.isExternal] at hext'
    rw [hres.isRefresh]
    exact h.backing hext'
  phase := hphase.resolves hlate hres

/-- An operation that changes nothing leaves the state. -/
theorem Inv.settle_same : s.settle s.work s.ledger s.holder = s := by
  have hphase := h.phase
  unfold Phase at hphase
  unfold State.settle
  obtain ⟨holder, work, todo, ledger, recorded, begun, confirmed, requested, lost⟩ := s
  dsimp only at hphase ⊢
  cases hp : work.publication <;> simp only [hp] at hphase ⊢ <;> simp_all

/-! ## The moves between phases -/

/-- The phase stays when the queue takes over. -/
theorem Phase.stay (hnext : next = .queue ∨ next = .completed) : Phase (s.settle s.work s.ledger next) := by
  have hphase := h.phase
  unfold Phase State.settle at *
  dsimp only
  cases hp : s.work.publication with simp only [hp] at hphase ⊢
  | prepared =>
    obtain ⟨h1, h2, h3, h4, _⟩ := hphase
    simp only [h1, h2, h3, h4]
    refine ⟨rfl, rfl, rfl, rfl, ?_⟩
    intro hq hc
    rcases hnext with hn | hn
    · exact absurd hn hq
    · exact absurd hn hc
  | inFlight | unchanged | unavailable | requested | published =>
    simp_all

/-- Nothing was restored before a request, nor before a publication. -/
theorem Inv.none_restored (hp : (s.holder = .owner ∧ s.work.publication = .prepared) ∨
    s.work.publication = .inFlight ∨ s.work.publication = .requested) :
    s.lost = false ∧ s.ledger.restored = [] := by
  have hphase := h.phase
  unfold Phase at hphase
  rcases hp with ⟨ho, hp⟩ | hp | hp
  · rw [hp] at hphase
    exact ⟨hphase.2.2.2.1, hphase.2.2.2.2 (by rw [ho]; decide) (by rw [ho]; decide)⟩
  · rw [hp] at hphase
    exact ⟨hphase.2.2.2.1, hphase.2.2.2.2.2⟩
  · rw [hp] at hphase
    exact hphase.2

theorem Phase.toInFlight (ho : s.holder = .owner) (hp : s.work.publication = .prepared)
    (hext : s.work.isExternal = true) (next : Holder) :
    Phase (s.settle { s.work with publication := .inFlight } s.ledger next) := by
  obtain ⟨_, hnil⟩ := h.none_restored (.inl ⟨ho, hp⟩)
  have hphase := h.phase
  unfold Phase State.settle at *
  simp only [hp] at hphase ⊢
  simp [hphase, hext, hnil]

theorem Phase.toUnchanged (hp : s.work.publication = .inFlight ∨ s.work.publication = .unchanged)
    (next : Holder) : Phase (s.settle { s.work with publication := .unchanged } s.ledger next) := by
  have hphase := h.phase
  unfold Phase State.settle at *
  rcases hp with hp | hp
  · simp only [hp] at hphase ⊢
    simp [hphase]
  · simp only [hp] at hphase ⊢
    simp [hphase]

theorem Phase.toUnavailable (hp : s.work.publication = .inFlight) (next : Holder) :
    Phase (s.settle { s.work with publication := .unavailable } s.ledger next) := by
  have hphase := h.phase
  unfold Phase State.settle at *
  simp only [hp] at hphase ⊢
  simp [hphase]

theorem Phase.toRequested (ho : s.holder = .owner)
    (hp : s.work.publication = .prepared ∨ s.work.publication = .inFlight) (next : Holder) :
    Phase (s.settle { s.work with publication := .requested } s.ledger next) := by
  obtain ⟨hlost, hnil⟩ := h.none_restored (hp.imp (fun hp => ⟨ho, hp⟩) .inl)
  simp [Phase, State.settle, hlost, hnil]

theorem Phase.toPublished
    (hp : ((s.holder = .owner ∧ s.work.publication = .prepared) ∨ s.work.publication = .inFlight ∨
      s.work.publication = .requested) ∨ s.work.publication = .published) (next : Holder) :
    Phase (s.settle { s.work with publication := .published } s.ledger next) := by
  rcases hp with hp | hp
  · obtain ⟨hlost, hnil⟩ := h.none_restored hp
    simp [Phase, State.settle, hlost, hnil]
  · have hphase := h.phase
    unfold Phase State.settle at *
    simp only [hp] at hphase ⊢
    exact ⟨by simp, by simpa using hphase.2.1, hphase.2.2⟩

/-! ## The steps -/

/-- An operation of the owner that moves on. -/
theorem Inv.owned (hp : p ≠ .prepared)
    (hres : Resolves { s.work with publication := p } s.ledger w' ledger' result)
    (hphase : ∀ next, Phase (s.settle { s.work with publication := p } s.ledger next)) :
    Inv (s.owned (w', ledger', result)) := by
  cases result with
  | ok u => exact h.settled hres (hphase _) ⟨nofun, nofun⟩ (.inr (.inl rfl)) (fun _ => rfl)
  | error e => exact h.settled hres (hphase _) ⟨nofun, nofun⟩ (.inr (.inr hp)) nofun

include hres in
/-- A pass of the queue that moves on. -/
theorem Inv.flushed
    (hphase : ∀ next, next = .queue ∨ next = .completed →
      Phase (s.settle { s.work with publication := p } s.ledger next)) : Inv
        (s.flushed (w', ledger', result)) := by
  cases result with
  | ok u => exact h.settled hres (hphase _ (.inr rfl)) ⟨nofun, nofun⟩ (.inr (.inl rfl)) (fun _ => rfl)
  | error e => exact h.settled hres (hphase _ (.inl rfl)) ⟨nofun, nofun⟩ (.inl rfl) nofun

theorem Inv.finish (ho : s.holder = .owner) (request : Bool) (publish : Except NativeError Unit) :
    Inv (s.owned (s.work.finish s.ledger request publish)) := by
  generalize hr : s.work.finish s.ledger request publish = r
  obtain ⟨w', ledger', result⟩ := r
  rcases finish_cases hr with ⟨rfl, rfl, error, rfl⟩ | ⟨hp, rfl, rfl, error, rfl⟩ | ⟨hun, hlost, hres⟩
  · show Inv (s.settle s.work s.ledger .owner)
    rw [← ho, h.settle_same]
    exact h
  · exact h.owned (by decide) (Resolves.refl _ _ error) (Phase.toRequested h ho hp)
  · apply h.owned (by decide) hres
    apply Phase.toPublished h
    cases hp : s.work.publication with
    | prepared => exact .inl (.inl ⟨ho, rfl⟩)
    | inFlight => exact .inl (.inr (.inl rfl))
    | unchanged => exact absurd hp hun
    | unavailable => exact absurd hp hlost
    | requested => exact .inl (.inr (.inr rfl))
    | published => exact .inr rfl

theorem Inv.progress (hq : s.holder = .queue) (publish : Except NativeError Unit) :
    Inv (s.flushed (s.work.progress s.ledger publish)) := by
  generalize hr : s.work.progress s.ledger publish = r
  obtain ⟨w', ledger', result⟩ := r
  rcases progress_cases hr with ⟨rfl, rfl, error, rfl⟩ | ⟨hp, hres⟩ | hres | ⟨hp, hres⟩
  · show Inv (s.settle s.work s.ledger .queue)
    rw [← hq, h.settle_same]
    exact h
  · exact h.flushed hres (fun next _ => Phase.toUnavailable h hp next)
  · have hres' : Resolves { s.work with publication := s.work.publication } s.ledger w' ledger' result := hres
    exact h.flushed hres' (fun next hn => Phase.stay h hn)
  · apply h.flushed hres
    intro next _
    exact Phase.toPublished h (hp.imp_left fun hp => .inr (.inr hp)) next

/-- The work is handed to the queue, or the preparation to its caller. -/
theorem Inv.handOver (hs : s.holder = .preparing ∨ s.holder = .owner)
    (hnext : next = .queue ∨ next = .owner) : Inv { s with holder := next } := by
  have hmoved : next ≠ .nobody ∧ next ≠ .preparing ∧ next ≠ .completed := by
    rcases hnext with rfl | rfl
    · decide
    · decide
  refine ⟨h.nodup, h.perm, h.exact, fun hc => absurd hc hmoved.2.2, fun hc => absurd hc hmoved.1,
    ?_, h.backing, ?_⟩
  · rintro (hc | hc)
    · exact absurd hc hmoved.1
    · exact absurd hc hmoved.2.1
  · have hphase := h.phase
    unfold Phase at hphase ⊢
    dsimp only
    cases hp : s.work.publication with simp only [hp] at hphase ⊢
    | prepared =>
      obtain ⟨h1, h2, h3, h4, h5⟩ := hphase
      refine ⟨h1, h2, h3, h4, fun _ _ => ?_⟩
      rcases hs with hs | hs
      · exact h5 (by rw [hs]; decide) (by rw [hs]; decide)
      · exact h5 (by rw [hs]; decide) (by rw [hs]; decide)
    | inFlight | unchanged | unavailable | requested | published =>
      exact hphase

theorem Inv.prepare (hn : s.holder = .nobody) {spans affected : List Span} {preserved : List Preserved}
    {isExternal isRefresh : Bool} (hkind : (isExternal && isRefresh) = false)
    (walk : Nat → Nat → Nat → Option (Option Nat)) :
    Inv (s.prepare spans affected preserved isExternal isRefresh walk) := by
  obtain ⟨hrecorded, hrestored, hreleased⟩ := h.fresh hn
  unfold State.prepare
  split
  · rename_i sorted changed hcapture _
    split
    · exact h
    rename_i found hfound
    have hnodup := (locations_nodup (capture_disjoint hcapture) hfound).1
    refine ⟨?_, ?_, ?_, nofun, nofun, fun _ => rfl, ?_, ?_⟩
    · show (s.recorded.map _ ++ (found.map _).map _).Nodup
      rw [hrecorded, List.map_map]
      have hsame : found.map ((fun t : Location × Bool => t.1) ∘ fun x =>
          ((x.1, x.2), !isExternal || contains changed x.1 x.2 (x.2 + 4096))) = found := List.map_id found
      exact hsame.symm ▸ hnodup
    · show ([] ++ s.ledger.records).Perm s.recorded
      rw [hrecorded]
      unfold Ledger.records
      rw [hrestored, hreleased]
      exact List.Perm.refl _
    · exact h.exact
    · intro hext
      have hext' : isExternal = true := hext
      rw [hext'] at hkind
      exact hkind
    · have hphase := h.phase
      unfold Phase at hphase ⊢
      rw [h.early (.inl hn)] at hphase
      exact ⟨hphase.1, hphase.2.1, hphase.2.2.1, hphase.2.2.2.1, fun _ _ => hrestored⟩
  · exact h

theorem Inv.suspend (hs : s.holder = .preparing) {affected : Bool}
    {rest : List (Location × Bool)} (htodo : s.todo = (location, affected) :: rest) (failed : Bool)
    (suffix : Option (Nat × Nat)) : Inv (s.suspend location affected rest failed suffix) := by
  have hp := h.early (.inr hs)
  have hnodup := h.nodup
  rw [htodo] at hnodup
  have hphase := h.phase
  unfold Phase at hphase
  rw [hp] at hphase
  obtain ⟨h1, h2, h3, h4, h5⟩ := hphase
  have hnil := h5 (by rw [hs]; decide) (by rw [hs]; decide)
  unfold State.suspend
  split
  · exact h.handOver (.inl hs) (.inl rfl)
  split
  · refine ⟨?_, h.perm, h.exact, h.complete, h.fresh, h.early, h.backing, h.phase⟩
    exact hnodup.sublist ((List.sublist_cons_self _ _).append_left _)
  · rename_i record table hsuspend
    have hloc := (suspendUserPage_some hsuspend).1
    dsimp only
    refine ⟨?_, ?_, h.exact, ?_, ?_, fun _ => hp, h.backing, ?_⟩
    · show (record.location :: s.recorded.map _ ++ rest.map _).Nodup
      rw [hloc]
      exact List.perm_middle.nodup_iff.mp hnodup
    · show (record :: s.pending ++ s.ledger.records).Perm (record :: s.recorded)
      exact h.perm.cons record
    · dsimp only
      split
      · exact nofun
      · exact nofun
    · dsimp only
      split
      · exact nofun
      · exact nofun
    · unfold Phase
      dsimp only
      rw [hp]
      exact ⟨h1, h2, h3, h4, fun _ _ => hnil⟩

/-- **Every step keeps the invariant**, and what it records, restores and releases is so in the table. -/
theorem Inv.step {l : Label} (hs : step s l = some s') : Inv s' ∧ Writes s s' := by
  have hsame : Inv s ∧ Writes s s := ⟨h, .same rfl rfl rfl⟩
  cases l with simp only [Extent.step, Option.ite_none_right_eq_some] at hs
  | prepare spans affected preserved isExternal isRefresh walk =>
    obtain ⟨hguard, hs⟩ := hs
    cases hs
    refine ⟨h.prepare hguard.1 ((Bool.not_eq_true' _).mp hguard.2) walk, ?_⟩
    unfold State.prepare
    split
    · split <;> exact .same rfl rfl rfl
    · exact .same rfl rfl rfl
  | suspend failed suffix =>
    split at hs
    · rename_i hholder htodo
      cases hs
      exact ⟨h.suspend hholder htodo failed suffix, .suspend s _ _ _ failed suffix⟩
    · cases hs
  | prepared acknowledged preflight =>
    obtain ⟨hguard, hs⟩ := hs
    split at hs
    · cases hs
      exact ⟨h.handOver (.inl hguard.1) (.inl rfl), .same rfl rfl rfl⟩
    · cases hs
      exact ⟨h.handOver (.inl hguard.1) (.inr rfl), .same rfl rfl rfl⟩
  | beginExternal preflight =>
    obtain ⟨ho, hs⟩ := hs
    split at hs
    · cases hs
      exact hsame
    rename_i hguard
    rw [not_or, not_not] at hguard
    split at hs
    · cases hs
      exact hsame
    split at hs
    · cases hs
      exact hsame
    cases hs
    have hext : s.work.isExternal = true := by simpa using hguard.1
    refine ⟨h.settled (Resolves.refl _ _ .notReady) (Phase.toInFlight h ho hguard.2 hext _) ?_ ?_ ?_,
      .same rfl rfl rfl⟩
    · exact ⟨nofun, nofun⟩
    · exact .inr (.inr nofun)
    · exact nofun
  | confirmUnchanged =>
    obtain ⟨_, hs⟩ := hs
    split at hs
    · rename_i hp
      cases hs
      generalize hr : ({ s.work with publication := .unchanged } : Work).resolve s.ledger = r
      obtain ⟨w', ledger', result⟩ := r
      have hres := resolve_spec hr
      exact ⟨h.owned (by decide) hres (Phase.toUnchanged h hp), .owned h hres⟩
    · cases hs
      exact hsame
  | publishLocal publish =>
    obtain ⟨ho, hs⟩ := hs
    cases hs
    exact ⟨h.finish ho false publish, .finish h false publish⟩
  | requestPublication publish =>
    obtain ⟨ho, hs⟩ := hs
    cases hs
    exact ⟨h.finish ho true publish, .finish h true publish⟩
  | requestExternalPublication publish =>
    obtain ⟨ho, hs⟩ := hs
    split at hs
    · cases hs
      exact ⟨h.finish ho true publish, .finish h true publish⟩
    · cases hs
      exact hsame
  | drop =>
    obtain ⟨ho, hs⟩ := hs
    cases hs
    exact ⟨h.handOver (.inr ho) (.inl rfl), .same rfl rfl rfl⟩
  | flush busy publish =>
    obtain ⟨hq, hs⟩ := hs
    split at hs
    · cases hs
      exact hsame
    cases hs
    exact ⟨h.progress hq publish, .progress h publish⟩
  | edit location entry =>
    cases hs
    exact ⟨⟨h.nodup, h.perm, h.exact, h.complete, h.fresh, h.early, h.backing, h.phase⟩, .same rfl rfl rfl⟩

end Steps

theorem Inv.reachable (h : system.Reachable s) : Inv s := by
  apply System.Reach.invariant _ _ h
  · rintro _ ⟨table, rfl⟩
    exact Inv.start table
  · intro s l s' hinv _ hs
    exact (hinv.step hs).1

/-! ## The queue gets there -/

theorem resolve_complete (hfly : w.publication ≠ .inFlight) (hreq : w.publication ≠ .requested)
    (hcurrent : ∀ page ∈ w.pages, current w.spans ledger.table page = true)
    (hnodup : (w.pages.map fun page => page.record.location).Nodup) :
    ∃ w' ledger', w.resolve ledger = (w', ledger', .ok ()) := by
  obtain ⟨ledger', hloop⟩ := resolvePages_complete (p := w.publication) hcurrent hnodup
  refine ⟨{ w with pages := [] }, ledger', ?_⟩
  unfold Work.resolve
  split
  · exact absurd ‹_› hfly
  · exact absurd ‹_› hreq
  · rw [hloop]

/-- If the entries are as they were left and the backend publishes, one pass of `flush` is enough. -/
theorem Inv.flush_completes (h : Inv s) (hq : s.holder = .queue)
    (hcurrent : ∀ page ∈ s.work.pages, current s.work.spans s.ledger.table page = true) :
    ∃ s', Extent.step s (.flush false (.ok ())) = some s' ∧ s'.holder = .completed := by
  have hnodup := h.pages_nodup
  have hprogress : ∃ w' ledger', s.work.progress s.ledger (.ok ()) = (w', ledger', .ok ()) := by
    have hpublish : s.work.pages.all (current s.work.spans s.ledger.table) = true :=
      List.all_eq_true.mpr hcurrent
    unfold Work.progress
    cases hp : s.work.publication with
    | inFlight =>
      have hphase := h.phase
      unfold Phase at hphase
      rw [hp] at hphase
      dsimp only
      rw [if_neg (by simp [h.backing hphase.2.2.2.2.1])]
      exact resolve_complete nofun nofun hcurrent hnodup
    | prepared | unchanged | unavailable =>
      exact resolve_complete (by rw [hp]; decide) (by rw [hp]; decide) hcurrent hnodup
    | requested =>
      dsimp only
      unfold Work.publishAndResolve Work.publishCache
      rw [if_neg (by rw [hp]; decide), if_neg (by simp [hpublish])]
      exact resolve_complete nofun nofun hcurrent hnodup
    | published =>
      dsimp only
      unfold Work.publishAndResolve Work.publishCache
      rw [if_pos hp]
      exact resolve_complete (by rw [hp]; decide) (by rw [hp]; decide) hcurrent hnodup
  obtain ⟨w', ledger', hr⟩ := hprogress
  refine ⟨s.settle w' ledger' .completed, ?_, rfl⟩
  simp only [Extent.step]
  rw [if_pos hq, if_neg (by decide), hr]
  rfl

/-! ## Whole runs -/

/-- What the marks say of the pages that were restored. -/
theorem Phase.marks (h : Phase s) : (s.begun = true → ∀ r ∈ s.ledger.restored, s.confirmed = true ∨ r.Kept) ∧
    (s.requested = true → ∀ r ∈ s.ledger.restored, r.Kept) ∧ (s.lost = true → s.ledger.restored = []) := by
  unfold Phase at h
  cases hp : s.work.publication with simp only [hp] at h
  | prepared | inFlight | unchanged | unavailable | requested => simp [h]
  | published => exact ⟨fun _ r hr => .inr (h.2.2 r hr), fun _ => h.2.2, by simp [h]⟩

/-- What holds in every state of a transaction. -/
structure Resolved (s : State) : Prop where
  /-- Each recorded page waits, was restored or was released, in exactly one of the three ways and once. -/
  once : s.recorded.Nodup ∧ (s.pending ++ (s.ledger.restored.map (fun r => r.page.record) ++
    s.ledger.released.map (fun p => p.record))).Perm s.recorded
  /-- None waits when the transaction is completed. -/
  complete : s.holder = .completed → s.pending = []
  /-- A restored entry is the original but for the accessed and dirty bits. -/
  exact : ∀ r ∈ s.ledger.restored, r.Exact
  /-- After `begin_external` without `confirm_unchanged`, and after a publication was requested or done, only
      pages outside of what the resize changes and boundary pages with a cleared suffix are restored. -/
  begun : s.begun = true → ∀ r ∈ s.ledger.restored, s.confirmed = true ∨ r.Kept
  requested : s.requested = true → ∀ r ∈ s.ledger.restored, r.Kept
  /-- After the storage became unavailable, none is. -/
  lost : s.lost = true → s.ledger.restored = []
  /-- The records and the ledger say what was done to the table. -/
  writes : ∀ l s', step s l = some s' → Writes s s'
  /-- One pass of `flush` over entries that nobody has changed completes it. -/
  flushed : s.holder = .queue → (∀ page ∈ s.work.pages, current s.work.spans s.ledger.table page = true) →
    ∃ s', step s (.flush false (.ok ())) = some s' ∧ s'.holder = .completed

/-- **Every suspended page is resolved once, and as the outcome demands**, in every run, whatever fails and
    whoever drops the transaction. -/
theorem pages_resolved_once (h : system.Reachable s) : Resolved s := by
  have hinv := Inv.reachable h
  have hnodup : s.recorded.Nodup := List.Nodup.of_map _ hinv.nodup.of_append_left
  obtain ⟨hbegun, hrequested, hlost⟩ := hinv.phase.marks
  refine ⟨⟨hnodup, hinv.perm⟩, ?_, hinv.exact, hbegun, hrequested, hlost, fun _ _ hs => (hinv.step hs).2,
    hinv.flush_completes⟩
  intro hc
  unfold State.pending
  rw [hinv.complete hc]
  rfl

/-- Two mapped pages of one root. -/
def twoMapped : Table := fun location =>
  if location = (1, 0x1000) then some ⟨0x5000, 0x7⟩
  else if location = (1, 0x2000) then some ⟨0x6000, 0x7⟩
  else none

/-- A walk that finds every page. -/
def everyPage : Nat → Nat → Nat → Option (Option Nat) := fun _ cursor _ => some (some cursor)

/-- Suspend both pages for an external resize that changes the second one only. -/
def suspendBoth : List Label :=
  [.prepare [⟨1, 0x1000, 0x3000⟩] [⟨1, 0x2000, 0x3000⟩] [] true false everyPage, .suspend false none,
    .suspend false none, .prepared true true]

/-- The publication fails in the backend, the owner is dropped, an edit keeps the first pass of the queue from
    finishing, and the entry comes back. -/
def publishAfterDrop : List Label :=
  suspendBoth ++ [.beginExternal true, .requestExternalPublication (.error .backingFailure), .drop,
    .flush true (.ok ()), .edit (1, 0x1000) none, .flush false (.ok ()),
      .edit (1, 0x1000) (some ⟨0x5000, 0x26⟩)]

/-- The next pass restores the first page and releases the second. -/
theorem pages_resolved_once_publishAfterDrop : ∃ s s' : State, Resolved s ∧ s.pending.length = 2 ∧
    step s (.flush false (.ok ())) = some s' ∧ Writes s s' ∧
    s'.ledger.restored.map (fun r => (r.page.record.location, r.entry)) = [((1, 0x1000), ⟨0x5000, 0x27⟩)] ∧
    s'.ledger.released.map (fun p => p.record.location) = [(1, 0x2000)] ∧
    s'.ledger.table (1, 0x1000) = some ⟨0x5000, 0x27⟩ ∧ s'.ledger.table (1, 0x2000) = some .unused := by
  obtain ⟨s, hs, hboth, s', hstep, hfacts⟩ :=
    System.reachable_of_exec system (.start twoMapped) publishAfterDrop (fun s => s.pending.length = 2 ∧
      ∃ s' ∈ step s (.flush false (.ok ())),
        s'.ledger.restored.map (fun r => (r.page.record.location, r.entry)) =
          [((1, 0x1000), ⟨0x5000, 0x27⟩)] ∧
        s'.ledger.released.map (fun p => p.record.location) = [(1, 0x2000)] ∧
        s'.ledger.table (1, 0x1000) = some ⟨0x5000, 0x27⟩ ∧ s'.ledger.table (1, 0x2000) = some .unused)
      ⟨twoMapped, rfl⟩ (by decide +kernel)
  have hresolved := pages_resolved_once hs
  exact ⟨s, s', hresolved, hboth, hstep, hresolved.writes _ s' hstep, hfacts⟩

/-- **A publication restores pages to their entries from before the resize.** The resize changes the second
    page only. The first is back at its old entry, after `begin_external`, after the publication, and with
    nobody having confirmed that the storage is unchanged. -/
theorem page_restored_after_publication :
    ∃ s : State, system.Reachable s ∧ s.begun = true ∧ s.confirmed = false ∧ s.work.publication = .published ∧
      s.ledger.restored.map (fun r => (r.page.record.location, r.entry)) = [((1, 0x1000), ⟨0x5000, 0x7⟩)] ∧
      twoMapped (1, 0x1000) = some ⟨0x5000, 0x7⟩ := by
  exact System.reachable_of_exec system (.start twoMapped)
    (suspendBoth ++ [.beginExternal true, .requestExternalPublication (.ok ())]) _
      ⟨twoMapped, rfl⟩ (by decide +kernel)

end Mnu.Mem.Extent
