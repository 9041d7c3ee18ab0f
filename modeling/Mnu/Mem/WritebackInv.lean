import Mnu.Mem.Writeback

/-!
# `Mnu.Mem.WritebackInv` — what a clean page owes its provider

A flush decides on its own copy of a page that the page is clean. That is right if the copy still is the page,
and a store changes neither the version nor anything else that the flush could see. The only thing that it
does see is that the frame has owners: a store needs a leaf, and a leaf is an owner. So the argument is about
the last owner that goes. As long as it does not go between a store and the end of a flush that copied the
page before that store, a flush that finds the cache alone finds its copy up to date.

`Page.Inv` is what every page keeps on its own, `Snapshot.Inv` what a snapshot keeps of its page, `Page.Saved`
what the provider's answer adds. Each step is one of three moves on a page (`pageStep_cases`) or a step of the
flush.
-/

namespace Mnu.Mem.Writeback

open Mnu.Lib

/-! ## The invariant -/

/-- A clean page owes the provider nothing, and nobody can store to it. -/
structure Page.Inv (page : Page) : Prop where
  clean : page.entry.dirtyRange = none →
    (page.entry.validLen = 0 ∨ page.owners.faulting + page.owners.writable = 0) ∧
      ∀ i, page.ledger.unsaved i = false
  range : ∀ r, page.entry.dirtyRange = some r → r = (0, page.entry.validLen)
  below : ∀ i, page.ledger.unsaved i = true → i < page.entry.validLen
  passed : ∀ i, page.ledger.stored i = true → page.ledger.unsaved i = false →
    page.ledger.passed i = some (page.entry.frame i)
  stale : ∀ i ∈ page.ledger.stale, page.ledger.unsaved i = true

/-- A snapshot is the page but for the bytes stored to since, and while there are such bytes the page is in
    use. -/
structure Snapshot.Inv (x : Snapshot) (page : Page) : Prop where
  start : x.dirtyStart = 0
  stop : x.dirtyEnd = page.entry.validLen
  bytes : ∀ i, i ∉ page.ledger.stale → x.bytes i = page.entry.frame i
  owned : page.ledger.stale ≠ [] → 0 < page.owners.count

/-- Only the stores since the last copy are owed. -/
def Page.Saved (page : Page) : Prop := ∀ i, i ∉ page.ledger.stale → page.ledger.unsaved i = false

/-- The invariant of cache and flush. -/
structure Inv (s : State) : Prop where
  nodup : s.resident.Nodup
  pages : ∀ p, (s.pages p).Inv
  held : ∀ x ∈ s.flush.held, x.Inv (s.pages x.page)
  written : ∀ x ∈ s.flush.written, (s.pages x.page).Saved
  /-- A page that is still to be looked at has not been copied by this flush. -/
  fresh : ∀ taken rest, s.flush = .collecting taken rest → rest.Nodup ∧ ∀ x ∈ taken, x.page ∉ rest

/-! ### Owners and stores -/

variable {page : Page} {l : Label} {p : Nat} {s' : State} {rest : List Snapshot}

/-- **What a step of the owners or a store does to the page.** -/
theorem pageStep_cases {page' : Page} {locked : Bool} (h : pageStep page locked l = some page') :
    (∃ o : Owners, page' = { page with owners := o } ∧
        o.faulting + o.writable ≤ page.owners.faulting + page.owners.writable ∧
        (page.owners.count ≤ o.count ∨ ∃ p, l = .release p ∧ page.owners.count = o.count + 1)) ∨
      (∃ writer o, page' = { page with entry := page.entry.markPageDirty writer, owners := o } ∧
        o.count = page.owners.count) ∨
      ∃ p offset value, l = .store p offset value ∧ page' = page.store offset value ∧
        0 < page.owners.writable := by
  cases l with simp only [pageStep] at h
  | prepare p | mapTo p =>
    split at h
    · cases h
    cases h
    exact .inl ⟨_, rfl, Nat.le_refl _, .inl (by simp only [Owners.count]; omega)⟩
  | markDirty p writer =>
    split at h
    · cases h
    rename_i hguard
    cases h
    have hread : page.owners.readOnly ≠ 0 := fun h0 => hguard (.inr h0)
    exact .inr (.inl ⟨writer, _, rfl, by simp only [Owners.count]; omega⟩)
  | protect p ok =>
    split at h
    · cases h
    split at h
    · cases h
      exact .inl ⟨_, rfl, by dsimp only; omega, .inl (by simp only [Owners.count]; omega)⟩
    · cases h
      exact .inl ⟨_, rfl, by dsimp only; omega, .inl (by simp only [Owners.count]; omega)⟩
  | store p offset value =>
    split at h
    · cases h
    rename_i hguard
    cases h
    exact .inr (.inr ⟨p, offset, value, rfl, rfl, Nat.pos_of_ne_zero fun h0 => hguard (.inl h0)⟩)
  | revoke p writable =>
    cases writable with dsimp only at h
    | true =>
      split at h
      · cases h
      cases h
      exact .inl ⟨_, rfl, by dsimp only; omega, .inl (by simp only [Owners.count]; omega)⟩
    | false =>
      split at h
      · cases h
      cases h
      exact .inl ⟨_, rfl, Nat.le_refl _, .inl (by simp only [Owners.count]; omega)⟩
  | release p =>
    split at h
    · cases h
    cases h
    exact .inl ⟨_, rfl, Nat.le_refl _, .inr ⟨p, rfl, by simp only [Owners.count]; omega⟩⟩
  | flushRange | collect | writeAt | sync | publish => cases h

theorem Page.Inv.setOwners (h : page.Inv) {o : Owners}
    (hle : o.faulting + o.writable ≤ page.owners.faulting + page.owners.writable) :
    Inv { page with owners := o } :=
  { h with
    clean := by
      intro hclean
      obtain ⟨hidle, hsaved⟩ := h.clean hclean
      refine ⟨hidle.imp_right fun hzero => ?_, hsaved⟩
      show o.faulting + o.writable = 0
      omega }

theorem Page.Inv.markPageDirty (h : page.Inv) (writer : Nat) (o : Owners) :
    Inv { page with entry := page.entry.markPageDirty writer, owners := o } := by
  obtain ⟨hclean, hrange, hbelow, hpassed, hstale⟩ := h
  unfold CachedPage.markPageDirty
  split
  · refine ⟨fun hnone => ?_, fun r hr => ?_, hbelow, hpassed, hstale⟩
    · cases hnone
    · exact (Option.some.inj hr).symm
  · rename_i hlen
    -- Nothing is marked in a page without valid bytes, and nothing need be.
    exact ⟨fun hnone => ⟨.inl (not_not.mp hlen), (hclean hnone).2⟩, hrange, hbelow, hpassed, hstale⟩

/-- A store makes the byte owed. The page cannot be clean, for its leaf is writable. -/
theorem Page.Inv.store (h : page.Inv) {offset : Nat} (value : UInt8) (hw : 0 < page.owners.writable)
    (hlen : offset < page.entry.validLen) : (page.store offset value).Inv := by
  refine ⟨fun hnone => ?_, h.range, fun i hi => ?_, fun i hstored hsaved => ?_, fun i hi => ?_⟩
  · rcases (h.clean hnone).1 with hzero | hzero <;> omega
  · by_cases hio : i = offset
    · rw [hio]
      exact hlen
    · exact h.below i (by simpa [Page.store, hio] using hi)
  · by_cases hio : i = offset
    · subst hio
      simp [Page.store] at hsaved
    · have hold :=
        h.passed i (by simpa [Page.store, hio] using hstored) (by simpa [Page.store, hio] using hsaved)
      simpa [Page.store, hio] using hold
  · by_cases hio : i = offset
    · simp [Page.store, hio]
    · have hmem : i ∈ page.ledger.stale := by simpa [Page.store, hio] using hi
      simpa [Page.store, hio] using h.stale i hmem

variable {x : Snapshot}

theorem Snapshot.Inv.store (h : x.Inv page) (offset : Nat) (value : UInt8)
    (hw : 0 < page.owners.writable) : x.Inv (page.store offset value) := by
  refine ⟨h.start, h.stop, fun i hi => ?_, fun _ => ?_⟩
  · have hi' : i ≠ offset ∧ i ∉ page.ledger.stale := by simpa [Page.store] using hi
    rw [h.bytes i hi'.2]
    simp [Page.store, hi'.1]
  · show 0 < page.owners.count
    unfold Owners.count
    omega

theorem Page.Saved.store (h : page.Saved) (offset : Nat) (value : UInt8) :
    (page.store offset value).Saved := by
  intro i hi
  have hi' : i ≠ offset ∧ i ∉ page.ledger.stale := by simpa [Page.store] using hi
  simpa [Page.store, hi'.1] using h i hi'.2

theorem markPageDirty_same (entry : CachedPage) (writer : Nat) :
    (entry.markPageDirty writer).validLen = entry.validLen ∧
    (entry.markPageDirty writer).frame = entry.frame := by
  unfold CachedPage.markPageDirty
  split <;> exact ⟨rfl, rfl⟩

theorem setPage_pages (s : State) (p q : Nat) (page : Page) :
    (s.setPage p page).pages q = if q = p then page else s.pages q := by
  simp [State.setPage, Function.update_apply]

variable {s : State}

/-- A change of one page, while the flush stands still. -/
theorem Inv.setPage (h : Inv s) (hpage : page.Inv)
    (hheld : ∀ x ∈ s.flush.held, x.page = p → x.Inv page) (hsaved : (s.pages p).Saved → page.Saved) :
    Inv (s.setPage p page) := by
  refine ⟨h.nodup, fun q => ?_, fun x hx => ?_, fun x hx => ?_, h.fresh⟩
  · rw [setPage_pages]
    split
    · exact hpage
    · exact h.pages q
  · rw [setPage_pages]
    split
    · rename_i hxp
      exact hheld x hx hxp
    · exact h.held x hx
  · rw [setPage_pages]
    split
    · rename_i hxp
      exact hsaved (hxp ▸ h.written x hx)
    · exact h.written x hx

/-- A step of the owners or a store keeps the invariant. -/
theorem Inv.onPage (h : Inv s) (hcalm : Calm s l) (htarget : l.target = some p)
    (hstep : onPage s p l = some s') : Inv s' := by
  unfold Writeback.onPage at hstep
  split at hstep
  · obtain ⟨page', hpage', rfl⟩ := Option.map_eq_some_iff.mp hstep
    rcases pageStep_cases hpage' with ⟨o, rfl, hle, hcount⟩ | ⟨writer, o, rfl, hcount⟩ |
      ⟨q, offset, value, rfl, rfl, hw⟩
    · refine h.setPage ((h.pages p).setOwners hle) (fun x hx hxp => ?_) id
      have hinv := h.held x hx
      rw [hxp] at hinv
      refine ⟨hinv.start, hinv.stop, hinv.bytes, fun hstale => ?_⟩
      have hpos := hinv.owned hstale
      rcases hcount with hcount | ⟨q, rfl, hcount⟩
      · exact Nat.lt_of_lt_of_le hpos hcount
      · -- A reference goes: the condition says that it is not the last one.
        obtain rfl : q = p := Option.some.inj htarget
        rcases hcalm with hnil | hnone | hmany
        · exact absurd hnil hstale
        · exact absurd hxp (hnone x hx)
        show 0 < o.count
        omega
    · refine h.setPage ((h.pages p).markPageDirty writer o) (fun x hx hxp => ?_) id
      have hinv := h.held x hx
      rw [hxp] at hinv
      obtain ⟨hlen, hframe⟩ := markPageDirty_same (s.pages p).entry writer
      refine ⟨hinv.start, hinv.stop.trans hlen.symm, fun i hi => ?_, fun hstale => ?_⟩
      · show x.bytes i = ((s.pages p).entry.markPageDirty writer).frame i
        rw [hframe]
        exact hinv.bytes i hi
      · show 0 < o.count
        rw [hcount]
        exact hinv.owned hstale
    · obtain rfl : q = p := Option.some.inj htarget
      refine h.setPage ((h.pages q).store value hw hcalm) (fun x hx hxp => ?_) fun hs => hs.store offset value
      have hinv := h.held x hx
      rw [hxp] at hinv
      exact hinv.store offset value hw
  · cases hstep

/-! ### The flush -/

/-- A flush that gives up keeps every page as it is. -/
theorem Inv.idle (h : Inv s) : Inv { s with flush := .idle } :=
  ⟨h.nodup, h.pages, fun _ hx => absurd hx List.not_mem_nil, fun _ hx => absurd hx List.not_mem_nil,
    fun _ _ heq => Flush.noConfusion heq⟩

/-- What the snapshot of a page holds, when it is taken. -/
theorem snapshot_inv (h : page.Inv) (hx : page.entry.snapshot p = .ok (some x)) :
    x.page = p ∧ x.dirtyStart = 0 ∧ x.dirtyEnd = page.entry.validLen ∧ x.bytes = page.entry.frame := by
  unfold CachedPage.snapshot at hx
  split at hx
  · cases hx
  rename_i dirtyStart dirtyEnd hdirty
  obtain ⟨rfl, rfl⟩ := Prod.mk.inj (h.range _ hdirty)
  split at hx
  · cases hx
  split at hx
  · cases hx
  cases hx
  exact ⟨rfl, rfl, rfl, rfl⟩

theorem Inv.collect (h : Inv s) {taken : List Snapshot} {rest : List Nat}
    (hflush : s.flush = .collecting taken rest) (ok : Bool) : Inv (collectStep s ok taken rest) := by
  have htaken : ∀ x ∈ taken, x.Inv (s.pages x.page) := by
    intro x hx
    exact h.held x (by rw [hflush]; exact hx)
  obtain ⟨hnodup, hfresh⟩ := h.fresh taken rest hflush
  cases rest with
  | nil =>
    exact ⟨h.nodup, h.pages, htaken, fun _ hx => absurd hx List.not_mem_nil,
      fun _ _ heq => Flush.noConfusion heq⟩
  | cons p rest =>
    simp only [collectStep]
    split
    · exact h.idle
    · refine ⟨h.nodup, h.pages, htaken, fun _ hx => absurd hx List.not_mem_nil, ?_⟩
      rintro _ _ ⟨⟩
      exact ⟨(List.nodup_cons.mp hnodup).2, fun x hx hmem => hfresh x hx (List.mem_cons_of_mem p hmem)⟩
    · rename_i x hsnap
      split
      · obtain ⟨hpage, hstart, hstop, hbytes⟩ := snapshot_inv (h.pages p) hsnap
        obtain ⟨hclean, hrange, hbelow, hpassed, -⟩ := h.pages p
        refine ⟨h.nodup, fun q => ?_, fun y hy => ?_, fun _ hy => absurd hy List.not_mem_nil, ?_⟩
        · rw [setPage_pages]
          split
          · exact ⟨hclean, hrange, hbelow, hpassed, fun i hi => absurd hi List.not_mem_nil⟩
          · exact h.pages q
        · rw [setPage_pages]
          rcases List.mem_append.mp hy with hold | hnew
          · have hne : y.page ≠ p := fun heq => hfresh y hold (heq ▸ List.mem_cons_self)
            rw [if_neg hne]
            exact htaken y hold
          · obtain rfl := List.mem_singleton.mp hnew
            rw [if_pos hpage]
            exact ⟨hstart, hstop, fun i _ => congrFun hbytes i, fun hne => absurd rfl hne⟩
        · rintro _ _ ⟨⟩
          refine ⟨(List.nodup_cons.mp hnodup).2, fun y hy hmem => ?_⟩
          rcases List.mem_append.mp hy with hold | hnew
          · exact hfresh y hold (List.mem_cons_of_mem p hmem)
          · obtain rfl := List.mem_singleton.mp hnew
            exact (List.nodup_cons.mp hnodup).1 (hpage ▸ hmem)
      · exact h.idle

/-- The provider accepts a snapshot: the bytes that were not stored to since are no longer owed. -/
theorem Page.Inv.pass (h : page.Inv) (hx : x.Inv page) :
    Inv { page with ledger := page.ledger.pass x } ∧ Saved { page with ledger := page.ledger.pass x } := by
  have hdrop : ∀ i, (page.ledger.pass x).unsaved i = true → page.ledger.unsaved i = true := by
    intro i hi
    simp only [Ledger.pass] at hi
    split at hi
    · cases hi
    · exact hi
  refine ⟨⟨fun hnone => ?_, h.range, fun i hi => h.below i (hdrop i hi), fun i hstored hsaved => ?_,
    fun i hi => ?_⟩, fun i hi => ?_⟩
  · refine ⟨(h.clean hnone).1, fun i => ?_⟩
    exact (Bool.not_eq_true _).mp fun hi => Bool.false_ne_true (((h.clean hnone).2 i).symm.trans (hdrop i hi))
  · simp only [Ledger.pass] at hsaved ⊢
    by_cases hin : x.dirtyStart ≤ i ∧ i < x.dirtyEnd
    · rw [if_pos hin]
      by_cases hstale : i ∈ page.ledger.stale
      · rw [if_neg fun hall => hall.2.2 hstale, h.stale i hstale] at hsaved
        cases hsaved
      · rw [hx.bytes i hstale]
    · rw [if_neg fun hall => hin ⟨hall.1, hall.2.1⟩] at hsaved
      rw [if_neg hin]
      exact h.passed i hstored hsaved
  · show (if x.dirtyStart ≤ i ∧ i < x.dirtyEnd ∧ i ∉ page.ledger.stale then false
      else page.ledger.unsaved i) = true
    rw [if_neg fun hall => hall.2.2 hi]
    exact h.stale i hi
  · show (if x.dirtyStart ≤ i ∧ i < x.dirtyEnd ∧ i ∉ page.ledger.stale then false
      else page.ledger.unsaved i) = false
    split
    · rfl
    rename_i hout
    refine (Bool.not_eq_true _).mp fun hunsaved => hout ⟨?_, ?_, hi⟩
    · rw [hx.start]
      exact Nat.zero_le i
    · rw [hx.stop]
      exact h.below i hunsaved

theorem Inv.write (h : Inv s) {done : List Snapshot}
    (hflush : s.flush = .writing done (x :: rest)) (written : Option Nat) :
    Inv (writeStep s done x rest written) := by
  unfold writeStep
  split
  · have hx : x.Inv (s.pages x.page) := h.held x (by rw [hflush]; simp [Flush.held])
    obtain ⟨hinv, hsaved⟩ := (h.pages x.page).pass hx
    have hmid := h.setPage (p := x.page) hinv (fun y hy hyx => ?_) fun _ => hsaved
    · refine ⟨hmid.nodup, hmid.pages, fun y hy => hmid.held y ?_, fun y hy => ?_,
        fun _ _ heq => Flush.noConfusion heq⟩
      · show y ∈ s.flush.held
        rw [hflush]
        simpa [Flush.held] using hy
      · rcases List.mem_append.mp hy with hold | hnew
        · exact hmid.written y (by show y ∈ s.flush.written; rw [hflush]; exact hold)
        · obtain rfl := List.mem_singleton.mp hnew
          rw [setPage_pages, if_pos rfl]
          exact hsaved
    · have hinvy := h.held y hy
      rw [hyx] at hinvy
      exact ⟨hinvy.start, hinvy.stop, hinvy.bytes, hinvy.owned⟩
  · exact h.idle

/-- A page is published as clean when only the cache owns its frame. No byte was then stored to since the
    copy. -/
theorem Page.Inv.publish (h : page.Inv) (hx : x.Inv page) (hsaved : page.Saved)
    (version : BitVec 64) : (page.publish version).Inv := by
  unfold Page.publish
  split
  · rename_i hguard
    have hnil : page.ledger.stale = [] := by
      by_contra hne
      exact absurd (hx.owned hne) (by rw [hguard.2]; exact Nat.lt_irrefl 0)
    refine ⟨fun _ => ⟨.inr ?_, fun i => hsaved i (hnil ▸ List.not_mem_nil)⟩, fun r hr => ?_, h.below,
      h.passed, h.stale⟩
    · have hcount := hguard.2
      unfold Owners.count at hcount
      show page.owners.faulting + page.owners.writable = 0
      omega
    · cases hr
  · exact h

theorem publish_same (page : Page) (version : BitVec 64) :
    (page.publish version).ledger = page.ledger ∧ (page.publish version).owners = page.owners ∧
      (page.publish version).entry.frame = page.entry.frame ∧
      (page.publish version).entry.validLen = page.entry.validLen := by
  unfold Page.publish
  split <;> exact ⟨rfl, rfl, rfl, rfl⟩

theorem Inv.publish (h : Inv s) (hflush : s.flush = .publishing (x :: rest)) :
    Inv { s.setPage x.page ((s.pages x.page).publish x.version) with flush := .publishing rest } := by
  have hx : x.Inv (s.pages x.page) := h.held x (by rw [hflush]; exact List.mem_cons_self)
  have hsaved : (s.pages x.page).Saved := h.written x (by rw [hflush]; exact List.mem_cons_self)
  obtain ⟨hledger, howners, hframe, hlen⟩ := publish_same (s.pages x.page) x.version
  have hmid :=
    h.setPage (p := x.page) ((h.pages x.page).publish hx hsaved x.version) (fun y hy hyx => ?_) fun hs => ?_
  · refine ⟨hmid.nodup, hmid.pages, fun y hy => hmid.held y ?_, fun y hy => hmid.written y ?_,
      fun _ _ heq => Flush.noConfusion heq⟩
    · show y ∈ s.flush.held
      rw [hflush]
      exact List.mem_cons_of_mem x hy
    · show y ∈ s.flush.written
      rw [hflush]
      exact List.mem_cons_of_mem x hy
  · have hinvy := h.held y hy
    rw [hyx] at hinvy
    exact ⟨hinvy.start, hlen ▸ hinvy.stop, by rw [hledger, hframe]; exact hinvy.bytes,
      by rw [hledger, howners]; exact hinvy.owned⟩
  · unfold Page.Saved
    rw [hledger]
    exact hs

/-! ## Runs -/

theorem inv_init (h : system.init s) : Inv s := by
  obtain ⟨hnodup, hidle, hloaded⟩ := h
  refine ⟨hnodup, fun p => ?_, ?_, ?_, ?_⟩
  · obtain ⟨frame, validLen, hp⟩ := hloaded p
    rw [hp]
    refine ⟨fun _ => ⟨.inr rfl, fun _ => rfl⟩, fun _ hr => ?_, fun _ hi => ?_, fun _ hi => ?_, fun _ hi => ?_⟩
    · cases hr
    · cases hi
    · cases hi
    · cases hi
  · rw [hidle]
    exact fun _ hx => absurd hx List.not_mem_nil
  · rw [hidle]
    exact fun _ hx => absurd hx List.not_mem_nil
  · rw [hidle]
    exact fun _ _ heq => Flush.noConfusion heq

theorem inv_step (h : Inv s) (hcalm : Calm s l) (hstep : step s l = some s') : Inv s' := by
  cases l with simp only [step] at hstep
  | prepare | mapTo | markDirty | protect | store | revoke | release => exact h.onPage hcalm rfl hstep
  | flushRange offset rangeEnd =>
    split at hstep
    · cases hstep
      refine ⟨h.nodup, h.pages, fun _ hx => absurd hx List.not_mem_nil,
        fun _ hx => absurd hx List.not_mem_nil, ?_⟩
      rintro _ _ ⟨⟩
      exact ⟨h.nodup.filter _, fun _ hx => absurd hx List.not_mem_nil⟩
    · cases hstep
  | collect ok =>
    split at hstep
    · cases hstep
      exact h.collect ‹_› ok
    · cases hstep
  | writeAt written =>
    split at hstep
    · cases hstep
      exact h.write ‹_› written
    · cases hstep
  | sync ok =>
    split at hstep
    · rename_i done hflush
      cases hstep
      cases ok with
      | true =>
        refine ⟨h.nodup, h.pages, fun x hx => h.held x ?_, fun x hx => h.written x ?_,
          fun _ _ heq => Flush.noConfusion heq⟩
        · rw [hflush]
          exact List.mem_append_left [] hx
        · rw [hflush]
          exact hx
      | false => exact h.idle
    · cases hstep
  | publish =>
    split at hstep
    · cases hstep
      exact h.publish ‹_›
    · cases hstep
      exact h.idle
    · cases hstep

/-- **No store is lost to the provider**, in the runs that meet the condition. Whenever a page is clean, each
    byte that was ever stored to has been given to a write of the provider after its last store, as that store
    left it. A clean page has no writable leaf then, or no valid byte. -/
theorem clean_page_is_saved {s : State} (h : system.Reach Calm s) {p : Nat}
    (hclean : (s.pages p).entry.dirtyRange = none) :
    ((s.pages p).owners.writable = 0 ∨ (s.pages p).entry.validLen = 0) ∧
    ∀ i, (s.pages p).ledger.stored i = true →
        (s.pages p).ledger.unsaved i = false ∧ (s.pages p).ledger.passed i =
        some ((s.pages p).entry.frame i) := by
  have hinv := (h.invariant (fun _ h0 => inv_init h0) fun _ _ _ hs hok hstep => inv_step hs hok hstep).pages p
  obtain ⟨hidle, hsaved⟩ := hinv.clean hclean
  refine ⟨hidle.symm.imp_left fun hzero => by omega, fun i hi => ⟨hsaved i, hinv.passed i hi (hsaved i)⟩⟩

/-- One page of 16 valid bytes. -/
def oneLoaded : State := ⟨[0], fun _ => .loaded (fun _ => 0) 16, .idle⟩

/-- A page is mapped, and a write fault makes the leaf writable. -/
def mapWritable : List Label := [.prepare 0, .mapTo 0, .release 0, .markDirty 0 1, .protect 0 true]

/-- The steps of a flush that finds the page dirty, after its snapshot is taken. -/
def writeAndPublish : List Label := [.collect true, .writeAt (some 16), .sync true, .publish, .publish]

/-- Two stores, the second while a flush is under way, then the unmapping, and a flush after it. -/
def flushAfterUnmap : List Label :=
  mapWritable ++ [.store 0 3 7, .flushRange 0 4096, .collect true, .store 0 4 9] ++ writeAndPublish ++
    [.revoke 0 true, .release 0, .flushRange 0 4096, .collect true] ++ writeAndPublish

theorem clean_page_is_saved_flushAfterUnmap :
    ∃ s : State, (s.pages 0).ledger.passed 4 = some 9 ∧ (s.pages 0).owners.count = 0 ∧
      ((s.pages 0).owners.writable = 0 ∨ (s.pages 0).entry.validLen = 0) ∧
      ∀ i, (s.pages 0).ledger.stored i = true →
        (s.pages 0).ledger.unsaved i = false ∧ (s.pages 0).ledger.passed i =
        some ((s.pages 0).entry.frame i) := by
  obtain ⟨s, hs, hpassed, hcount, hclean⟩ := System.reach_of_exec system
    (fun s l => decide (Calm s l)) oneLoaded
    flushAfterUnmap (fun s => (s.pages 0).ledger.passed 4 = some 9 ∧ (s.pages 0).owners.count = 0 ∧
      (s.pages 0).entry.dirtyRange = none) ⟨by decide, rfl, fun _ => ⟨_, _, rfl⟩⟩ (by decide +kernel)
  simp only [decide_eq_true_eq] at hs
  exact ⟨s, hpassed, hcount, clean_page_is_saved hs hclean⟩

/-- **A store is lost when the page is unmapped under a flush.** The flush copies the page, the thread stores
    9 and unmaps it, and the flush publishes the page as clean: the version is the same, and the cache is the
    only owner. The flush of the unmapping then finds nothing to write, and the provider never gets the 9. -/
theorem store_lost_under_flush :
    ∃ s : State, system.Reachable s ∧ s.flush.held.length = 0 ∧ (s.pages 0).entry.dirtyRange = none ∧
      (s.pages 0).owners.writable = 0 ∧ (s.pages 0).ledger.stored 4 = true ∧
      (s.pages 0).ledger.unsaved 4 = true ∧
      (s.pages 0).entry.frame 4 = 9 ∧ (s.pages 0).ledger.passed 4 = some 0 := by
  exact System.reachable_of_exec system oneLoaded
    (mapWritable ++ [.flushRange 0 4096, .collect true, .store 0 4 9, .revoke 0 true, .release 0] ++
      writeAndPublish ++ [.flushRange 0 4096, .collect true, .collect true, .sync true, .publish])
    _ ⟨by decide, rfl, fun _ => ⟨_, _, rfl⟩⟩ (by decide +kernel)

end Mnu.Mem.Writeback
