import Mathlib.Tactic

/-!
# `Mnu.Mem.PageRanges` — loops over the pages of a range

`covers_pages` of `src/task/memory_range.rs` asks whether every page of a range is reserved or retained. It
does not look at every page: where a region holds one, it goes on at the last page boundary of the region.

The lookups of the source are closures. `regionEnd` is the lookup in a list of regions. The page after one
below the end of the range is no overflow, as both are aligned.
-/

namespace Mnu.Mem.PageRanges

/-- The half-open range holds the address. -/
def Holds (r : Nat × Nat) (x : Nat) : Prop := r.1 ≤ x ∧ x < r.2

instance (r : Nat × Nat) (x : Nat) : Decidable (Holds r x) := inferInstanceAs (Decidable (_ ∧ _))

/-- No address is in both. -/
def Apart (r r' : Nat × Nat) : Prop := ∀ x, ¬ (Holds r x ∧ Holds r' x)

instance : Std.Symm Apart := ⟨fun _ _ h x hx => h x hx.symm⟩

/-! ## `covers_pages` -/

section Covers

variable (regionEnd : Nat → Option Nat) (retained : Nat → Bool) (stop : Nat)

/-- The loop of `covers_pages`. -/
def coversFrom (page : Nat) : Bool :=
  if page < stop then
    match hlimit : (regionEnd page).filter fun limit => page + 4096 ≤ limit with
    | some limit => coversFrom (min (limit / 4096 * 4096) stop)
    | none => if retained page then coversFrom (page + 4096) else false
  else true
termination_by stop - page
decreasing_by
  · have hle : page + 4096 ≤ limit := of_decide_eq_true (Option.filter_eq_some_iff.mp hlimit).2
    omega
  · omega

/-- `covers_pages`. -/
def coversPages (start : Nat) : Bool :=
  if stop < start ∨ start % 4096 ≠ 0 ∨ stop % 4096 ≠ 0 then false
    else coversFrom regionEnd retained stop start

end Covers

/-- The end of the region that holds the address. -/
def regionEnd (regions : List (Nat × Nat)) (address : Nat) : Option Nat :=
  (regions.find? fun r => Holds r address).map (·.2)

/-- The page is retained, or the region that holds its first byte extends over all of it. -/
def Covered (regions : List (Nat × Nat)) (retained : Nat → Bool) (page : Nat) : Prop :=
  retained page = true ∨ ∃ r ∈ regions, Holds r page ∧ page + 4096 ≤ r.2

/-- A lookup finds the one region that holds the address. -/
theorem regionEnd_eq_some {regions : List (Nat × Nat)} (hapart : regions.Pairwise Apart) {x limit : Nat} :
    regionEnd regions x = some limit ↔ ∃ r ∈ regions, Holds r x ∧ r.2 = limit := by
  rw [regionEnd, Option.map_eq_some_iff]
  constructor
  · rintro ⟨r, hfind, hlimit⟩
    have hholds := List.find?_some hfind
    exact ⟨r, List.mem_of_find?_eq_some hfind, of_decide_eq_true hholds, hlimit⟩
  · rintro ⟨r, hr, hholds, hlimit⟩
    cases hfind : regions.find? fun r => Holds r x with
    | none =>
      have hnot := List.find?_eq_none.mp hfind r hr
      exact absurd (decide_eq_true hholds) hnot
    | some r' =>
      have hholds' := List.find?_some hfind
      refine ⟨r', rfl, ?_⟩
      by_contra hne
      exact hapart.forall (List.mem_of_find?_eq_some hfind) hr (fun h => hne (h ▸ hlimit)) x
        ⟨of_decide_eq_true hholds', hholds⟩

theorem coversFrom_iff {regions : List (Nat × Nat)} (hapart : regions.Pairwise Apart) (retained : Nat → Bool)
    {stop page : Nat} (hpage : page % 4096 = 0) (hstop : stop % 4096 = 0) :
    coversFrom (regionEnd regions) retained stop page = true ↔
      ∀ p, page ≤ p → p < stop → p % 4096 = 0 → Covered regions retained p := by
  fun_induction coversFrom (regionEnd regions) retained stop page with
  | case1 page hlt limit hlimit ih =>
    obtain ⟨hend, hle⟩ := Option.filter_eq_some_iff.mp hlimit
    have hle : page + 4096 ≤ limit := of_decide_eq_true hle
    obtain ⟨r, hr, ⟨hlow, hhigh⟩, rfl⟩ := (regionEnd_eq_some hapart).mp hend
    rw [ih (by omega)]
    refine ⟨fun h p hp hps hal => ?_, fun h p hp => h p (by omega)⟩
    -- the pages that are skipped are in the same region
    by_cases hskip : p < r.2 / 4096 * 4096
    · exact .inr ⟨r, hr, ⟨by omega, by omega⟩, by omega⟩
    · exact h p (by omega) hps hal
  | case2 page hlt hnone hret ih =>
    rw [ih (by omega)]
    refine ⟨fun h p hp hps hal => ?_, fun h p hp => h p (by omega)⟩
    by_cases heq : p = page
    · exact .inl (heq ▸ hret)
    · exact h p (by omega) hps hal
  | case3 page hlt hnone hret =>
    refine ⟨nofun, fun h => ?_⟩
    rcases h page (Nat.le_refl _) hlt hpage with h0 | ⟨r, hr, hholds, hle⟩
    · exact absurd h0 hret
    · rw [(regionEnd_eq_some hapart).mpr ⟨r, hr, hholds, rfl⟩, Option.filter_some,
        if_pos (decide_eq_true hle)] at hnone
      cases hnone
  | case4 page hge => exact ⟨fun _ p hp hps => absurd (hp.trans_lt hps) hge, fun _ => rfl⟩

/-- **`covers_pages`** is true exactly if every page of the range is covered. -/
theorem covers_pages_iff {regions : List (Nat × Nat)} (hapart : regions.Pairwise Apart)
    (retained : Nat → Bool) (start stop : Nat) : coversPages (regionEnd regions) retained stop start = true ↔
      start % 4096 = 0 ∧ stop % 4096 = 0 ∧ start ≤ stop ∧
      ∀ page, start ≤ page → page < stop → page % 4096 = 0 → Covered regions retained page := by
  unfold coversPages
  split
  · rename_i hbad
    refine ⟨nofun, ?_⟩
    rintro ⟨hstart, hstop, hle, _⟩
    omega
  · rename_i hgood
    rw [coversFrom_iff hapart retained (by omega) (by omega)]
    exact ⟨fun h => ⟨by omega, by omega, by omega, h⟩, fun h => h.2.2.2⟩

/-- A page that a region covers, one that it covers in part and one that is retained. -/
theorem covers_pages_sample : [(0, 6000), (6000, 8192)].Pairwise Apart ∧
    (coversPages (regionEnd [(0, 6000), (6000, 8192)]) (· == 4096) 8192 0 = true ↔
      0 % 4096 = 0 ∧ 8192 % 4096 = 0 ∧ 0 ≤ 8192 ∧
      ∀ page, 0 ≤ page → page < 8192 → page % 4096 = 0 → Covered [(0, 6000), (6000, 8192)]
        (· == 4096) page) := by
  have hapart : [(0, 6000), (6000, 8192)].Pairwise Apart := by
    refine List.pairwise_pair.mpr fun x hx => ?_
    obtain ⟨⟨_, _⟩, _, _⟩ := hx
    omega
  exact ⟨hapart, covers_pages_iff hapart (· == 4096) 0 8192⟩

end Mnu.Mem.PageRanges
