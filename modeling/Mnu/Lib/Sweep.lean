import Mathlib.Tactic

/-!
# `Mnu.Lib.Sweep` — taking up to `n` matching entries out of a slot table

A table of optional entries is scanned slot by slot; an entry that is hit is taken out, until `n` are. The
scan is specified by the table it leaves (`sweep_apply`), by the list it returns, which is exactly what the
table lost (`sweep_list`), and by its completeness when no more than `n` entries are hit (`sweep_complete`).
-/

namespace Mnu.Lib

open Function

variable {σ α : Type} [DecidableEq σ] {slots : List σ} {slot : σ} {x : α}
  (hit : α → Bool) (n : Nat) (table : σ → Option α)

/-- Scan the slots, taking out hit entries while `n` lasts: the table left, and what was taken. -/
def sweep (hit : α → Bool) : List σ → Nat → (σ → Option α) → (σ → Option α) × List α
  | [], _, table => (table, [])
  | _ :: _, 0, table => (table, [])
  | slot :: slots, n + 1, table =>
    match table slot with
    | none => sweep hit slots (n + 1) table
    | some x =>
      if hit x then
        let rest := sweep hit slots n (update table slot none)
        (rest.1, x :: rest.2)
      else sweep hit slots (n + 1) table

/-- A slot is as before, or it held an entry that is hit and is empty now. -/
theorem sweep_apply (hit : α → Bool) (slots : List σ) (n : Nat) (table : σ → Option α) (slot : σ) :
    (sweep hit slots n table).1 slot = table slot ∨
      (sweep hit slots n table).1 slot = none ∧ slot ∈ slots ∧ ∃ x, table slot = some x ∧ hit x = true := by
  fun_induction sweep hit slots n table with
  | case1 | case2 => exact .inl rfl
  | case3 first rest n table hnone ih =>
    rcases ih with hkeep | ⟨hgone, hmem, hx⟩
    · exact .inl hkeep
    · exact .inr ⟨hgone, List.mem_cons_of_mem _ hmem, hx⟩
  | case4 first rest n table x hx hhit tail ih =>
    by_cases hslot : slot = first
    · subst hslot
      refine .inr ⟨?_, List.mem_cons_self, x, hx, hhit⟩
      rcases ih with hkeep | ⟨hgone, _⟩
      · simpa using hkeep
      · exact hgone
    · rw [update_of_ne hslot] at ih
      rcases ih with hkeep | ⟨hgone, hmem, hy⟩
      · exact .inl hkeep
      · exact .inr ⟨hgone, List.mem_cons_of_mem _ hmem, hy⟩
  | case5 first rest n table x hx hhit ih =>
    rcases ih with hkeep | ⟨hgone, hmem, hy⟩
    · exact .inl hkeep
    · exact .inr ⟨hgone, List.mem_cons_of_mem _ hmem, hy⟩

include hit n table

/-- A slot that is not scanned is left alone. -/
theorem sweep_of_notMem
    (h : slot ∉ slots) : (sweep hit slots n table).1 slot = table slot := by
  rcases sweep_apply hit slots n table slot with hkeep | ⟨_, hmem, _⟩
  · exact hkeep
  · exact absurd hmem h

/-- **What is taken is what the table lost**, in the order of the scan. -/
theorem sweep_list (hnodup : slots.Nodup) : (sweep hit slots n table).2 =
      slots.filterMap fun slot => if ((sweep hit slots n table).1 slot).isNone then table slot else none := by
  fun_induction sweep hit slots n table with
  | case1 => rfl
  | case2 first rest table =>
    refine (List.filterMap_eq_nil_iff.mpr fun slot _ => ?_).symm
    show (if (table slot).isNone then table slot else none) = none
    cases table slot <;> rfl
  | case3 first rest n table hnone ih =>
    rw [List.filterMap_cons, hnone]
    simpa using ih (List.nodup_cons.mp hnodup).2
  | case4 first rest n table x hx hhit tail ih =>
    obtain ⟨hnot, hrest⟩ := List.nodup_cons.mp hnodup
    have hfirst : tail.1 first = none := by
      rw [sweep_of_notMem hit n _ hnot, update_self]
    rw [List.filterMap_cons, hfirst, hx]
    simp only [Option.isNone_none, if_true]
    rw [ih hrest]
    refine congrArg (x :: ·) (List.filterMap_congr fun slot hslot => ?_)
    have hne : slot ≠ first := by
      rintro rfl
      exact hnot hslot
    rw [update_of_ne hne]
  | case5 first rest n table x hx hhit ih =>
    obtain ⟨hnot, hrest⟩ := List.nodup_cons.mp hnodup
    rw [List.filterMap_cons, sweep_of_notMem hit (n + 1) table hnot, hx]
    simpa using ih hrest

theorem mem_sweep (hnodup : slots.Nodup) : x ∈ (sweep hit slots n table).2 ↔
      ∃ slot ∈ slots, table slot = some x ∧ (sweep hit slots n table).1 slot = none := by
  conv_lhs => rw [sweep_list hit n table hnodup]
  rw [List.mem_filterMap]
  constructor
  · rintro ⟨slot, hslot, hx⟩
    split at hx
    · exact ⟨slot, hslot, hx, Option.isNone_iff_eq_none.mp ‹_›⟩
    · cases hx
  · rintro ⟨slot, hslot, hx, hgone⟩
    exact ⟨slot, hslot, by rw [hgone, hx]; rfl⟩

/-- **Completeness.** If no more than `n` of the slots hold an entry that is hit, all of these are emptied. -/
theorem sweep_complete (hnodup : slots.Nodup)
    (hcount : slots.countP (fun slot => (table slot).any hit) ≤ n) (hslot : slot ∈ slots)
    (hx : table slot = some x) (hhit : hit x = true) : (sweep hit slots n table).1 slot = none := by
  fun_induction sweep hit slots n table with
  | case1 => cases hslot
  | case2 first rest table =>
    have hzero := List.countP_eq_zero.mp (Nat.le_zero.mp hcount) slot hslot
    rw [hx] at hzero
    exact absurd hhit hzero
  | case3 first rest n table hnone ih =>
    rw [List.countP_cons, hnone] at hcount
    rcases List.mem_cons.mp hslot with rfl | hmem
    · rw [hx] at hnone
      cases hnone
    · exact ih (List.nodup_cons.mp hnodup).2 (by simpa using hcount) hmem hx
  | case4 first rest n table y hy hhit' tail ih =>
    obtain ⟨hnot, hrest⟩ := List.nodup_cons.mp hnodup
    rw [List.countP_cons, hy] at hcount
    simp only [Option.any_some, hhit', if_true] at hcount
    -- what remains to be hit is counted in the table without the first slot
    have hsame : rest.countP (fun slot => (update table first none slot).any hit) =
        rest.countP (fun slot => (table slot).any hit) := by
      refine List.countP_congr fun slot hmem => ?_
      have hne : slot ≠ first := by
        rintro rfl
        exact hnot hmem
      rw [update_of_ne hne]
    by_cases hfirst : slot = first
    · subst hfirst
      show tail.1 slot = none
      rw [sweep_of_notMem hit n _ hnot, update_self]
    · have hmem : slot ∈ rest := (List.mem_cons.mp hslot).resolve_left hfirst
      exact ih hrest (by rw [hsame]; exact Nat.le_of_succ_le_succ hcount) hmem
        (by rw [update_of_ne hfirst]; exact hx)
  | case5 first rest n table y hy hhit' ih =>
    rw [List.countP_cons, hy] at hcount
    rcases List.mem_cons.mp hslot with rfl | hmem
    · rw [hx] at hy
      cases hy
      exact absurd hhit hhit'
    · exact ih (List.nodup_cons.mp hnodup).2 (by simpa [hhit'] using hcount) hmem hx

end Mnu.Lib
