import Mathlib.Tactic

/-!
# `Mnu.Lib.Chain` — a list threaded through memory

A free list keeps no storage of its own: each cell holds the address of the next, and zero ends the list.
`Chain next head l` reads such a list off the memory. A write to a cell that is not on the list leaves it
alone (`Chain.congr`), and the memory determines the list (`Chain.unique`).
-/

namespace Mnu.Lib

/-- The links lead from a head through the list to zero. -/
inductive Chain (next : Nat → Nat) : Nat → List Nat → Prop where
  | nil : Chain next 0 []
  | cons {a : Nat} {l : List Nat} : a ≠ 0 → Chain next (next a) l → Chain next a (a :: l)

namespace Chain

variable {next next' : Nat → Nat} {a : Nat} {l l' : List Nat}

theorem congr (h : Chain next a l) (hsame : ∀ x ∈ l, next' x = next x) : Chain next' a l := by
  induction h with
  | nil => exact .nil
  | @cons a l hne _ ih =>
    apply Chain.cons hne
    rw [hsame a List.mem_cons_self]
    apply ih
    intro x hx
    exact hsame x (List.mem_cons_of_mem a hx)

theorem unique (h : Chain next a l) (h' : Chain next a l') : l = l' := by
  induction h generalizing l' with
  | nil =>
    cases h' with
    | nil => rfl
    | cons hne _ => exact absurd rfl hne
  | cons hne _ ih =>
    cases h' with
    | nil => exact absurd rfl hne
    | cons _ htail => rw [ih htail]

/-- The list is empty exactly if its head is zero. -/
theorem head_eq_zero (h : Chain next a l) : a = 0 ↔ l = [] := by
  cases h with
  | nil => exact ⟨fun _ => rfl, fun _ => rfl⟩
  | cons hne _ => exact ⟨fun hz => absurd hz hne, nofun⟩

end Chain

end Mnu.Lib
