import Mathlib.Logic.Function.Basic

/-!
# `Mnu.Lib.Update` — which value an updated function has

The tables of the kernel are functions, and a step changes one entry of one table. A proof about the table
after the step takes one of its entries and asks which it is: the entry that was set, or an entry of before.
-/

namespace Mnu.Lib

open Function

variable {α β : Type*} [DecidableEq α] {f : α → β} {a b : α} {v w : β}

/-- What holds of a value of an updated function holds of the one that was set, or of one of before. -/
theorem of_update {P : β → Prop} (h : P (update f a v b)) : b = a ∧ P v ∨ b ≠ a ∧ P (f b) := by
  by_cases hb : b = a
  · subst hb
    rw [update_self] at h
    exact .inl ⟨rfl, h⟩
  · rw [update_of_ne hb] at h
    exact .inr ⟨hb, h⟩

theorem of_update_eq (h : update f a v b = w) : b = a ∧ v = w ∨ b ≠ a ∧ f b = w :=
  of_update (P := (· = w)) h

end Mnu.Lib
