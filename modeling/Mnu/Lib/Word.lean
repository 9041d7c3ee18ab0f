import Mathlib.Tactic

/-!
# `Mnu.Lib.Word` — 64-bit words as naturals, and half-open spans of them

Machine words are modelled as `Nat`; what a fixed-width operation adds is the overflow test, and that
is what this module makes explicit. A *span* is a half-open range given by a start and a length, the
form in which memory maps are handed around. `InSpan` is the membership predicate every theorem about
such a map is eventually stated with.
-/

namespace Mnu.Lib

/-- One past the largest 64-bit word. -/
def wordBound : Nat := 2 ^ 64

/-- `checked_add`: the sum, unless it does not fit. -/
def checkedAdd (a b : Nat) : Option Nat :=
  if a + b < wordBound then some (a + b) else none

/-- `checked_sub`: the difference, unless it would be negative. -/
def checkedSub (a b : Nat) : Option Nat :=
  if b ≤ a then some (a - b) else none

/-- `saturating_add`: the sum, clipped to the largest word. -/
def saturatingAdd (a b : Nat) : Nat := min (a + b) (wordBound - 1)

theorem checkedAdd_eq_some {a b c : Nat} : checkedAdd a b = some c ↔ a + b < wordBound ∧ c = a + b := by
  unfold checkedAdd
  split
  · rename_i h
    simp [h, eq_comm]
  · rename_i h
    simp [h]

theorem checkedAdd_eq_none {a b : Nat} : checkedAdd a b = none ↔ wordBound ≤ a + b := by
  unfold checkedAdd
  split <;> simp <;> omega

theorem checkedSub_eq_some {a b c : Nat} : checkedSub a b = some c ↔ b ≤ a ∧ c = a - b := by
  unfold checkedSub
  split
  · rename_i h
    simp [h, eq_comm]
  · rename_i h
    simp [h]

/-- `x` lies in the half-open span of `len` words from `start`. -/
def InSpan (start len x : Nat) : Prop := start ≤ x ∧ x < start + len

instance (start len x : Nat) : Decidable (InSpan start len x) :=
  inferInstanceAs (Decidable (_ ∧ _))

@[simp] theorem not_inSpan_zero (start x : Nat) : ¬ InSpan start 0 x := by
  unfold InSpan
  omega

/-- Two spans laid end to end cover what their concatenation covers. -/
theorem inSpan_add (start a b x : Nat) : InSpan start (a + b) x ↔ InSpan start a x ∨
    InSpan (start + a) b x := by
  unfold InSpan
  omega

end Mnu.Lib
