import Mathlib.Algebra.BigOperators.Group.Finset.Basic
import Mathlib.Algebra.Order.BigOperators.Group.Finset
import Mathlib.Data.Fintype.BigOperators
import Mathlib.Tactic

/-!
# `Mnu.Lib.Total` — totals over a finite table

How many claims on a resource are there in a table of records, when each record can hold several? The
total of a measure over the table answers that, and an invariant about it is kept by arithmetic: replacing
one record changes the total by the difference of the two measures (`total_update`). The equation is
stated with sums on both sides, so that it stays inside the natural numbers.
-/

namespace Mnu.Lib

open Finset Function

variable {ι α : Type} [Fintype ι] {g : α → Nat}

/-- The total of a measure over the entries of a table. -/
def total (g : α → Nat) (f : ι → α) : Nat := ∑ x, g (f x)

theorem total_update [DecidableEq ι] (g : α → Nat) (f : ι → α) (a : ι) (v : α) :
    total g (update f a v) + g (f a) = total g f + g v := by
  have hcomp : (fun x => g (update f a v x)) = update (fun x => g (f x)) a (g v) :=
    comp_update g f a v
  have hrest : total g f = g (f a) + ∑ x ∈ univ \ {a}, g (f x) :=
    Finset.sum_eq_add_sum_sdiff_singleton_of_mem (mem_univ a) fun x => g (f x)
  unfold total at hrest ⊢
  rw [hcomp, Finset.sum_update_of_mem (mem_univ a)]
  omega

/-- An entry counts for no more than the total. -/
theorem le_total (g : α → Nat) (f : ι → α) (a : ι) : g (f a) ≤ total g f :=
  Finset.single_le_sum (fun x _ => Nat.zero_le (g (f x))) (mem_univ a)

theorem total_mono {f f' : ι → α} (h : ∀ x, g (f x) ≤ g (f' x)) : total g f ≤ total g f' :=
  Finset.sum_le_sum fun x _ => h x

theorem total_eq_zero {f : ι → α} (h : ∀ x, g (f x) = 0) : total g f = 0 :=
  Finset.sum_eq_zero fun x _ => h x

end Mnu.Lib
