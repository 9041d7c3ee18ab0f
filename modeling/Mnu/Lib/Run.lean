import Mathlib.Tactic

/-!
# `Mnu.Lib.Run` — runs of an executable transition system

A system is a predicate for its initial states and a step function: a label says who moves and how,
and `none` says that the move is not possible. `Reach ok` collects the states of all runs whose every
step meets the condition `ok`; with the condition that is always true it is plain reachability.

The induction over a run is packaged once (`Reach.invariant`). A concrete run is a list of labels:
`exec` plays it, and `reach_of_exec` turns the result into a state that can be reached. `exec_progress` is
the rule for bounded progress: a party that is `k` of its steps away from a goal makes no more than that
many before it reaches it, whatever the others do in between.
-/

namespace Mnu.Lib

-- the parties of a concrete run have numbers
instance neZero_two : NeZero 2 := ⟨by decide⟩

instance neZero_three : NeZero 3 := ⟨by decide⟩

/-- A transition system with labelled steps. -/
structure System (σ ℓ : Type) where
  init : σ → Prop
  step : σ → ℓ → Option σ

/-- A step of a part, carried over to the whole in two stages. -/
theorem of_map_map {α β γ : Type*} {x : Option α} {f : α → β} {g : β → γ} {c : γ}
    (h : (x.map f).map g = some c) : ∃ a, x = some a ∧ g (f a) = c := by
  rwa [Option.map_map, Option.map_eq_some_iff] at h

namespace System

variable {σ ℓ : Type} (M : System σ ℓ) {ok : σ → ℓ → Bool} {ls : List ℓ}

/-- The states of the runs whose steps all meet `ok` in the state they start from. -/
inductive Reach (ok : σ → ℓ → Prop) : σ → Prop where
  | init {s} : M.init s → Reach ok s
  | step {s l s'} : Reach ok s → ok s l → M.step s l = some s' → Reach ok s'

/-- Plain reachability. -/
def Reachable (s : σ) : Prop := M.Reach (fun _ _ => True) s

variable {M}

/-- **Invariant rule.** What holds initially and survives every admissible step holds throughout. -/
theorem Reach.invariant {ok : σ → ℓ → Prop} {I : σ → Prop} (hinit : ∀ s, M.init s → I s)
    (hstep : ∀ s l s', I s → ok s l → M.step s l = some s' → I s') {s : σ} (h : M.Reach ok s) : I s := by
  induction h with
  | init h0 => exact hinit _ h0
  | step _ hok hs ih => exact hstep _ _ _ ih hok hs

/-- A run under a condition is a run. -/
theorem Reach.reachable {ok : σ → ℓ → Prop} {s : σ} (h : M.Reach ok s) : M.Reachable s := by
  induction h with
  | init h0 => exact .init h0
  | step _ _ hs ih => exact .step ih trivial hs

/-- A run under a condition is a run under every weaker one. -/
theorem Reach.mono {ok ok' : σ → ℓ → Prop} (hok : ∀ s l, ok s l → ok' s l) {s : σ} (h : M.Reach ok s) :
    M.Reach ok' s := by
  induction h with
  | init h0 => exact .init h0
  | step _ hs hstep ih => exact .step ih (hok _ _ hs) hstep

/-- Play a list of labels, as long as every step meets the condition. -/
def exec (M : System σ ℓ) (ok : σ → ℓ → Bool) (s : σ) : List ℓ → Option σ
  | [] => some s
  | l :: ls => if ok s l then (M.step s l).bind fun s' => M.exec ok s' ls else none

theorem Reach.exec {s s' : σ} (h : M.Reach (fun s l => ok s l = true) s) (hrun : M.exec ok s ls = some s') :
    M.Reach (fun s l => ok s l = true) s' := by
  induction ls generalizing s with
  | nil =>
    cases hrun
    exact h
  | cons l ls ih =>
    simp only [System.exec] at hrun
    split at hrun
    · obtain ⟨t, hstep, hrest⟩ := Option.bind_eq_some_iff.mp hrun
      exact ih (.step h ‹_› hstep) hrest
    · cases hrun

/-- A concrete run that ends in a state with `P` shows that such a state can be reached. -/
theorem reach_of_exec (M : System σ ℓ) (ok : σ → ℓ → Bool) (s : σ) (ls : List ℓ)
    (P : σ → Prop) [DecidablePred P] (h0 : M.init s) (hrun : (M.exec ok s ls).any (P ·) = true) :
    ∃ s', M.Reach (fun s l => ok s l = true) s' ∧ P s' := by
  obtain ⟨s', hexec, hp⟩ := (Option.any_eq_true _ _).mp hrun
  exact ⟨s', Reach.exec (.init h0) hexec, of_decide_eq_true hp⟩

theorem reachable_of_exec (M : System σ ℓ) (s : σ) (ls : List ℓ) (P : σ → Prop)
    [DecidablePred P] (h0 : M.init s)
    (hrun : (M.exec (fun _ _ => true) s ls).any (P ·) = true) : ∃ s', M.Reachable s' ∧ P s' := by
  obtain ⟨s', hs', hp⟩ := reach_of_exec M _ s ls P h0 hrun
  exact ⟨s', hs'.reachable, hp⟩

/-- **Progress rule.** `R k s` says that `s` is at most `k` ticks away from the goal. If every step reaches
    the goal or a state that is closer by its tick, but for the `price` of a setback, then every run passes
    through the goal, or is still on its way and has used up its ticks. -/
theorem exec_progress {R : Nat → σ → Prop} {goal : σ → Prop} {tick setback : ℓ → Bool}
    {price : Nat} (hstep : ∀ k s l s', R k s → ok s l = true → M.step s l = some s' →
      goal s' ∨ ∃ j, R j s' ∧ j + (if tick l then 1 else 0) ≤ k + if setback l then price else 0)
    {s s' : σ} {k : Nat} (hR : R k s) (hrun : M.exec ok s ls = some s') :
    (∃ ls₁ ls₂ s₁, ls = ls₁ ++ ls₂ ∧ M.exec ok s ls₁ = some s₁ ∧ goal s₁) ∨
      ∃ j, R j s' ∧ j + ls.countP tick ≤ k + price * ls.countP setback := by
  induction ls generalizing s k with
  | nil =>
    cases hrun
    exact .inr ⟨k, hR, Nat.le_refl k⟩
  | cons l ls ih =>
    simp only [System.exec] at hrun
    split at hrun
    · rename_i hok
      obtain ⟨t, ht, hrest⟩ := Option.bind_eq_some_iff.mp hrun
      rcases hstep k s l t hR hok ht with hgoal | ⟨j, hj, hle⟩
      · exact .inl ⟨[l], ls, t, rfl, by simp [System.exec, hok, ht], hgoal⟩
      · rcases ih hj hrest with ⟨ls₁, ls₂, s₁, rfl, hexec, hgoal⟩ | ⟨i, hi, hle'⟩
        · exact .inl ⟨l :: ls₁, ls₂, s₁, rfl, by simp [System.exec, hok, ht, hexec], hgoal⟩
        · have hmul : price * (ls.countP setback + if setback l then 1 else 0) =
              price * ls.countP setback + if setback l then price else 0 := by
            split <;> simp [Nat.mul_add]
          refine .inr ⟨i, hi, ?_⟩
          rw [List.countP_cons, List.countP_cons, hmul]
          omega
    · cases hrun

end System

end Mnu.Lib
