import Mathlib.Tactic

/-!
# `Mnu.Lib.Except` — peeling fallible computations apart

A chain of `?` operators becomes a `do` block in `Except`. These lemmas take a successful run of such
a block apart into the successful runs of its parts, so that a proof about a caller never unfolds the
callee. A loop in such a block has its invariant rule (`foldlM_induct`).
-/

namespace Mnu.Lib

variable {ε α β : Type}

theorem bind_eq_ok {x : Except ε α} {f : α → Except ε β} {r : β} :
    (x >>= f) = .ok r ↔ ∃ a, x = .ok a ∧ f a = .ok r := by
  cases x with
  | error e | ok a => simp [bind, Except.bind]

/-- `Option::ok_or`. -/
def okOr (e : ε) : Option α → Except ε α
  | some a => .ok a
  | none => .error e

@[simp] theorem okOr_eq_ok {e : ε} {o : Option α} {a : α} : okOr e o = .ok a ↔ o = some a := by
  cases o with
  | none | some b => simp [okOr]

/-- `Result::map_err`. -/
def mapErr {δ : Type} (f : ε → δ) : Except ε α → Except δ α
  | .ok a => .ok a
  | .error e => .error (f e)

@[simp] theorem mapErr_eq_ok {δ : Type} {f : ε → δ} {x : Except ε α} {a : α} :
    mapErr f x = .ok a ↔ x = .ok a := by
  cases x with
  | error e | ok b => simp [mapErr]

/-- A loop with `?` in its body that runs to the end: what every iteration carries from the items done before
    it to those done after it holds at the end. -/
theorem foldlM_induct {P : List α → β → Prop} {f : β → α → Except ε β} {items : List α} {init last : β}
    (h0 : P [] init) (hstep : ∀ done item rest b b', items = done ++ item :: rest → f b item = .ok b' →
      P done b → P (done ++ [item]) b') (h : items.foldlM f init = .ok last) : P items last := by
  suffices hgen : ∀ rest done b, items = done ++ rest → P done b →
    rest.foldlM f b = .ok last → P items last from
    hgen items [] init rfl h0 h
  intro rest
  induction rest with
  | nil =>
    intro done b hsplit hP h
    cases h
    rwa [hsplit, List.append_nil]
  | cons item rest ih =>
    intro done b hsplit hP h
    obtain ⟨b', hb, h⟩ := bind_eq_ok.mp h
    exact ih (done ++ [item]) b' (by simp [hsplit]) (hstep done item rest b b' hsplit hb hP) h

end Mnu.Lib
