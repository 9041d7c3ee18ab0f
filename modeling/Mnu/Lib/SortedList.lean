import Mathlib.Data.List.TakeWhile
import Mathlib.Tactic

/-!
# `Mnu.Lib.SortedList` — a set as a sorted list

A strictly increasing list, searched by position. `search` finds where an element is, or where it would go, as
a binary search does on such a list; `insert` and `remove` act there. On the elements they are insertion and
removal (`mem_insert`, `mem_remove`), and the list stays strictly increasing.
-/

namespace Mnu.Lib.SortedList

variable {α : Type} [LinearOrder α]

/-- Where an element belongs. -/
def position (l : List α) (x : α) : Nat := (l.takeWhile (· < x)).length

/-- Where it is, or where it belongs. -/
def search (l : List α) (x : α) : Except Nat Nat :=
  if l[position l x]? = some x then .ok (position l x) else .error (position l x)

/-- Put in at its place, once. -/
def insert (l : List α) (x : α) : List α :=
  match search l x with
  | .ok _ => l
  | .error index => l.insertIdx index x

/-- The list without the element, if it was there. -/
def remove (l : List α) (x : α) : Option (List α) :=
  match search l x with
  | .ok index => some (l.eraseIdx index)
  | .error _ => none

variable {l : List α} {x y : α} (h : l.Pairwise (· < ·))

omit [LinearOrder α] in
theorem getElem_position_append (l₁ l₂ : List α) : (l₁ ++ l₂)[l₁.length]? = l₂.head? := by
  rw [List.getElem?_append_right (Nat.le_refl _), Nat.sub_self, List.head?_eq_getElem?]

include h

/-- A strictly increasing list around `x`: what is smaller, and what is not. -/
theorem split_at (x : α) : ∃ l₁ l₂, l = l₁ ++ l₂ ∧ position l x = l₁.length ∧
    (∀ y ∈ l₁, y < x) ∧ ∀ y ∈ l₂, x ≤ y := by
  refine ⟨l.takeWhile (· < x), l.dropWhile (· < x), List.takeWhile_append_dropWhile.symm, rfl, ?_, ?_⟩
  · intro y hy
    simpa using List.mem_takeWhile_imp hy
  · intro y hy
    have hd : (l.dropWhile (· < x)).Pairwise (· < ·) := h.sublist (List.dropWhile_sublist _)
    cases hcase : l.dropWhile (· < x) with
    | nil =>
      rw [hcase] at hy
      cases hy
    | cons z rest =>
      have hz : ¬ z < x := by
        have := List.head?_dropWhile_not (· < x) l
        rw [hcase] at this
        simpa using this
      rw [hcase] at hy hd
      rcases List.mem_cons.mp hy with rfl | hin
      · exact not_lt.mp hz
      · exact (not_lt.mp hz).trans ((List.pairwise_cons.mp hd).1 y hin).le

/-- **The search splits the list.** -/
theorem search_cases (x : α) : (∃ l₁ l₂, l = l₁ ++ x :: l₂ ∧ search l x = .ok l₁.length) ∨
      ∃ l₁ l₂, l = l₁ ++ l₂ ∧ x ∉ l ∧ search l x = .error l₁.length ∧ (∀ y ∈ l₁, y < x) ∧
        ∀ y ∈ l₂, x < y := by
  obtain ⟨l₁, l₂, hl, hpos, hlow, hhigh⟩ := split_at h x
  have hget : l[position l x]? = l₂.head? := by
    rw [hpos]
    conv_lhs => rw [hl]
    exact getElem_position_append l₁ l₂
  by_cases hx : l₂.head? = some x
  · left
    obtain ⟨rest, rfl⟩ := List.head?_eq_some_iff.mp hx
    exact ⟨l₁, rest, hl, by rw [search, hget, if_pos hx, hpos]⟩
  · right
    have hnot : x ∉ l₂ := by
      intro hin
      cases l₂ with
      | nil => cases hin
      | cons z rest =>
        rcases List.mem_cons.mp hin with rfl | hin
        · exact hx rfl
        · have hz : z < x := by
            rw [hl] at h
            exact (List.pairwise_cons.mp (List.pairwise_append.mp h).2.1).1 x hin
          exact absurd (hhigh z List.mem_cons_self) (not_le.mpr hz)
    refine ⟨l₁, l₂, hl, ?_, by rw [search, hget, if_neg hx, hpos], hlow, fun y hy => ?_⟩
    · rw [hl, List.mem_append, not_or]
      exact ⟨fun hin => lt_irrefl x (hlow x hin), hnot⟩
    · exact lt_of_le_of_ne (hhigh y hy) fun h0 => hnot (h0 ▸ hy)

theorem search_isOk : (∃ index, search l x = .ok index) ↔ x ∈ l := by
  rcases search_cases h x with ⟨l₁, l₂, hl, hs⟩ | ⟨l₁, l₂, hl, hnot, hs, _, _⟩
  · refine ⟨fun _ => ?_, fun _ => ⟨_, hs⟩⟩
    rw [hl]
    simp
  · refine ⟨fun ⟨i, hi⟩ => ?_, fun h0 => absurd h0 hnot⟩
    rw [hs] at hi
    cases hi

omit h

omit [LinearOrder α] in
theorem insertIdx_append (l₁ l₂ : List α) : (l₁ ++ l₂).insertIdx l₁.length x = l₁ ++ x :: l₂ := by
  induction l₁ with
  | nil => rfl
  | cons a l₁ ih => simp [List.insertIdx_succ_cons, ih]

include h

/-- The only new element. -/
theorem mem_insert : y ∈ insert l x ↔ y = x ∨ y ∈ l := by
  rcases search_cases h x with ⟨l₁, l₂, hl, hs⟩ | ⟨l₁, l₂, hl, _, hs, _, _⟩
  · rw [insert, hs]
    refine ⟨.inr, fun h0 => h0.elim (fun h1 => ?_) id⟩
    rw [h1, hl]
    simp
  · rw [insert, hs]
    dsimp only
    rw [hl, insertIdx_append]
    simp only [List.mem_append, List.mem_cons]
    tauto

/-- Insertion keeps the order. -/
theorem sorted_insert : (insert l x).Pairwise (· < ·) := by
  rcases search_cases h x with ⟨l₁, l₂, hl, hs⟩ | ⟨l₁, l₂, hl, _, hs, hlow, hhigh⟩
  · rw [insert, hs]
    exact h
  · rw [insert, hs]
    dsimp only
    rw [hl] at h ⊢
    rw [insertIdx_append]
    obtain ⟨h₁, h₂, h₁₂⟩ := List.pairwise_append.mp h
    refine List.pairwise_append.mpr ⟨h₁, List.pairwise_cons.mpr ⟨hhigh, h₂⟩, ?_⟩
    intro a ha b hb
    rcases List.mem_cons.mp hb with rfl | hb
    · exact hlow a ha
    · exact h₁₂ a ha b hb

theorem remove_eq_none : remove l x = none ↔ x ∉ l := by
  rw [← search_isOk h, remove]
  cases search l x <;> simp

omit h

omit [LinearOrder α] in
theorem eraseIdx_append (l₁ l₂ : List α) : (l₁ ++ x :: l₂).eraseIdx l₁.length = l₁ ++ l₂ := by
  induction l₁ with
  | nil => rfl
  | cons a l₁ ih => simp [ih]

include h in
/-- What is removed was there, and everything else stays. -/
theorem remove_eq_some {l' : List α} (hr : remove l x = some l') :
    x ∈ l ∧ l'.Pairwise (· < ·) ∧ ∀ y, y ∈ l' ↔ y ∈ l ∧ y ≠ x := by
  rcases search_cases h x with ⟨l₁, l₂, hl, hs⟩ | ⟨l₁, l₂, hl, _, hs, _, _⟩
  · rw [remove, hs] at hr
    have hl' : l' = l₁ ++ l₂ := by
      rw [← Option.some.inj hr, hl, eraseIdx_append]
    rw [hl] at h
    obtain ⟨h₁, h₂, h₁₂⟩ := List.pairwise_append.mp h
    obtain ⟨hx, h₂⟩ := List.pairwise_cons.mp h₂
    refine ⟨by rw [hl]; simp, ?_, fun y => ?_⟩
    · rw [hl']
      exact List.pairwise_append.mpr ⟨h₁, h₂, fun a ha b hb => h₁₂ a ha b (List.mem_cons_of_mem x hb)⟩
    · rw [hl', hl]
      simp only [List.mem_append, List.mem_cons]
      constructor
      · rintro (h0 | h0)
        · exact ⟨.inl h0, (h₁₂ y h0 x List.mem_cons_self).ne⟩
        · exact ⟨.inr (.inr h0), (hx y h0).ne'⟩
      · rintro ⟨h0 | h0 | h0, hne⟩
        · exact .inl h0
        · exact absurd h0 hne
        · exact .inr h0
  · rw [remove, hs] at hr
    cases hr

end Mnu.Lib.SortedList
