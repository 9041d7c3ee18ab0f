import Mathlib.Tactic

/-!
# `Mnu.Lib.RingBuffer` — a ring buffer and the list it holds

A ring keeps `count` elements in a buffer of `cap` cells, from `head` on and wrapping at the end; `tail` is
the next cell to write. `toList` reads it as a queue. The two operations are list equations on that reading
(`toList_enqueue`, `toList_dequeue`), and everything else about a ring is said of the list.
-/

namespace Mnu.Lib

open Function

/-- A ring of fixed capacity. -/
structure RingBuffer (α : Type) where
  head : Nat
  tail : Nat
  count : Nat
  queue : Nat → α

namespace RingBuffer

variable {α : Type} (cap : Nat) {r' : RingBuffer α}

/-- Write at the tail. -/
def enqueue (r : RingBuffer α) (x : α) : RingBuffer α :=
  { head := r.head
    tail := (r.tail + 1) % cap
    count := r.count + 1
    queue := update r.queue r.tail x }

/-- Read at the head. -/
def dequeue (r : RingBuffer α) : Option (α × RingBuffer α) :=
  if r.count = 0 then none
  else some (r.queue r.head, { r with head := (r.head + 1) % cap, count := r.count - 1 })

/-- The elements in queue order. -/
def toList (r : RingBuffer α) : List α :=
  (List.range r.count).map fun i => r.queue ((r.head + i) % cap)

/-- The indices agree with each other and with the capacity. -/
structure Sound (r : RingBuffer α) : Prop where
  head_lt : r.head < cap
  count_le : r.count ≤ cap
  tail_eq : r.tail = (r.head + r.count) % cap

variable {cap} {r : RingBuffer α} {x : α} (h : r.Sound cap) (hd : r.dequeue cap = some (x, r'))

@[simp] theorem length_toList (r : RingBuffer α) : (r.toList cap).length = r.count := by
  simp [toList]

/-- Two offsets below the capacity name the same cell only if they are equal. -/
theorem index_inj {head i j : Nat} (hi : i < cap) (hj : j < cap)
    (h : (head + i) % cap = (head + j) % cap) : i = j := by
  have hmod : i ≡ j [MOD cap] := Nat.ModEq.add_left_cancel' head h
  exact Nat.ModEq.eq_of_lt_of_lt hmod hi hj

theorem Sound.enqueue (h : r.Sound cap) (hroom : r.count < cap) : (r.enqueue cap x).Sound cap where
  head_lt := h.head_lt
  count_le := hroom
  tail_eq := by
    show (r.tail + 1) % cap = (r.head + (r.count + 1)) % cap
    rw [h.tail_eq, Nat.mod_add_mod, Nat.add_assoc]

/-- An element written to a ring with room is the last of its queue. -/
theorem toList_enqueue (h : r.Sound cap) (hroom : r.count < cap) :
    (r.enqueue cap x).toList cap = r.toList cap ++ [x] := by
  show (List.range (r.count + 1)).map _ = _
  rw [List.range_succ, List.map_append]
  congr 1
  · apply List.map_congr_left
    intro i hi
    have hi' : i < r.count := List.mem_range.mp hi
    show update r.queue r.tail x ((r.head + i) % cap) = _
    apply update_of_ne
    -- the written cell is the one at offset `count`, so no older offset names it
    rw [h.tail_eq]
    intro heq
    exact absurd (index_inj (hi'.trans hroom) hroom heq) hi'.ne
  · show [update r.queue r.tail x ((r.head + r.count) % cap)] = [x]
    rw [← h.tail_eq, update_self]

/-- So are several, in their order. -/
theorem toList_foldl_enqueue (h : r.Sound cap) (xs : List α) (hroom : r.count + xs.length ≤ cap) :
    (xs.foldl (enqueue cap) r).toList cap = r.toList cap ++ xs ∧ (xs.foldl (enqueue cap) r).head = r.head ∧
      (xs.foldl (enqueue cap) r).count = r.count + xs.length := by
  induction xs generalizing r with
  | nil => simp
  | cons x xs ih =>
    rw [List.length_cons] at hroom
    obtain ⟨hlist, hhead, hcount⟩ :=
      ih (h.enqueue (x := x) (by omega)) (by show r.count + 1 + xs.length ≤ cap; omega)
    refine ⟨?_, hhead, hcount.trans ?_⟩
    · rw [List.foldl_cons, hlist, toList_enqueue h (by omega), List.append_assoc, List.singleton_append]
    · show r.count + 1 + xs.length = _
      rw [List.length_cons]
      omega

/-- Giving up the first `k` elements. -/
theorem toList_drop (r : RingBuffer α) (k : Nat) :
    toList cap { r with head := (r.head + k) % cap, count := r.count - k } = (r.toList cap).drop k := by
  refine List.ext_getElem (by simp) fun i _ _ => ?_
  simp [toList, Nat.add_assoc]

theorem dequeue_eq_none : r.dequeue cap = none ↔ r.toList cap = [] := by
  rw [← List.length_eq_zero_iff, length_toList]
  unfold dequeue
  split <;> simp_all

include h hd

/-- What is read is the first of the queue, and the rest stays. -/
theorem toList_dequeue : r.toList cap = x :: r'.toList cap := by
  unfold dequeue at hd
  split at hd
  · cases hd
  rename_i hne
  obtain ⟨n, hn⟩ := Nat.exists_eq_succ_of_ne_zero hne
  cases hd
  show (List.range r.count).map _ = _ :: (List.range (r.count - 1)).map _
  rw [hn, List.range_succ_eq_map, List.map_cons, List.map_map]
  congr 1
  · show r.queue ((r.head + 0) % cap) = r.queue r.head
    rw [Nat.add_zero, Nat.mod_eq_of_lt h.head_lt]
  · apply List.map_congr_left
    intro i _
    show r.queue ((r.head + (i + 1)) % cap) = r.queue (((r.head + 1) % cap + i) % cap)
    rw [Nat.mod_add_mod, Nat.add_assoc, Nat.add_comm 1 i]

theorem Sound.dequeue : r'.Sound cap := by
  unfold RingBuffer.dequeue at hd
  split at hd
  · cases hd
  rename_i hne
  cases hd
  refine ⟨Nat.mod_lt _ (Nat.zero_lt_of_lt h.head_lt), (Nat.sub_le _ _).trans h.count_le, ?_⟩
  show r.tail = ((r.head + 1) % cap + (r.count - 1)) % cap
  rw [h.tail_eq, Nat.mod_add_mod, Nat.add_assoc, Nat.add_sub_cancel' (Nat.pos_of_ne_zero hne)]

/-- The cell that was read may be overwritten. -/
theorem toList_dequeue_clear (y : α) :
    ({ r' with queue := update r'.queue r.head y } : RingBuffer α).toList cap = r'.toList cap := by
  unfold RingBuffer.dequeue at hd
  split at hd
  · cases hd
  cases hd
  apply List.map_congr_left
  intro i hi
  have hi' : i < r.count - 1 := List.mem_range.mp hi
  have hle := h.count_le
  apply update_of_ne
  show ((r.head + 1) % cap + i) % cap ≠ r.head
  rw [Nat.mod_add_mod, Nat.add_assoc]
  -- the cell that was read is at offset zero, those that stay are behind it
  intro heq
  have hzero : (r.head + (1 + i)) % cap = (r.head + 0) % cap := by
    rw [heq, Nat.add_zero, Nat.mod_eq_of_lt h.head_lt]
  have := index_inj (by omega) (by omega) hzero
  omega

omit h hd

theorem exists_dequeue {xs : List α} (h : r.Sound cap) (hl : r.toList cap = x :: xs) :
    ∃ r', r.dequeue cap = some (x, r') ∧ r'.toList cap = xs := by
  match hd : r.dequeue cap with
  | none =>
    rw [dequeue_eq_none.mp hd] at hl
    exact absurd hl (List.cons_ne_nil _ _).symm
  | some (y, r') =>
    have hcons : y :: r'.toList cap = x :: xs := (toList_dequeue h hd).symm.trans hl
    obtain ⟨rfl, rfl⟩ := List.cons.inj hcons
    exact ⟨r', rfl, rfl⟩

end RingBuffer

end Mnu.Lib
