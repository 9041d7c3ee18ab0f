import Mnu.Task.HandleTable

/-!
# `Mnu.Task.HandleTableInv` — selectors and reservations of a handle table

A table is `Sound` if its entries are sorted, no selector is used twice by entries and reservations together,
every selector is between one and the limit, and the identities of the reservations are distinct and were all
handed out before the next one. Every operation keeps this (`Sound.apply`).

Two consequences carry the callers. A table below its limit has a free selector, so a reservation is refused
only for want of storage (`Sound.reserve_of_room`). A ticket stands for one entry for good, whatever the
others do with the table in between (`Evolves`), and publishing it then puts that entry under the ticket's
selector (`Sound.publishReserved`).
-/

namespace Mnu.Task

namespace ObjectHandleTable

variable {ω : Type} {t t' : ObjectHandleTable ω} {handle : Nat} {entry : ObjectHandleEntry ω}
  {ticket : HandleReservation} {pending : List (HandleReservation × ObjectHandleEntry ω)}

/-- The selectors in use: those of the entries, then those of the reservations. -/
def selectors (t : ObjectHandleTable ω) : List Nat :=
  t.entries.map Prod.fst ++ t.pending.map fun reservation => reservation.1.handle

/-- The invariant of a table. -/
structure Sound (t : ObjectHandleTable ω) : Prop where
  sorted : (t.entries.map Prod.fst).Pairwise (· < ·)
  nodup : t.selectors.Nodup
  range : ∀ handle ∈ t.selectors, 1 ≤ handle ∧ handle ≤ processMaxObjectHandles
  identities : (t.pending.map fun reservation => reservation.1.identity).Nodup
  issued : ∀ reservation ∈ t.pending, reservation.1.identity < t.nextReservation

/-- The selector can be given out. -/
def Vacant (t : ObjectHandleTable ω) (handle : Nat) : Prop :=
  handle ∉ t.selectors ∧ 1 ≤ handle ∧ handle ≤ processMaxObjectHandles

theorem sound_new : Sound (new : ObjectHandleTable ω) where
  sorted := List.Pairwise.nil
  nodup := List.nodup_nil
  range := by
    intro handle h
    cases h
  identities := List.nodup_nil
  issued := by
    intro reservation h
    cases h

/-! ## Looking up -/

theorem get_eq_none : t.get handle = none ↔ handle ∉ t.entries.map Prod.fst := by
  rw [get, Option.map_eq_none_iff, List.find?_eq_none, List.mem_map]
  constructor
  · rintro hall ⟨x, hx, rfl⟩
    exact hall x hx (decide_eq_true rfl)
  · intro hnone x hx hsel
    exact hnone ⟨x, hx, of_decide_eq_true hsel⟩

/-- In a sound table a selector has at most one entry, so looking it up is membership. -/
theorem Sound.get_eq_some (h : Sound t) : t.get handle = some entry ↔ (handle, entry) ∈ t.entries := by
  have hnodup : (t.entries.map Prod.fst).Nodup := h.nodup.of_append_left
  constructor
  · intro hget
    obtain ⟨⟨found, e⟩, hfind, he⟩ := Option.map_eq_some_iff.mp hget
    have hmem := List.mem_of_find?_eq_some hfind
    have hfound : found = handle := by simpa using List.find?_some hfind
    cases he
    exact hfound ▸ hmem
  · intro hmem
    cases hget : t.get handle with
    | none => exact absurd (List.mem_map_of_mem hmem) (get_eq_none.mp hget)
    | some e =>
      obtain ⟨⟨found, e'⟩, hfind, he⟩ := Option.map_eq_some_iff.mp hget
      have hmem' := List.mem_of_find?_eq_some hfind
      have hfound : found = handle := by simpa using List.find?_some hfind
      have hsame := List.inj_on_of_nodup_map hnodup hmem' hmem hfound
      cases hsame
      exact congrArg some he.symm

theorem insertSorted_perm (handle : Nat) (entry : ObjectHandleEntry ω)
    (xs : List (Nat × ObjectHandleEntry ω)) :
    (insertSorted handle entry xs).Perm ((handle, entry) :: xs) := by
  induction xs with
  | nil => exact .refl _
  | cons x xs ih =>
    rw [insertSorted]
    split
    · exact (ih.cons x).trans (.swap _ _ _)
    · exact .refl _

theorem insertSorted_sorted {xs : List (Nat × ObjectHandleEntry ω)} (h : (xs.map Prod.fst).Pairwise (· < ·))
    (hnew : handle ∉ xs.map Prod.fst) : ((insertSorted handle entry xs).map Prod.fst).Pairwise (· < ·) := by
  induction xs with
  | nil => simp [insertSorted]
  | cons x xs ih =>
    obtain ⟨hx, hxs⟩ := List.pairwise_cons.mp h
    have hne : handle ≠ x.1 := fun he => hnew (he ▸ List.mem_cons_self)
    rw [insertSorted]
    split
    · rename_i hlt
      refine List.pairwise_cons.mpr ⟨?_, ih hxs fun hm => hnew (List.mem_cons_of_mem _ hm)⟩
      intro y hy
      have hy' := ((insertSorted_perm handle entry xs).map Prod.fst).mem_iff.mp hy
      rcases List.mem_cons.mp hy' with rfl | hy'
      · exact hlt
      · exact hx y hy'
    · rename_i hlt
      refine List.pairwise_cons.mpr ⟨?_, h⟩
      intro y hy
      rcases List.mem_cons.mp hy with rfl | hy
      · show handle < x.1
        omega
      · have := hx y hy
        show handle < y
        omega

/-- `swap_remove` takes out one element and changes the order of the others. -/
theorem swapRemove_perm {α : Type} {xs : List α} {index : Nat} (h : index < xs.length) :
    xs.Perm (xs[index] :: swapRemove xs index) := by
  rcases List.eq_nil_or_concat' xs with rfl | ⟨front, last, rfl⟩
  · exact absurd h (Nat.not_lt_zero _)
  have hswap : swapRemove (front ++ [last]) index = ((front ++ [last]).set index last).dropLast := by
    simp [swapRemove]
  rw [hswap]
  by_cases hi : index < front.length
  · rw [List.set_append_left _ _ hi, List.dropLast_concat, List.getElem_append_left hi]
    have hset := List.set_eq_take_append_cons_drop (a := last) (l := front) (i := index)
    rw [if_pos hi] at hset
    rw [hset]
    have hfront : front = front.take index ++ front[index] :: front.drop (index + 1) := by
      rw [List.getElem_cons_drop, List.take_append_drop]
    -- the element taken out and the last one have changed places
    calc front ++ [last] = front.take index ++ front[index] :: front.drop (index + 1) ++ [last] := by
          rw [← hfront]
      _ |>.Perm (last :: (front.take index ++ front[index] :: front.drop (index + 1))) :=
          List.perm_append_singleton _ _
      _ |>.Perm (last :: front[index] :: (front.take index ++ front.drop (index + 1))) :=
          List.perm_middle.cons _
      _ |>.Perm (front[index] :: last :: (front.take index ++ front.drop (index + 1))) := .swap _ _ _
      _ |>.Perm (front[index] :: (front.take index ++ last :: front.drop (index + 1))) :=
          (List.perm_middle.symm).cons _
  · have hlast : index = front.length := by
      rw [List.length_append, List.length_singleton] at h
      omega
    subst hlast
    simp

/-! ## The limit -/

/-- The selector tried in the `k`-th round. -/
def visited (next k : Nat) : Nat :=
  (max 1 (min next processMaxObjectHandles) - 1 + k) % processMaxObjectHandles + 1

theorem visited_zero (next : Nat) : visited next 0 = max 1 (min next processMaxObjectHandles) := by
  unfold visited processMaxObjectHandles
  omega

theorem visited_succ (next k : Nat) :
    visited (if max 1 (min next processMaxObjectHandles) = processMaxObjectHandles then 1
      else max 1 (min next processMaxObjectHandles) + 1) k = visited next (k + 1) := by
  unfold visited processMaxObjectHandles
  split <;> omega

theorem free_iff {raw : Nat} :
    ((t.get raw).isNone && !t.pending.any fun reservation => reservation.1.handle = raw) = true ↔
      raw ∉ t.selectors := by
  simp [selectors, get_eq_none]

/-- What the scan for a selector finds, or that it has tried every one of its rounds in vain. -/
theorem freeSelectorFrom_cases (t : ObjectHandleTable ω) (fuel next : Nat) :
    (∃ next', t.freeSelectorFrom fuel next = (next', none) ∧ ∀ k < fuel, visited next k ∈ t.selectors) ∨
      ∃ next' raw, t.freeSelectorFrom fuel next = (next', some raw) ∧ t.Vacant raw := by
  induction fuel generalizing next with
  | zero => exact .inl ⟨next, rfl, fun k hk => absurd hk (Nat.not_lt_zero k)⟩
  | succ fuel ih =>
    rw [freeSelectorFrom]
    split
    · rename_i hfree
      refine .inr ⟨_, _, rfl, free_iff.mp hfree, ?_, ?_⟩
      · exact Nat.le_max_left _ _
      · exact Nat.max_le.mpr ⟨by decide, Nat.min_le_right _ _⟩
    · rename_i hused
      rcases ih (if max 1 (min next processMaxObjectHandles) = processMaxObjectHandles then 1
        else max 1 (min next processMaxObjectHandles) + 1) with ⟨next', heq, hall⟩ | hfound
      · refine .inl ⟨next', heq, ?_⟩
        intro k hk
        cases k with
        | zero =>
          rw [visited_zero]
          exact not_not.mp fun hn => hused (free_iff.mpr hn)
        | succ k =>
          rw [← visited_succ]
          exact hall k (by omega)
      · exact .inr hfound

/-- A table below its limit has a free selector. -/
theorem freeSelector_of_room (hroom : t.entries.length + t.pending.length < processMaxObjectHandles) :
    ∃ next raw, t.freeSelector = ({ t with next := next }, some raw) ∧ t.Vacant raw := by
  rcases freeSelectorFrom_cases t processMaxObjectHandles t.next with ⟨next, -, hall⟩ | ⟨next, raw, heq, hraw⟩
  · -- the rounds go through all selectors, so all would be in use
    have hsub : List.range' 1 processMaxObjectHandles ⊆ t.selectors := by
      intro raw hraw
      have hbound := List.mem_range'_1.mp hraw
      have hk := hall ((raw - 1 + processMaxObjectHandles -
        (max 1 (min t.next processMaxObjectHandles) - 1)) % processMaxObjectHandles)
          (Nat.mod_lt _ (by decide))
      have hvisit : visited t.next ((raw - 1 + processMaxObjectHandles -
          (max 1 (min t.next processMaxObjectHandles) - 1)) % processMaxObjectHandles) = raw := by
        unfold visited
        unfold processMaxObjectHandles at hbound ⊢
        omega
      exact hvisit ▸ hk
    have hall' : (List.range' 1 processMaxObjectHandles).Nodup := List.nodup_range'
    have hle := (hall'.subperm hsub).length_le
    have hlen : t.selectors.length = t.entries.length + t.pending.length := by simp [selectors]
    rw [List.length_range'] at hle
    omega
  · refine ⟨next, raw, ?_, hraw⟩
    rw [freeSelector, heq]

theorem freeSelector_cases (t : ObjectHandleTable ω) :
    (∃ next, t.freeSelector = ({ t with next := next }, none)) ∨
      ∃ next raw, t.freeSelector = ({ t with next := next }, some raw) ∧ t.Vacant raw := by
  rcases freeSelectorFrom_cases t processMaxObjectHandles t.next with ⟨next, heq, -⟩ | ⟨next, raw, heq, hraw⟩
  · refine .inl ⟨next, ?_⟩
    rw [freeSelector, heq]
  · refine .inr ⟨next, raw, ?_, hraw⟩
    rw [freeSelector, heq]

/-! ## How a table changes -/

/-- The cursor of the scan has no part in the invariant. -/
theorem Sound.moved (h : Sound t) (next : Nat) : Sound { t with next := next } :=
  ⟨h.sorted, h.nodup, h.range, h.identities, h.issued⟩

/-- A new entry under a free selector. -/
theorem Sound.inserted (h : Sound t) (hvacant : t.Vacant handle) (entry : ObjectHandleEntry ω) :
    Sound { t with entries := insertSorted handle entry t.entries } := by
  have hperm :
    ({ t with entries := insertSorted handle entry t.entries } : ObjectHandleTable ω).selectors.Perm
      (handle :: t.selectors) :=
    ((insertSorted_perm handle entry t.entries).map Prod.fst).append_right _
  refine ⟨?_, ?_, ?_, h.identities, h.issued⟩
  · exact insertSorted_sorted h.sorted fun hm => hvacant.1 (List.mem_append_left _ hm)
  · exact hperm.nodup_iff.mpr (List.nodup_cons.mpr ⟨hvacant.1, h.nodup⟩)
  · intro x hx
    rcases List.mem_cons.mp (hperm.mem_iff.mp hx) with rfl | hx
    · exact hvacant.2
    · exact h.range x hx

/-- The table after a reservation. -/
def withReservation (t : ObjectHandleTable ω) (next handle owner : Nat) (entry : ObjectHandleEntry ω) :
    ObjectHandleTable ω :=
  { t with
    next := next
    nextReservation := t.nextReservation + 1
    pending := t.pending ++ [(⟨handle, t.nextReservation, owner⟩, entry)] }

theorem Sound.withReservation (h : Sound t) (hvacant : t.Vacant handle) (next owner : Nat)
    (entry : ObjectHandleEntry ω) : Sound (t.withReservation next handle owner entry) := by
  have hperm : (t.withReservation next handle owner entry).selectors.Perm (handle :: t.selectors) := by
    simp only [ObjectHandleTable.withReservation, selectors, List.map_append, List.map_cons,
      List.map_nil, ← List.append_assoc]
    exact List.perm_append_singleton _ _
  refine ⟨h.sorted, ?_, ?_, ?_, ?_⟩
  · exact hperm.nodup_iff.mpr (List.nodup_cons.mpr ⟨hvacant.1, h.nodup⟩)
  · intro x hx
    rcases List.mem_cons.mp (hperm.mem_iff.mp hx) with rfl | hx
    · exact hvacant.2
    · exact h.range x hx
  · simp only [ObjectHandleTable.withReservation, List.map_append, List.map_cons, List.map_nil]
    refine List.nodup_append.mpr ⟨h.identities, List.nodup_singleton _, ?_⟩
    intro x hx y hy
    obtain ⟨r, hr, rfl⟩ := List.mem_map.mp hx
    have hlt := h.issued r hr
    rw [List.mem_singleton.mp hy]
    omega
  · intro r hr
    show r.1.identity < t.nextReservation + 1
    rcases List.mem_append.mp hr with hr | hr
    · have := h.issued r hr
      omega
    · rw [List.mem_singleton.mp hr]
      exact Nat.lt_succ_self _

/-- Entries may go. -/
theorem Sound.fewer (h : Sound t) {entries : List (Nat × ObjectHandleEntry ω)}
    (he : entries.Sublist t.entries) : Sound { t with entries := entries } := by
  have hsel : ({ t with entries := entries } : ObjectHandleTable ω).selectors.Sublist t.selectors :=
    (he.map Prod.fst).append_right _
  refine ⟨h.sorted.sublist (he.map Prod.fst), h.nodup.sublist hsel, ?_, h.identities, h.issued⟩
  intro x hx
  exact h.range x (hsel.subset hx)

/-- A reservation may go, and its selector is free then. -/
theorem Sound.withdrawn (h : Sound t) {r : HandleReservation × ObjectHandleEntry ω}
    (hp : t.pending.Perm (r :: pending)) : Sound { t with pending := pending } ∧
      r.1.handle ∉ ({ t with pending := pending } : ObjectHandleTable ω).selectors := by
  have hperm :
    t.selectors.Perm (r.1.handle :: ({ t with pending := pending } : ObjectHandleTable ω).selectors) :=
    ((hp.map fun reservation => reservation.1.handle).append_left _).trans List.perm_middle
  obtain ⟨hfree, hnodup⟩ := List.nodup_cons.mp (hperm.nodup_iff.mp h.nodup)
  have hids := (hp.map fun reservation => reservation.1.identity).nodup_iff.mp h.identities
  refine ⟨⟨h.sorted, hnodup, ?_, (List.nodup_cons.mp hids).2, ?_⟩, hfree⟩
  · exact fun x hx => h.range x (hperm.mem_iff.mpr (List.mem_cons_of_mem _ hx))
  · exact fun x hx => h.issued x (hp.mem_iff.mpr (List.mem_cons_of_mem _ hx))

/-- What taking a reservation out comes to. -/
theorem takePending_cases (t : ObjectHandleTable ω) (select : HandleReservation → Bool) :
    (t.takePending select = (t, none) ∧ ∀ r ∈ t.pending, select r.1 = false) ∨
      ∃ r pending, t.takePending select = ({ t with pending := pending }, some r.2) ∧ select r.1 = true ∧
        t.pending.Perm (r :: pending) := by
  unfold takePending
  split
  · rename_i hnone
    refine .inl ⟨rfl, ?_⟩
    simpa using List.findIdx?_eq_none_iff.mp hnone
  · rename_i index hsome
    obtain ⟨hlt, hsel, -⟩ := List.findIdx?_eq_some_iff_getElem.mp hsome
    refine .inr ⟨t.pending[index], _, ?_, hsel, swapRemove_perm hlt⟩
    rw [List.getElem?_eq_getElem hlt]
    rfl

/-! ## Reserving and publishing -/

/-- A reservation moves the cursor at most, or it takes a free selector. -/
theorem reserve_cases (t : ObjectHandleTable ω) (owner : Nat) (entry : ObjectHandleEntry ω) (room : Bool) :
    (∃ next, t.reserve owner entry room = ({ t with next := next }, none)) ∨
      ∃ next handle, t.reserve owner entry room =
          (t.withReservation next handle owner entry, some ⟨handle, t.nextReservation, owner⟩) ∧
        t.Vacant handle := by
  unfold reserve
  split
  · exact .inl ⟨t.next, rfl⟩
  · split
    · exact .inl ⟨t.next, rfl⟩
    · rcases freeSelector_cases t with ⟨next, heq⟩ | ⟨next, handle, heq, hfree⟩
      · rw [heq]
        exact .inl ⟨next, rfl⟩
      · rw [heq]
        exact .inr ⟨next, handle, rfl, hfree⟩

/-- **A table with room for it grants a reservation.** -/
theorem reserve_of_room {owner : Nat} (hid : t.nextReservation + 1 < 2 ^ 64) (howner : owner ≠ 0)
    (hroom : t.entries.length + t.pending.length < processMaxObjectHandles) (entry : ObjectHandleEntry ω) :
    ∃ next handle, t.reserve owner entry true =
        (t.withReservation next handle owner entry, some ⟨handle, t.nextReservation, owner⟩) ∧
      t.Vacant handle := by
  obtain ⟨next, handle, heq, hfree⟩ := freeSelector_of_room hroom
  refine ⟨next, handle, ?_, hfree⟩
  have hstorage : t.reservePublicationStorage true = true := by simp [reservePublicationStorage, hroom]
  rw [reserve, if_neg (Nat.not_le.mpr hid), if_neg (by simp [howner, hstorage]), heq]
  rfl

theorem isReserved_iff : t.isReserved ticket = true ↔ ∃ entry, (ticket, entry) ∈ t.pending := by
  simp [isReserved]

/-- Publishing changes nothing, or puts the entry of the ticket under its selector. -/
theorem publishReserved_cases (t : ObjectHandleTable ω) (ticket : HandleReservation) :
    (t.publishReserved ticket = (t, false) ∧
      ((t.get ticket.handle).isSome = true ∨ t.isReserved ticket = false)) ∨
      ∃ entry pending, t.pending.Perm ((ticket, entry) :: pending) ∧ t.get ticket.handle = none ∧
        t.publishReserved ticket =
          ({ t with entries := insertSorted ticket.handle entry t.entries, pending := pending }, true) := by
  unfold publishReserved
  split
  · rename_i hsome
    exact .inl ⟨rfl, .inl hsome⟩
  rename_i hsome
  rcases takePending_cases t fun candidate =>
    candidate = ticket with ⟨heq, hnone⟩ | ⟨r, pending, heq, hsel, hp⟩
  · rw [heq]
    refine .inl ⟨rfl, .inr ?_⟩
    rw [isReserved, List.any_eq_false]
    intro r hr
    simpa using hnone r hr
  · rw [heq]
    obtain ⟨found, entry⟩ := r
    have hfound : found = ticket := of_decide_eq_true hsel
    subst hfound
    refine .inr ⟨entry, pending, hp, ?_, rfl⟩
    simpa using hsome

/-- **A reserved ticket is published**: its selector is free by the invariant. -/
theorem Sound.publishReserved (h : Sound t) (hmem : (ticket, entry) ∈ t.pending) :
    ∃ pending, t.pending.Perm ((ticket, entry) :: pending) ∧ t.get ticket.handle = none ∧
      t.publishReserved ticket =
        ({ t with entries := insertSorted ticket.handle entry t.entries, pending := pending }, true) := by
  have hnone : t.get ticket.handle = none := by
    rw [get_eq_none]
    intro hused
    have hpend : ticket.handle ∈ t.pending.map fun reservation => reservation.1.handle :=
      List.mem_map.mpr ⟨_, hmem, rfl⟩
    exact List.disjoint_of_nodup_append h.nodup hused hpend
  rcases publishReserved_cases t ticket with ⟨-, hbad | hbad⟩ | ⟨found, pending, hp, -, heq⟩
  · rw [hnone] at hbad
    cases hbad
  · rw [isReserved_iff.mpr ⟨entry, hmem⟩] at hbad
    cases hbad
  · -- the identity of a ticket determines its reservation
    have hfound : (ticket, found) ∈ t.pending := hp.mem_iff.mpr List.mem_cons_self
    have hsame := List.inj_on_of_nodup_map h.identities hfound hmem rfl
    cases hsame
    exact ⟨pending, hp, hnone, heq⟩

theorem Sound.published (h : Sound t) (hp : t.pending.Perm ((ticket, entry) :: pending)) :
    Sound { t with entries := insertSorted ticket.handle entry t.entries, pending := pending } := by
  obtain ⟨hsound, hfree⟩ := h.withdrawn hp
  have hmem : ticket.handle ∈ t.selectors :=
    List.mem_append_right _ (List.mem_map.mpr ⟨_, hp.mem_iff.mpr List.mem_cons_self, rfl⟩)
  exact hsound.inserted ⟨hfree, h.range _ hmem⟩ entry

/-! ## Every operation -/

/-- What can be done with a table. -/
inductive Op (ω : Type) where
  | insert (entry : ObjectHandleEntry ω) (room : Bool)
  | insertAt (handle : { n : Nat // n ≠ 0 }) (entry : ObjectHandleEntry ω) (room : Bool)
  | reserve (owner : Nat) (entry : ObjectHandleEntry ω) (room : Bool)
  | publishReserved (ticket : HandleReservation)
  | cancelReserved (ticket : HandleReservation)
  | takeReservationFor (owner : Nat)
  | takeEntry (handle : Nat)
  | retain (keep : Nat → Bool)

/-- The table after an operation. -/
def apply (t : ObjectHandleTable ω) : Op ω → ObjectHandleTable ω
  | .insert entry room => (t.insert entry room).1
  | .insertAt handle entry room => (t.insertAt handle entry room).1
  | .reserve owner entry room => (t.reserve owner entry room).1
  | .publishReserved ticket => (t.publishReserved ticket).1
  | .cancelReserved ticket => (t.cancelReserved ticket).1
  | .takeReservationFor owner => (t.takeReservationFor owner).1
  | .takeEntry handle => (t.takeEntry handle).1
  | .retain keep => (t.retain keep).1

/-- What becomes of reservations over time: identities are handed out upwards, and a reservation with an old
    identity was there before. -/
structure Evolves (t t' : ObjectHandleTable ω) : Prop where
  next_le : t.nextReservation ≤ t'.nextReservation
  old : ∀ r ∈ t'.pending, r.1.identity < t.nextReservation → r ∈ t.pending

theorem Evolves.same (hnext : t'.nextReservation = t.nextReservation) (hpending : t'.pending = t.pending) :
    Evolves t t' :=
  ⟨hnext.ge, fun _ hr _ => hpending ▸ hr⟩

theorem Evolves.trans {t'' : ObjectHandleTable ω} (h : Evolves t t') (h' : Evolves t' t'') :
    Evolves t t'' := by
  refine ⟨h.next_le.trans h'.next_le, ?_⟩
  intro r hr hold
  exact h.old r (h'.old r hr (Nat.lt_of_lt_of_le hold h.next_le)) hold

/-- One operation on a sound table gives a sound table, and old tickets keep their meaning. -/
theorem Sound.apply (h : Sound t) (op : Op ω) : Sound (t.apply op) ∧ Evolves t (t.apply op) := by
  have taken (select : HandleReservation → Bool) :
      Sound (t.takePending select).1 ∧ Evolves t (t.takePending select).1 := by
    rcases takePending_cases t select with ⟨heq, -⟩ | ⟨r, pending, heq, -, hp⟩
    · rw [heq]
      exact ⟨h, .same rfl rfl⟩
    · rw [heq]
      exact ⟨(h.withdrawn hp).1, ⟨Nat.le_refl _, fun x hx _ => hp.mem_iff.mpr (List.mem_cons_of_mem _ hx)⟩⟩
  have fewer {entries : List (Nat × ObjectHandleEntry ω)} (hsub : entries.Sublist t.entries) :
      Sound { t with entries := entries } ∧ Evolves t { t with entries := entries } :=
    ⟨h.fewer hsub, .same rfl rfl⟩
  cases op with
  | insert entry room =>
    show Sound (t.insert entry room).1 ∧ Evolves t (t.insert entry room).1
    unfold ObjectHandleTable.insert
    split
    · exact ⟨h, .same rfl rfl⟩
    · rcases freeSelector_cases t with ⟨next, heq⟩ | ⟨next, handle, heq, hvacant⟩
      · rw [heq]
        exact ⟨h.moved next, .same rfl rfl⟩
      · rw [heq]
        exact ⟨(h.moved next).inserted hvacant entry, .same rfl rfl⟩
  | insertAt handle entry room =>
    show Sound (t.insertAt handle entry room).1 ∧ Evolves t (t.insertAt handle entry room).1
    unfold ObjectHandleTable.insertAt
    split
    · exact ⟨h, .same rfl rfl⟩
    split
    · exact ⟨h, .same rfl rfl⟩
    split
    · exact ⟨h, .same rfl rfl⟩
    · rename_i hbound hused hroom
      rw [Bool.or_eq_true, not_or, decide_eq_true_iff, Nat.not_lt] at hbound
      have hfree : handle.val ∉ t.selectors := by
        rw [← free_iff, Bool.and_eq_true]
        exact ⟨by simpa using hused, by simpa using hbound.2⟩
      exact ⟨h.inserted ⟨hfree, Nat.one_le_iff_ne_zero.mpr handle.2, hbound.1⟩ entry, .same rfl rfl⟩
  | reserve owner entry room =>
    show Sound (t.reserve owner entry room).1 ∧ Evolves t (t.reserve owner entry room).1
    rcases reserve_cases t owner entry room with ⟨next, heq⟩ | ⟨next, handle, heq, hvacant⟩
    · rw [heq]
      exact ⟨h.moved next, .same rfl rfl⟩
    · rw [heq]
      refine ⟨h.withReservation hvacant next owner entry, Nat.le_succ _, ?_⟩
      intro r hr hold
      rcases List.mem_append.mp hr with hr | hr
      · exact hr
      · rw [List.mem_singleton.mp hr] at hold
        exact absurd hold (Nat.lt_irrefl _)
  | publishReserved ticket =>
    show Sound (t.publishReserved ticket).1 ∧ Evolves t (t.publishReserved ticket).1
    rcases publishReserved_cases t ticket with ⟨heq, -⟩ | ⟨entry, pending, hp, -, heq⟩
    · rw [heq]
      exact ⟨h, .same rfl rfl⟩
    · rw [heq]
      exact ⟨h.published hp, ⟨Nat.le_refl _, fun x hx _ => hp.mem_iff.mpr (List.mem_cons_of_mem _ hx)⟩⟩
  | cancelReserved ticket | takeReservationFor owner => exact taken _
  | takeEntry handle =>
    show Sound (t.takeEntry handle).1 ∧ Evolves t (t.takeEntry handle).1
    unfold ObjectHandleTable.takeEntry
    split
    · exact ⟨h, .same rfl rfl⟩
    · exact fewer List.eraseP_sublist
  | retain keep => exact fewer List.filter_sublist

end ObjectHandleTable

end Mnu.Task
