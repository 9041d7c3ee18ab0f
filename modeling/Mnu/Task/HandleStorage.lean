import Mnu.Task.HandleTableInv

/-!
# `Mnu.Task.HandleStorage` — the storage behind a handle table

`publish_reserved` has no way to fail for want of memory, so the place for its entry must be there before. The
`Vec` of the entries is therefore asked for one place more than the reservations need before anything is
inserted or reserved. Here the table comes with the capacity of that `Vec`: `try_reserve` may move it to a
larger block, and `Vec::insert` into a full one has to.

`Roomy` says that entries and reservations fit into the capacity together. Every operation keeps it, in any
order (`Roomy.step`).
-/

namespace Mnu.Task

namespace ObjectHandleTable

variable {ω : Type}

/-- A table and the capacity of its `entries`. -/
structure Stored (ω : Type) where
  table : ObjectHandleTable ω
  capacity : Nat

/-- `Vec::try_reserve`. The allocator is asked only if the capacity is too small; `grant` is its answer, with
    the places it gives beyond those asked for. -/
def tryReserve (capacity len additional : Nat) (grant : Option Nat) : Option Nat :=
  if len + additional ≤ capacity then some capacity else grant.map (len + additional + ·)

namespace Stored

/-- A new table has no storage. -/
def new : Stored ω := ⟨.new, 0⟩

/-- `reserve_publication_storage`: the capacity afterwards, and whether there is a place. -/
def reservePublicationStorage (s : Stored ω) (grant : Option Nat) : Nat × Bool :=
  if s.table.entries.length + s.table.pending.length < processMaxObjectHandles then
    match tryReserve s.capacity s.table.entries.length (s.table.pending.length + 1) grant with
    | none => (s.capacity, false)
    | some capacity => (capacity, true)
  else (s.capacity, false)

/-- `Vec::insert` moves a full `Vec` to a larger block first. -/
def insertAllocates (s : Stored ω) : Bool := s.capacity ≤ s.table.entries.length

/-- An operation, with what the heap grants. -/
inductive Op (ω : Type) where
  | insert (entry : ObjectHandleEntry ω) (grant : Option Nat)
  | insertAt (handle : { n : Nat // n ≠ 0 }) (entry : ObjectHandleEntry ω) (grant : Option Nat)
  | reserve (owner : Nat) (entry : ObjectHandleEntry ω) (grant : Option Nat) (pendingRoom : Bool)
  | publishReserved (ticket : HandleReservation)
  | cancelReserved (ticket : HandleReservation)
  | takeReservationFor (owner : Nat)
  | takeEntry (handle : Nat)
  | retain (keep : Nat → Bool)

/-- One operation. An insertion that finds the `Vec` full would leave it with one place more at least. -/
def step (s : Stored ω) : Op ω → Stored ω
  | .insert entry grant =>
    let (capacity, room) := s.reservePublicationStorage grant
    ⟨(s.table.insert entry room).1, capacity⟩
  | .insertAt handle entry grant =>
    -- the selector is checked before storage is asked for
    if (s.table.insertAt handle entry true).2 then
      let (capacity, room) := s.reservePublicationStorage grant
      ⟨(s.table.insertAt handle entry room).1, capacity⟩
    else s
  | .reserve owner entry grant pendingRoom =>
    if 2 ^ 64 ≤ s.table.nextReservation + 1 ∨ owner = 0 then s
    else
      let (capacity, room) := s.reservePublicationStorage grant
      ⟨(s.table.reserve owner entry (room && pendingRoom)).1, capacity⟩
  | .publishReserved ticket =>
    let (table, published) := s.table.publishReserved ticket
    ⟨table, if published && s.insertAllocates then s.table.entries.length + 1 else s.capacity⟩
  | .cancelReserved ticket => ⟨(s.table.cancelReserved ticket).1, s.capacity⟩
  | .takeReservationFor owner => ⟨(s.table.takeReservationFor owner).1, s.capacity⟩
  | .takeEntry handle => ⟨(s.table.takeEntry handle).1, s.capacity⟩
  | .retain keep => ⟨(s.table.retain keep).1, s.capacity⟩

/-- The table is sound, below its limit, and fits into its storage. -/
structure Roomy (s : Stored ω) : Prop where
  sound : Sound s.table
  limit : s.table.entries.length + s.table.pending.length ≤ processMaxObjectHandles
  room : s.table.entries.length + s.table.pending.length ≤ s.capacity

variable {s : Stored ω} {t : ObjectHandleTable ω}

theorem roomy_new : Roomy (new : Stored ω) := ⟨sound_new, Nat.zero_le _, Nat.le_refl _⟩

/-- Storage that was granted has one place more than is in use; storage that was not is as before. -/
theorem Roomy.reserve_cases (h : Roomy s) (grant : Option Nat) :
    (∃ capacity, s.reservePublicationStorage grant = (capacity, true) ∧
        s.table.entries.length + s.table.pending.length < capacity ∧
        s.table.entries.length + s.table.pending.length < processMaxObjectHandles) ∨
      s.reservePublicationStorage grant = (s.capacity, false) := by
  have hroom := h.room
  unfold reservePublicationStorage tryReserve
  split
  · split <;> rename_i heq
    · exact .inr rfl
    · rename_i capacity
      refine .inl ⟨capacity, rfl, ?_, ‹_›⟩
      split at heq
      · cases heq; omega
      · obtain ⟨extra, -, rfl⟩ := Option.map_eq_some_iff.mp heq; omega
  · exact .inr rfl

theorem length_insertSorted (handle : Nat) (entry : ObjectHandleEntry ω)
    (xs : List (Nat × ObjectHandleEntry ω)) : (insertSorted handle entry xs).length = xs.length + 1 :=
  (insertSorted_perm handle entry xs).length_eq

/-- An operation that asks for storage adds one entry or reservation at most, and none without storage. -/
theorem Roomy.grown (h : Roomy s) {grant : Option Nat} (hsound : Sound t)
    (hle : t.entries.length + t.pending.length ≤
      s.table.entries.length + s.table.pending.length + (s.reservePublicationStorage grant).2.toNat) :
    Roomy ⟨t, (s.reservePublicationStorage grant).1⟩ := by
  rcases h.reserve_cases grant with ⟨capacity, heq, hcap, hlim⟩ | heq <;> rw [heq] at hle ⊢ <;>
    simp only [Bool.toNat_true, Bool.toNat_false] at hle
  · exact ⟨hsound, hle.trans hlim, hle.trans hcap⟩
  · exact ⟨hsound, hle.trans h.limit, hle.trans h.room⟩

theorem Roomy.shrunk (h : Roomy s) (hsound : Sound t)
    (hle : t.entries.length + t.pending.length ≤ s.table.entries.length + s.table.pending.length) :
    Roomy ⟨t, s.capacity⟩ :=
  ⟨hsound, hle.trans h.limit, hle.trans h.room⟩

theorem length_insert_le (t : ObjectHandleTable ω) (entry : ObjectHandleEntry ω) (room : Bool) :
    (t.insert entry room).1.entries.length + (t.insert entry room).1.pending.length ≤
      t.entries.length + t.pending.length + room.toNat := by
  unfold ObjectHandleTable.insert ObjectHandleTable.reservePublicationStorage
  cases room with
  | false => simp
  | true =>
    split
    · exact Nat.le_add_right _ _
    · rcases freeSelector_cases t with ⟨next, heq⟩ | ⟨next, raw, heq, -⟩ <;> rw [heq]
      · exact Nat.le_add_right _ _
      · simp only [length_insertSorted]; simp; omega

theorem length_insertAt_le (t : ObjectHandleTable ω) (handle : Nat)
    (entry : ObjectHandleEntry ω) (room : Bool) :
    (t.insertAt handle entry room).1.entries.length + (t.insertAt handle entry room).1.pending.length ≤
      t.entries.length + t.pending.length + room.toNat := by
  unfold ObjectHandleTable.insertAt ObjectHandleTable.reservePublicationStorage
  cases room with
  | false => simp
  | true =>
    repeat' split
    all_goals simp only [length_insertSorted, Bool.toNat_true]; omega

theorem length_reserve_le (t : ObjectHandleTable ω) (owner : Nat)
    (entry : ObjectHandleEntry ω) (room : Bool) :
    (t.reserve owner entry room).1.entries.length + (t.reserve owner entry room).1.pending.length ≤
      t.entries.length + t.pending.length + room.toNat := by
  cases room with
  | false => simp [ObjectHandleTable.reserve, ObjectHandleTable.reservePublicationStorage]
  | true =>
    rcases ObjectHandleTable.reserve_cases t owner entry true with ⟨next, heq⟩
      | ⟨next, handle, heq, -⟩ <;> rw [heq]
    · exact Nat.le_add_right _ _
    · simp [withReservation]; omega

theorem length_takePending_le (t : ObjectHandleTable ω) (select : HandleReservation → Bool) :
    (t.takePending select).1.entries.length + (t.takePending select).1.pending.length ≤
      t.entries.length + t.pending.length := by
  rcases takePending_cases t select with ⟨heq, -⟩ | ⟨r, pending, heq, -, hp⟩ <;> rw [heq]
  simp [hp.length_eq]

/-- **Every operation keeps the table sound, below its limit and within its storage.** -/
theorem Roomy.step (h : Roomy s) (op : Op ω) : Roomy (s.step op) := by
  cases op with
  | insert entry grant => exact h.grown (h.sound.apply (.insert entry _)).1 (length_insert_le _ _ _)
  | insertAt handle entry grant =>
    show Roomy (if _ then _ else _)
    split
    · exact h.grown (h.sound.apply (.insertAt handle entry _)).1 (length_insertAt_le _ _ _ _)
    · exact h
  | reserve owner entry grant pendingRoom =>
    show Roomy (if _ then _ else _)
    split
    · exact h
    let room := (s.reservePublicationStorage grant).2
    refine h.grown (h.sound.apply (.reserve owner entry (room && pendingRoom))).1
      ((length_reserve_le s.table owner entry (room && pendingRoom)).trans ?_)
    show _ + (room && pendingRoom).toNat ≤ _ + room.toNat
    cases pendingRoom <;> simp
  | publishReserved ticket =>
    have hroom := h.room
    rcases publishReserved_cases s.table ticket with ⟨heq, -⟩ | ⟨entry, pending, hp, -, heq⟩
    · simpa [Stored.step, heq] using h
    · -- the reservation is in the total, so there is a place for its entry
      have hlen : s.table.pending.length = pending.length + 1 := hp.length_eq
      have hfull : s.insertAllocates = false := by simp [insertAllocates]; omega
      simp only [Stored.step, heq, hfull, Bool.and_false, Bool.false_eq_true, if_false]
      refine h.shrunk (h.sound.published hp) ?_
      simp only [length_insertSorted]
      omega
  | cancelReserved ticket =>
    exact h.shrunk (h.sound.apply (.cancelReserved ticket)).1 (length_takePending_le _ _)
  | takeReservationFor owner =>
    exact h.shrunk (h.sound.apply (.takeReservationFor owner)).1 (length_takePending_le _ _)
  | takeEntry handle =>
    refine h.shrunk (h.sound.apply (.takeEntry handle)).1 ?_
    unfold ObjectHandleTable.takeEntry
    split
    · exact Nat.le_refl _
    · exact Nat.add_le_add_right List.eraseP_sublist.length_le _
  | retain keep =>
    exact h.shrunk (h.sound.apply (.retain keep)).1 (Nat.add_le_add_right List.filter_sublist.length_le _)

theorem roomy_run (ops : List (Op ω)) : Roomy (ops.foldl Stored.step new) := by
  have run : ∀ s : Stored ω, Roomy s → Roomy (ops.foldl Stored.step s) := by
    induction ops with
    | nil => exact fun _ h => h
    | cons op ops ih => exact fun s h => ih _ (h.step op)
  exact run _ roomy_new

/-- In a table that fits into its storage a reserved entry is published without allocating: it is under the
    selector of its ticket then, and reserved no more. -/
theorem Roomy.publishes (h : Roomy s) {ticket : HandleReservation} {entry : ObjectHandleEntry ω}
    (hmem : (ticket, entry) ∈ s.table.pending) : s.insertAllocates = false ∧ ∃ t,
      s.table.publishReserved ticket = (t, true) ∧ t.get ticket.handle = some entry ∧
        t.isReserved ticket = false := by
  obtain ⟨pending, hp, -, heq⟩ := h.sound.publishReserved hmem
  have hroom := h.room
  have hlen : s.table.pending.length = pending.length + 1 := hp.length_eq
  refine ⟨by simp [insertAllocates]; omega, _, heq, ?_, ?_⟩
  · refine (h.sound.published hp).get_eq_some.mpr ?_
    exact (insertSorted_perm _ _ _).mem_iff.mpr List.mem_cons_self
  · rw [← Bool.not_eq_true, isReserved_iff]
    rintro ⟨other, hother⟩
    -- the identity of the ticket is not used twice
    have hids := (hp.map fun reservation => reservation.1.identity).nodup_iff.mp h.sound.identities
    exact (List.nodup_cons.mp hids).1 (List.mem_map.mpr ⟨_, hother, rfl⟩)

/-- **Selectors and storage of a handle table.** After any sequence of operations the entries are sorted by
    selector, no selector is used twice, all are in range and the limit is kept; a reserved ticket is
    published under its selector without allocating, and below the limit there is a selector that is not in
    use. -/
theorem handle_table_has_room (ops : List (Op ω)) :
    let s := ops.foldl Stored.step (new : Stored ω)
    (s.table.entries.map Prod.fst).Pairwise (· < ·) ∧ s.table.selectors.Nodup ∧
      (∀ handle ∈ s.table.selectors, 1 ≤ handle ∧ handle ≤ processMaxObjectHandles) ∧
      s.table.entries.length + s.table.pending.length ≤ processMaxObjectHandles ∧
      (∀ ticket, s.table.isReserved ticket = true → s.insertAllocates = false ∧
        ∃ entry t, (ticket, entry) ∈ s.table.pending ∧ s.table.publishReserved ticket = (t, true) ∧
          t.get ticket.handle = some entry ∧ t.isReserved ticket = false) ∧
      (s.table.entries.length + s.table.pending.length < processMaxObjectHandles →
        ∃ raw, s.table.freeSelector.2 = some raw ∧ raw ∉ s.table.selectors) := by
  intro s
  have h : Roomy s := roomy_run ops
  refine ⟨h.sound.sorted, h.sound.nodup, h.sound.range, h.limit, ?_, ?_⟩
  · intro ticket hres
    obtain ⟨entry, hmem⟩ := isReserved_iff.mp hres
    obtain ⟨hfull, t, hpublished⟩ := h.publishes hmem
    exact ⟨hfull, entry, t, hmem, hpublished⟩
  · intro hroom
    obtain ⟨next, raw, heq, hfree, -⟩ := freeSelector_of_room hroom
    exact ⟨raw, by rw [heq], hfree⟩

/-- A reservation, made while an entry comes and goes, is published without allocating: it is found under its
    selector then. -/
theorem handle_table_has_room_reserved :
    let e : ObjectHandleEntry Unit := ⟨(), .read⟩
    let s :=
      [Op.reserve 7 e (some 0) true, .insert e none, .insert e (some 3), .takeEntry 2].foldl Stored.step new
    s.table.isReserved ⟨1, 1, 7⟩ = true ∧ s.insertAllocates = false ∧
      (∃ entry t, s.table.publishReserved ⟨1, 1, 7⟩ = (t, true) ∧ t.get 1 = some entry ∧
        t.isReserved ⟨1, 1, 7⟩ = false) ∧
      ∃ raw, s.table.freeSelector.2 = some raw := by
  intro e s
  have hres : s.table.isReserved ⟨1, 1, 7⟩ = true := by decide +kernel
  have hall := handle_table_has_room
    [Op.reserve 7 e (some 0) true, .insert e none, .insert e (some 3), .takeEntry 2]
  obtain ⟨hfull, entry, t, -, hpublished⟩ := hall.2.2.2.2.1 _ hres
  obtain ⟨raw, hraw, -⟩ := hall.2.2.2.2.2 (by decide +kernel)
  exact ⟨hres, hfull, ⟨entry, t, hpublished⟩, raw, hraw⟩

end Stored

end ObjectHandleTable

end Mnu.Task
