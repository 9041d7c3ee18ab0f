import Mathlib.Tactic

/-!
# `Mnu.Task.HandleTable` — the object handles of a process

Model of `ObjectHandleTable` (`src/task/handle_table.rs`): the published entries, sorted by selector, and the
reservations whose entries are not published yet. The objects behind the entries are a parameter; who runs
their destructors, and under which locks, is for the caller to say, so every function that lets go of an
entry hands it back.

Storage for a new entry may be refused by the allocator: `room` says whether it was granted.
-/

namespace Mnu.Task

/-- `HandleRights`, a bit set. -/
structure HandleRights where
  bits : BitVec 64
  deriving DecidableEq

namespace HandleRights

/-- `READ`. -/
def read : HandleRights := ⟨1 <<< 0⟩
/-- `WRITE`. -/
def write : HandleRights := ⟨1 <<< 1⟩
/-- `WAIT`. -/
def wait : HandleRights := ⟨1 <<< 4⟩
/-- `CONTROL`. -/
def control : HandleRights := ⟨1 <<< 8⟩
/-- `DUPLICATE`. -/
def duplicate : HandleRights := ⟨1 <<< 62⟩
/-- `TRANSFER`. -/
def transfer : HandleRights := ⟨1 <<< 63⟩

/-- `contains`. -/
def contains (self required : HandleRights) : Bool := self.bits &&& required.bits = required.bits

/-- `union`. -/
def union (self other : HandleRights) : HandleRights := ⟨self.bits ||| other.bits⟩

end HandleRights

/-- An object, and what may be done with it. -/
structure ObjectHandleEntry (ω : Type) where
  object : ω
  rights : HandleRights

/-- `restricted`: the same object with fewer rights. -/
def ObjectHandleEntry.restricted {ω : Type} (entry : ObjectHandleEntry ω) (requested : HandleRights) :
    Option (ObjectHandleEntry ω) :=
  if entry.rights.contains requested then some { entry with rights := requested } else none

/-- A publication ticket. -/
structure HandleReservation where
  handle : Nat
  identity : Nat
  owner : Nat
  deriving DecidableEq

/-- `PROCESS_MAX_OBJECT_HANDLES`. -/
def processMaxObjectHandles : Nat := 4096

/-- Entries sorted by selector, and reservations. -/
structure ObjectHandleTable (ω : Type) where
  entries : List (Nat × ObjectHandleEntry ω)
  next : Nat
  pending : List (HandleReservation × ObjectHandleEntry ω)
  nextReservation : Nat

/-- `Vec::swap_remove`: the last element takes the place of the removed one. -/
def swapRemove {α : Type} (xs : List α) (index : Nat) : List α :=
  match xs.getLast? with
  | none => xs
  | some last => (xs.set index last).dropLast

namespace ObjectHandleTable

variable {ω : Type}

/-- `new`. -/
def new : ObjectHandleTable ω := ⟨[], 1, [], 1⟩

/-- `get`. -/
def get (t : ObjectHandleTable ω) (handle : Nat) : Option (ObjectHandleEntry ω) :=
  (t.entries.find? fun entry => entry.1 = handle).map Prod.snd

/-- `entries.insert(index, …)` at the place that keeps the selectors sorted. -/
def insertSorted (handle : Nat) (entry : ObjectHandleEntry ω) :
    List (Nat × ObjectHandleEntry ω) → List (Nat × ObjectHandleEntry ω)
  | [] => [(handle, entry)]
  | first :: rest =>
    if first.1 < handle then first :: insertSorted handle entry rest else (handle, entry) :: first :: rest

/-- `reserve_publication_storage`. -/
def reservePublicationStorage (t : ObjectHandleTable ω) (room : Bool) : Bool :=
  t.entries.length + t.pending.length < processMaxObjectHandles && room

/-- The loop of `free_selector`: the scan goes round from `next` for at most `fuel` selectors. -/
def freeSelectorFrom (t : ObjectHandleTable ω) : Nat → Nat → Nat × Option Nat
  | 0, next => (next, none)
  | fuel + 1, next =>
    let raw := max 1 (min next processMaxObjectHandles)
    let next := if raw = processMaxObjectHandles then 1 else raw + 1
    if (t.get raw).isNone && !t.pending.any fun reservation => reservation.1.handle = raw then
      (next, some raw)
    else t.freeSelectorFrom fuel next

/-- `free_selector`: the table with its cursor moved, and the selector found. -/
def freeSelector (t : ObjectHandleTable ω) : ObjectHandleTable ω × Option Nat :=
  let (next, found) := t.freeSelectorFrom processMaxObjectHandles t.next
  ({ t with next := next }, found)

/-- `insert`; `none` if there is no room, and then the entry is dropped where `insert` was called. -/
def insert (t : ObjectHandleTable ω) (entry : ObjectHandleEntry ω) (room : Bool) :
    ObjectHandleTable ω × Option Nat :=
  if !t.reservePublicationStorage room then (t, none)
  else
    match t.freeSelector with
    | (t, none) => (t, none)
    | (t, some handle) => ({ t with entries := insertSorted handle entry t.entries }, some handle)

/-- `reserve`; `none` hands the entry back to the caller. -/
def reserve (t : ObjectHandleTable ω) (owner : Nat) (entry : ObjectHandleEntry ω) (room : Bool) :
    ObjectHandleTable ω × Option HandleReservation :=
  if 2 ^ 64 ≤ t.nextReservation + 1 then (t, none)
  else if owner = 0 || !t.reservePublicationStorage room then (t, none)
  else
    match t.freeSelector with
    | (t, none) => (t, none)
    | (t, some handle) =>
      let ticket : HandleReservation := ⟨handle, t.nextReservation, owner⟩
      ({ t with nextReservation := t.nextReservation + 1, pending := t.pending ++ [(ticket, entry)] },
        some ticket)

/-- Take a pending reservation out, by `swap_remove`. -/
def takePending (t : ObjectHandleTable ω) (select : HandleReservation → Bool) :
    ObjectHandleTable ω × Option (ObjectHandleEntry ω) :=
  match t.pending.findIdx? fun reservation => select reservation.1 with
  | none => (t, none)
  | some index =>
    ({ t with pending := swapRemove t.pending index }, (t.pending[index]?).map Prod.snd)

/-- `publish_reserved`. -/
def publishReserved (t : ObjectHandleTable ω) (ticket : HandleReservation) : ObjectHandleTable ω × Bool :=
  if (t.get ticket.handle).isSome then (t, false)
  else
    match t.takePending fun candidate => candidate = ticket with
    | (t, none) => (t, false)
    | (t, some entry) => ({ t with entries := insertSorted ticket.handle entry t.entries }, true)

/-- `is_reserved`. -/
def isReserved (t : ObjectHandleTable ω) (ticket : HandleReservation) : Bool :=
  t.pending.any fun reservation => reservation.1 = ticket

/-- `cancel_reserved`. -/
def cancelReserved (t : ObjectHandleTable ω) (ticket : HandleReservation) :
    ObjectHandleTable ω × Option (ObjectHandleEntry ω) :=
  t.takePending fun candidate => candidate = ticket

/-- `take_reservation_for`. -/
def takeReservationFor (t : ObjectHandleTable ω) (owner : Nat) :
    ObjectHandleTable ω × Option (ObjectHandleEntry ω) :=
  t.takePending fun candidate => candidate.owner = owner

/-- `take_entry`; `close` is this with the entry dropped on the spot. -/
def takeEntry (t : ObjectHandleTable ω) (handle : Nat) : ObjectHandleTable ω × Option (ObjectHandleEntry ω) :=
  match t.get handle with
  | none => (t, none)
  | some entry => ({ t with entries := t.entries.eraseP fun entry => entry.1 = handle }, some entry)

/-- `insert_at`: a given selector, if neither an entry nor a reservation has it. -/
def insertAt (t : ObjectHandleTable ω) (handle : Nat) (entry : ObjectHandleEntry ω) (room : Bool) :
    ObjectHandleTable ω × Bool :=
  if processMaxObjectHandles < handle || t.pending.any fun reservation => reservation.1.handle = handle then
    (t, false)
  else if (t.get handle).isSome then (t, false)
  else if !t.reservePublicationStorage room then (t, false)
  else ({ t with entries := insertSorted handle entry t.entries }, true)

/-- `retain`: the table, and the entries that are dropped. -/
def retain (t : ObjectHandleTable ω) (keep : Nat → Bool) : ObjectHandleTable ω × List (ObjectHandleEntry ω) :=
  ({ t with entries := t.entries.filter fun entry => keep entry.1 },
    (t.entries.filter fun entry => !keep entry.1).map Prod.snd)

/-- The entry that `duplicate_restricted` inserts: a second reference to the source's object. -/
def duplicateEntry (t : ObjectHandleTable ω) (source : Nat) (requested : HandleRights) :
    Option (ObjectHandleEntry ω) :=
  (t.get source).bind fun entry =>
    if entry.rights.contains .duplicate then entry.restricted requested else none

/-- `export_restricted`: what a transfer hands to the receiver. -/
def exportRestricted (t : ObjectHandleTable ω) (source : Nat) (requested : HandleRights) :
    Option (ObjectHandleEntry ω) :=
  (t.get source).bind fun entry =>
    if entry.rights.contains .transfer then entry.restricted requested else none

end ObjectHandleTable

/-- What a snapshot keeps of a handle. -/
structure CapturedHandle (ω : Type) where
  handle : Nat
  rights : HandleRights
  /-- The reference, if it may be transferred. -/
  exportable : Option (ObjectHandleEntry ω)

/-- `HandleSnapshot::capture`: a handle without `TRANSFER` contributes metadata only. -/
def HandleSnapshot.capture {ω : Type} (t : ObjectHandleTable ω) : List (CapturedHandle ω) :=
  t.entries.map fun (handle, entry) =>
    ⟨handle, entry.rights, if entry.rights.contains .transfer then some entry else none⟩

end Mnu.Task
