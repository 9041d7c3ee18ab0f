import Mnu.Lib.Run
import Mnu.Mem.SharedPages

/-!
# `Mnu.Mem.Writeback` — writing dirty shared pages back to their provider

Model of the page cache of one provider object (`vm_object.rs`), as far as mapped pages and their writeback
go. A page of the cache has a frame that several leaves may map. A store through a writable leaf changes the
frame and nothing else: no version is counted and no lock is taken. So a page that has a writable leaf must
stay dirty, and `flush_provider_range` leaves a page dirty as long as its frame has an owner beside the cache.

A flush holds the I/O gate of the object, so there is at most one. It copies the dirty pages under the cache
lock, gives the copies to the provider and has the provider sync them without it, and takes the lock again to
publish the pages as clean. Between any two of its steps other threads may store, fault, unmap and drop
references.

`Ledger` records, for each byte of a page, whether a store to it is still owed to the provider; no operation
reads it. Which provider call, allocation or table edit fails is part of the label.
-/

namespace Mnu.Mem.Writeback

open Mnu.Lib Function

/-! ## Pages -/

/-- `CachedPage`, for a page that has a frame. `frame` holds the bytes of that frame, which every leaf sees.
    -/
structure CachedPage where
  frame : Nat → UInt8
  validLen : Nat
  dirtyRange : Option (Nat × Nat)
  writer : Option Nat
  version : BitVec 64

/-- The owners of a frame beside the cache. -/
structure Owners where
  /-- `PreparedSharedPage`s, and leaves that are revoked but not yet released. -/
  pins : Nat
  readOnly : Nat
  /-- Leaves that are still read-only, under a write fault that has marked the page. -/
  faulting : Nat
  writable : Nat

/-- All references beside the cache's. -/
def Owners.count (o : Owners) : Nat := o.pins + o.readOnly + o.faulting + o.writable

/-- What has happened to the bytes of a page. -/
structure Ledger where
  stored : Nat → Bool
  /-- No write of the provider has been given the byte as the last store left it. -/
  unsaved : Nat → Bool
  /-- The byte as the last successful write of the provider was given it. -/
  passed : Nat → Option UInt8
  /-- The bytes stored to since the page was last copied by a flush. -/
  stale : List Nat

/-- A page with its references and its history. -/
structure Page where
  entry : CachedPage
  owners : Owners
  ledger : Ledger

/-- A snapshot that `flush_provider_range` has taken. -/
structure Snapshot where
  page : Nat
  bytes : Nat → UInt8
  dirtyStart : Nat
  dirtyEnd : Nat
  version : BitVec 64
  writer : Nat

/-- The part of `mark_page_dirty` that edits the entry. -/
def CachedPage.markPageDirty (entry : CachedPage) (writer : Nat) : CachedPage :=
  if entry.validLen ≠ 0 then
    { entry with dirtyRange := some (0, entry.validLen), writer := some writer, version := entry.version + 1 }
  else { entry with version := entry.version + 1 }

/-- The body of the loop of `flush_provider_range` that takes the snapshots. -/
def CachedPage.snapshot (entry : CachedPage) (page : Nat) : Except NativeError (Option Snapshot) :=
  match entry.dirtyRange with
  | none => .ok none
  | some (dirtyStart, dirtyEnd) =>
    if dirtyEnd < dirtyStart ∨ pageBytes < dirtyEnd then .error .backingFailure
    else
      match entry.writer with
      | none => .error .backingFailure
      | some writer => .ok (some ⟨page, entry.frame, dirtyStart, dirtyEnd, entry.version, writer⟩)

/-- The body of the loop of `flush_provider_range` that publishes clean pages. -/
def Page.publish (page : Page) (version : BitVec 64) : Page :=
  if page.entry.version = version ∧ page.owners.count = 0 then
    { page with entry := { page.entry with dirtyRange := none, writer := none } }
  else page

/-- A store through a writable mapping. -/
def Page.store (page : Page) (offset : Nat) (value : UInt8) : Page :=
  { page with
    entry := { page.entry with frame := update page.entry.frame offset value }
    ledger := { page.ledger with
      stored := update page.ledger.stored offset true
      unsaved := update page.ledger.unsaved offset true
      stale := offset :: page.ledger.stale } }

/-- The provider has accepted the snapshot. -/
def Ledger.pass (ledger : Ledger) (x : Snapshot) : Ledger :=
  { ledger with
    unsaved := fun i =>
      if x.dirtyStart ≤ i ∧ i < x.dirtyEnd ∧ i ∉ ledger.stale then false else ledger.unsaved i
    passed := fun i => if x.dirtyStart ≤ i ∧ i < x.dirtyEnd then some (x.bytes i) else ledger.passed i }

/-! ## Flushes and steps -/

/-- Where the flush that holds the gate is. -/
inductive Flush where
  | idle
  /-- Under the cache lock, with the entries still to be looked at. -/
  | collecting (taken : List Snapshot) (rest : List Nat)
  | writing (done rest : List Snapshot)
  /-- Under the cache lock again. -/
  | publishing (rest : List Snapshot)

/-- The snapshots whose pages are not published yet. -/
def Flush.held : Flush → List Snapshot
  | .idle => []
  | .collecting taken _ => taken
  | .writing done rest => done ++ rest
  | .publishing rest => rest

/-- Those of them that the provider has accepted. -/
def Flush.written : Flush → List Snapshot
  | .idle | .collecting _ _ => []
  | .writing done _ => done
  | .publishing rest => rest

/-- Whether the flush has the lock of the cache. -/
def Flush.cacheLocked : Flush → Bool
  | .collecting _ _ | .publishing _ => true
  | .idle | .writing _ _ => false

/-- The cache and its flush. -/
structure State where
  /-- The pages that have an entry, in the order of `PAGE_CACHE`. -/
  resident : List Nat
  pages : Nat → Page
  flush : Flush

/-- A page written back to the state. -/
def State.setPage (s : State) (p : Nat) (page : Page) : State := { s with pages := update s.pages p page }

/-- A step of an owner of a page, or of the flush. -/
inductive Label where
  /-- `prepare_shared_page` retains the frame. -/
  | prepare (p : Nat)
  /-- `map_to` installs a read-only leaf, which retains the frame once more. -/
  | mapTo (p : Nat)
  /-- A write fault calls `mark_page_dirty`. -/
  | markDirty (p writer : Nat)
  /-- It then makes the leaf writable, unless that fails. -/
  | protect (p : Nat) (ok : Bool)
  | store (p offset : Nat) (value : UInt8)
  /-- An unmapping clears the leaf on every processor. -/
  | revoke (p : Nat) (writable : Bool)
  /-- `release_user_frame`, for a revoked leaf or a prepared page. -/
  | release (p : Nat)
  /-- `flush_range` or `flush_unmapped_range` has the gate and the cache lock. -/
  | flushRange (offset rangeEnd : Nat)
  | collect (ok : Bool)
  /-- `provider_write_at` for the next snapshot: how much it wrote, if it did not fail. -/
  | writeAt (written : Option Nat)
  /-- `provider_sync` for the writers. -/
  | sync (ok : Bool)
  | publish

/-- The page whose owners or bytes a step changes on its own. -/
def Label.target : Label → Option Nat
  | .prepare p | .mapTo p | .markDirty p _ | .protect p _ | .store p _ _ | .revoke p _ | .release p => some p
  | .flushRange _ _ | .collect _ | .writeAt _ | .sync _ | .publish => none

/-- Whether an entry of page `p` is in the range of a flush. -/
def inRange (offset rangeEnd p : Nat) : Bool := p * pageBytes < rangeEnd && offset < (p + 1) * pageBytes

/-- The next page of the first loop; `ok` says whether its copy is made. -/
def collectStep (s : State) (ok : Bool) (taken : List Snapshot) : List Nat → State
  | [] => { s with flush := .writing [] taken }
  | p :: rest =>
    match (s.pages p).entry.snapshot p with
    | .error _ => { s with flush := .idle }
    | .ok none => { s with flush := .collecting taken rest }
    | .ok (some x) =>
      if ok then
        { s.setPage p { s.pages p with ledger := { (s.pages p).ledger with stale := [] } } with
          flush := .collecting (taken ++ [x]) rest }
      else { s with flush := .idle }

/-- The next write of the second loop, and how much of it was written. -/
def writeStep (s : State) (done : List Snapshot) (x : Snapshot) (rest : List Snapshot)
    (written : Option Nat) : State :=
  if written = some (x.dirtyEnd - x.dirtyStart) then
    { s.setPage x.page { s.pages x.page with ledger := (s.pages x.page).ledger.pass x } with
      flush := .writing (done ++ [x]) rest }
  else { s with flush := .idle }

/-- The steps of owners and of stores: what becomes of the page. -/
def pageStep (page : Page) (cacheLocked : Bool) : Label → Option Page
  | .prepare _ =>
    if cacheLocked then none
    else some { page with owners := { page.owners with pins := page.owners.pins + 1 } }
  | .mapTo _ =>
    if cacheLocked ∨ page.owners.pins = 0 then none
    else some { page with owners := { page.owners with readOnly := page.owners.readOnly + 1 } }
  | .markDirty _ writer =>
    if cacheLocked ∨ page.owners.readOnly = 0 then none
    else some { page with
      entry := page.entry.markPageDirty writer
      owners := { page.owners with
        readOnly := page.owners.readOnly - 1, faulting := page.owners.faulting + 1 } }
  | .protect _ ok =>
    if page.owners.faulting = 0 then none
    else if ok then
      some { page with owners := { page.owners with
        faulting := page.owners.faulting - 1, writable := page.owners.writable + 1 } }
    else
      some { page with owners := { page.owners with
        faulting := page.owners.faulting - 1, readOnly := page.owners.readOnly + 1 } }
  | .store _ offset value =>
    if page.owners.writable = 0 ∨ pageBytes ≤ offset then none else some (page.store offset value)
  | .revoke _ true =>
    if page.owners.writable = 0 then none
    else some { page with owners := { page.owners with
      writable := page.owners.writable - 1, pins := page.owners.pins + 1 } }
  | .revoke _ false =>
    if page.owners.readOnly = 0 then none
    else some { page with owners := { page.owners with
      readOnly := page.owners.readOnly - 1, pins := page.owners.pins + 1 } }
  | .release _ =>
    if page.owners.pins = 0 then none
    else some { page with owners := { page.owners with pins := page.owners.pins - 1 } }
  | _ => none

/-- The step of the page `p`. -/
def onPage (s : State) (p : Nat) (l : Label) : Option State :=
  if p ∈ s.resident then (pageStep (s.pages p) s.flush.cacheLocked l).map (s.setPage p) else none

/-- Owners act on their page, and the flush takes one page after the other. -/
def step (s : State) (l : Label) : Option State :=
  match l with
  | .prepare p | .mapTo p | .markDirty p _ | .protect p _ | .store p _ _ | .revoke p _ | .release p =>
    onPage s p l
  | .flushRange offset rangeEnd =>
    match s.flush with
    | .idle => some { s with flush := .collecting [] (s.resident.filter (inRange offset rangeEnd)) }
    | _ => none
  | .collect ok =>
    match s.flush with
    | .collecting taken rest => some (collectStep s ok taken rest)
    | _ => none
  | .writeAt written =>
    match s.flush with
    | .writing done (x :: rest) => some (writeStep s done x rest written)
    | _ => none
  | .sync ok =>
    match s.flush with
    | .writing done [] => some { s with flush := if ok then .publishing done else .idle }
    | _ => none
  | .publish =>
    match s.flush with
    | .publishing (x :: rest) =>
      some { s.setPage x.page ((s.pages x.page).publish x.version) with flush := .publishing rest }
    | .publishing [] => some { s with flush := .idle }
    | _ => none

/-- A page as it is loaded: clean, with no owner but the cache. -/
def Page.loaded (frame : Nat → UInt8) (validLen : Nat) : Page :=
  ⟨⟨frame, validLen, none, none, 0⟩, ⟨0, 0, 0, 0⟩, ⟨fun _ => false, fun _ => false, fun _ => none, []⟩⟩

/-- The cache as a system. -/
def system : System State Label where
  init s := s.resident.Nodup ∧ s.flush = .idle ∧ ∀ p, ∃ frame validLen, s.pages p = .loaded frame validLen
  step := step

/-! ## The condition

Stores stay below `valid_len`. And the last reference to a page beside the cache's is not given up while a
flush holds a copy of the page that lacks a later store: the flush would then take the page for its own
copy. -/

/-- The condition on stores and releases. -/
def Calm (s : State) : Label → Prop
  | .store p offset _ => offset < (s.pages p).entry.validLen
  | .release p =>
    (s.pages p).ledger.stale = [] ∨ (∀ x ∈ s.flush.held, x.page ≠ p) ∨ 1 < (s.pages p).owners.count
  | _ => True

instance (s : State) : (l : Label) → Decidable (Calm s l)
  | .store p offset _ => inferInstanceAs (Decidable (offset < (s.pages p).entry.validLen))
  | .release p =>
    inferInstanceAs (Decidable ((s.pages p).ledger.stale = [] ∨ (∀ x ∈ s.flush.held, x.page ≠ p) ∨
      1 < (s.pages p).owners.count))
  | .prepare _ | .mapTo _ | .markDirty _ _ | .protect _ _ | .revoke _ _ | .flushRange _ _
  | .collect _ | .writeAt _
  | .sync _ | .publish => inferInstanceAs (Decidable True)

end Mnu.Mem.Writeback
