import Mnu.Lib.Run
import Mnu.Mem.Pte
import Mnu.Mem.SharedPages

/-!
# `Mnu.Mem.ExtentTransaction` — resizing under live mappings

Model of `extent_transaction.rs`, with the page records of `paging/suspension.rs` and the captured spans of
`mapping_targets.rs`. To resize the backing of mapped memory the kernel suspends the mapped pages: it clears
the present bit of each entry and keeps a record of the original. When the outcome is known, every record is
resolved, by restoring the entry or by releasing the frame. The transaction may fail at any point, and its
owner may drop it at any point. It then waits in a queue, and `flush` goes on with it until every record is
resolved.

What the outcome is depends on `Publication`. A transaction that is only prepared is cancelled. One whose
storage may have changed (`inFlight`) can be confirmed unchanged, be published, or, if its owner is lost,
becomes unavailable.

Which backend operations fail is passed in. The mapped pages are entries of a table that anyone may edit at
any time (`Label.edit`): the code checks an entry before it touches it. `Ledger` and the four marks of a state
record what has happened, and no operation reads them.
-/

namespace Mnu.Mem.Extent

open Mnu.Lib Pte Function

/-! ## Entries and records -/

/-- A root and an address. -/
abbrev Location := Nat × Nat

/-- The leaf entries. There is none where no leaf table is. -/
abbrev Table := Location → Option Entry

/-- `RecordedUserPage`. -/
structure Record where
  location : Location
  original : Entry
  deriving DecidableEq

/-- `suspend_user_page`, for a location that passes its checks. -/
def suspendUserPage (table : Table) (location : Location) : Option (Record × Table) :=
  match table location with
  | none => none
  | some entry =>
    if entry = .unused ∨ entry.flags &&& userAccessible = 0 then none
    else
      some (⟨location, entry⟩,
        update table location (some { entry with flags := entry.flags &&& ~~~present }))

/-- `RecordedUserPage::matches`. -/
def Record.matchesEntry (r : Record) (current : Entry) : Bool :=
  current.addr = r.original.addr &&
    current.flags &&& ~~~accessedDirty = r.original.flags &&& ~~~(accessedDirty ||| present)

/-- `is_current`. -/
def Record.isCurrent (r : Record) (table : Table) : Bool := (table r.location).any r.matchesEntry

/-- The entry that `try_restore` writes over `current`. -/
def Record.restoredEntry (r : Record) (current : Entry) : Entry :=
  ⟨r.original.addr, r.original.flags ||| (current.flags &&& accessedDirty)⟩

/-- `try_edit`. -/
def Record.tryEdit (r : Record) (table : Table) (edit : Entry → Entry) : Option (Entry × Table) :=
  match table r.location with
  | none => none
  | some current =>
    if r.matchesEntry current then
      some (edit current, update table r.location (some (edit current)))
    else none

/-! ## The spans of the selected mappings -/

/-- Pages of one root. -/
structure Span where
  root : Nat
  low : Nat
  high : Nat
  deriving DecidableEq

/-- The order of the tuples that `capture` sorts. -/
def Span.Le (a b : Span) : Prop :=
  a.root < b.root ∨ (a.root = b.root ∧ (a.low < b.low ∨ (a.low = b.low ∧ a.high ≤ b.high)))

instance : DecidableRel Span.Le := fun a b => by
  unfold Span.Le
  infer_instance

/-- Two neighbours of one root overlap. -/
def ambiguous : List Span → Bool
  | a :: b :: rest => (a.root == b.root && decide (b.low < a.high)) || ambiguous (b :: rest)
  | _ => false

/-- The end of `capture_filtered`. A mapping without overlap adds no span. -/
def capture (spans : List Span) : Option (List Span) :=
  let sorted := (spans.filter fun span => span.low < span.high).insertionSort Span.Le
  if ambiguous sorted then none else some sorted

/-- `Targets::contains`. -/
def contains (spans : List Span) (root start stop : Nat) : Bool :=
  start < stop && spans.any fun span => span.root = root && span.low ≤ start && stop ≤ span.high

/-- The loop over one range. The walk may fail, or find the next leaf, or none. -/
def collect (walk : Nat → Nat → Nat → Option (Option Nat)) (root stop : Nat) : Nat → Nat → Option (List Nat)
  | 0, _ => some []
  | fuel + 1, cursor =>
    if stop ≤ cursor then some []
    else
      match walk root cursor stop with
      | none => none
      | some none => some []
      | some (some address) =>
        if address < cursor ∨ stop ≤ address ∨ address % 4096 ≠ 0 then none
        else (collect walk root stop fuel (address + 4096)).map (address :: ·)

/-- The loop over the ranges. -/
def locations (walk : Nat → Nat → Nat → Option (Option Nat)) : List Span → Option (List Location)
  | [] => some []
  | span :: rest => do
      let addresses ← collect walk span.root span.high (span.high - span.low) span.low
      let others ← locations walk rest
      return addresses.map (fun address => (span.root, address)) ++ others

/-! ## The work of a transaction -/

/-- A suspended page, and the part of it to clear. -/
structure Page where
  record : Record
  zero : Option (Nat × Nat)
  affected : Bool

/-- How far the publication is. -/
inductive Publication where
  | prepared
  | inFlight
  | unchanged
  | unavailable
  | requested
  | published
  deriving DecidableEq

/-- `PreservedPage`. -/
structure Preserved where
  location : Location
  zeroFrom : Nat

/-- `Work`. The page that was pushed last comes first. -/
structure Work where
  pages : List Page
  spans : List Span
  preserved : List Preserved
  isRefresh : Bool
  publication : Publication
  isExternal : Bool

/-- An entry that was restored: by which page, to what, and whether its suffix was cleared before. -/
structure Restoration where
  page : Page
  entry : Entry
  zeroed : Bool

/-- The table, and what has become of the pages. -/
structure Ledger where
  table : Table
  restored : List Restoration
  released : List Page

/-- `Work::current`. -/
def current (spans : List Span) (table : Table) (page : Page) : Bool :=
  let (root, address) := page.record.location
  contains spans root address (address + 4096) && page.record.isCurrent table

/-- The loop of `resolve`. -/
def resolvePages (spans : List Span) (publication : Publication) :
    List Page → Ledger → List Page × Ledger × Bool
  | [], ledger => ([], ledger, true)
  | page :: pages, ledger =>
    if !current spans ledger.table page then (page :: pages, ledger, false)
    else if publication ≠ .unavailable ∧
      (publication ≠ .published ∨ page.affected = false ∨ page.zero.isSome) then
      match page.record.tryEdit ledger.table page.record.restoredEntry with
      | none => (page :: pages, ledger, false)
      | some (entry, table) =>
        let zeroed := decide (publication = .published) && page.zero.isSome
        resolvePages spans publication pages
          { ledger with table := table, restored := ⟨page, entry, zeroed⟩ :: ledger.restored }
    else
      match page.record.tryEdit ledger.table (fun _ => .unused) with
      | none => (page :: pages, ledger, false)
      | some (_, table) =>
        resolvePages spans publication pages
          { ledger with table := table, released := page :: ledger.released }

namespace Work

/-- `resolve`. -/
def resolve (w : Work) (ledger : Ledger) : Work × Ledger × Except NativeError Unit :=
  match w.publication with
  | .inFlight | .requested => (w, ledger, .error .notReady)
  | _ =>
    match resolvePages w.spans w.publication w.pages ledger with
    | (pages, ledger, true) => ({ w with pages := pages }, ledger, .ok ())
    | (pages, ledger, false) => ({ w with pages := pages }, ledger, .error .backingFailure)

/-- `publish_cache`. -/
def publishCache (w : Work) (table : Table) (publish : Except NativeError Unit) :
    Work × Except NativeError Unit :=
  if w.publication = .published then (w, .ok ())
  else if !w.pages.all (current w.spans table) then (w, .error .backingFailure)
  else
    match publish with
    | .error error => (w, .error error)
    | .ok () => ({ w with publication := .published }, .ok ())

/-- `publish_cache` and then `resolve`. -/
def publishAndResolve (w : Work) (ledger : Ledger) (publish : Except NativeError Unit) :
    Work × Ledger × Except NativeError Unit :=
  match w.publishCache ledger.table publish with
  | (w, .error error) => (w, ledger, .error error)
  | (w, .ok ()) => w.resolve ledger

/-- `progress`. Only an extent can be marked unavailable. -/
def progress (w : Work) (ledger : Ledger) (publish : Except NativeError Unit) :
    Work × Ledger × Except NativeError Unit :=
  match w.publication with
  | .inFlight =>
    if w.isRefresh then (w, ledger, .error .invalidArgument)
    else { w with publication := .unavailable }.resolve ledger
  | .prepared | .unchanged | .unavailable => w.resolve ledger
  | .requested | .published => w.publishAndResolve ledger publish

/-- `finish`, up to the release of the owner. -/
def finish (w : Work) (ledger : Ledger) (request : Bool) (publish : Except NativeError Unit) :
    Work × Ledger × Except NativeError Unit :=
  if request && w.isRefresh then (w, ledger, .error .invalidArgument)
  else if w.publication = .unchanged then (w, ledger, .error .invalidArgument)
  else if w.publication = .inFlight ∧ request = false then (w, ledger, .error .invalidArgument)
  else if w.publication = .unavailable then (w, ledger, .error .backingFailure)
  else if request = true ∧ (w.publication = .prepared ∨ w.publication = .inFlight) then
    { w with publication := .requested }.publishAndResolve ledger publish
  else w.publishAndResolve ledger publish

end Work

/-! ## The transaction and its owner -/

/-- Who has the work: the preparation, the owner, the queue, or nobody any more. -/
inductive Holder where
  | nobody
  | preparing
  | owner
  | queue
  | completed
  deriving DecidableEq

/-- The table, the work, and who has it. -/
structure State where
  holder : Holder
  work : Work
  todo : List (Location × Bool)
  ledger : Ledger
  /-- Every page that was ever suspended. -/
  recorded : List Record
  begun : Bool
  confirmed : Bool
  requested : Bool
  lost : Bool

/-- A step of the transaction, or of others on the table. -/
inductive Label where
  /-- The start of `prepare_backing`, up to the point where the work exists. -/
  | prepare (spans affected : List Span) (preserved : List Preserved) (isExternal isRefresh : Bool)
      (walk : Nat → Nat → Nat → Option (Option Nat))
  /-- One round of its loop over the locations. -/
  | suspend (failed : Bool) (suffix : Option (Nat × Nat))
  /-- The end of `prepare_backing`. -/
  | prepared (acknowledged preflight : Bool)
  | beginExternal (preflight : Bool)
  | confirmUnchanged
  | publishLocal (publish : Except NativeError Unit)
  | requestPublication (publish : Except NativeError Unit)
  | requestExternalPublication (publish : Except NativeError Unit)
  | drop
  /-- `flush`, with the mapping table free or busy. -/
  | flush (busy : Bool) (publish : Except NativeError Unit)
  /-- Anyone else edits an entry, hardware included. -/
  | edit (location : Location) (entry : Option Entry)

/-- The state after an operation on the work. `next` is who has it then. -/
def State.settle (s : State) (w : Work) (ledger : Ledger) (next : Holder) : State :=
  { s with
    holder := next
    work := w
    ledger := ledger
    begun := s.begun || w.publication = .inFlight
    confirmed := s.confirmed || w.publication = .unchanged
    requested := s.requested || w.publication = .requested || w.publication = .published
    lost := s.lost || w.publication = .unavailable }

/-- After an operation of the owner. A success releases the owner, and an error leaves it. -/
def State.owned (s : State) (r : Work × Ledger × Except NativeError Unit) : State :=
  match r with
  | (w, ledger, .ok ()) => s.settle w ledger .completed
  | (w, ledger, .error _) => s.settle w ledger .owner

/-- After a pass of `flush`. -/
def State.flushed (s : State) (r : Work × Ledger × Except NativeError Unit) : State :=
  match r with
  | (w, ledger, .ok ()) => s.settle w ledger .completed
  | (w, ledger, .error _) => s.settle w ledger .queue

/-- `prepare_backing`, up to its loop. -/
def State.prepare (s : State) (spans affected : List Span) (preserved : List Preserved)
    (isExternal isRefresh : Bool) (walk : Nat → Nat → Nat → Option (Option Nat)) : State :=
  match capture spans, capture affected with
  | some spans, some affected =>
    match locations walk spans with
    | none => s
    | some found =>
      { s with
        holder := .preparing
        work := ⟨[], spans, preserved, isRefresh, .prepared, isExternal⟩
        todo := found.map fun (root, address) =>
          ((root, address), !isExternal || contains affected root address (address + 4096)) }
  | _, _ => s

/-- One location. The record is in the work before anything else can fail. -/
def State.suspend (s : State) (location : Location) (affected : Bool) (rest : List (Location × Bool))
    (failed : Bool) (suffix : Option (Nat × Nat)) : State :=
  if failed then { s with holder := .queue }
  else
    match suspendUserPage s.ledger.table location with
    | none => { s with todo := rest }
    | some (record, table) =>
      let boundary := affected && s.work.preserved.any fun p => p.location == location
      let page : Page := ⟨record, if boundary then suffix else none, affected⟩
      { s with
        holder := if boundary && suffix.isNone then .queue else .preparing
        work := { s.work with pages := page :: s.work.pages }
        todo := rest
        ledger := { s.ledger with table := table }
        recorded := record :: s.recorded }

/-- What each step does, and whose it is. -/
def step (s : State) : Label → Option State
  | .prepare spans affected preserved isExternal isRefresh walk =>
    if s.holder = .nobody ∧ !(isExternal && isRefresh) then
      some (s.prepare spans affected preserved isExternal isRefresh walk)
    else none
  | .suspend failed suffix =>
    match s.holder, s.todo with
    | .preparing, (location, affected) :: rest => some (s.suspend location affected rest failed suffix)
    | _, _ => none
  | .prepared acknowledged preflight =>
    if s.holder = .preparing ∧ s.todo = [] then
      if (!s.work.pages.isEmpty && !acknowledged) || !preflight then some { s with holder := .queue }
      else some { s with holder := .owner }
    else none
  | .beginExternal preflight =>
    if s.holder = .owner then
      if s.work.isExternal = false ∨ s.work.publication ≠ .prepared then some s
      else if !s.work.pages.all (current s.work.spans s.ledger.table) then some s
      else if !preflight then some s
      else some (s.settle { s.work with publication := .inFlight } s.ledger .owner)
    else none
  | .confirmUnchanged =>
    if s.holder = .owner then
      if s.work.publication = .inFlight ∨ s.work.publication = .unchanged then
        some (s.owned ({ s.work with publication := .unchanged }.resolve s.ledger))
      else some s
    else none
  | .publishLocal publish =>
    if s.holder = .owner then some (s.owned (s.work.finish s.ledger false publish)) else none
  | .requestPublication publish =>
    if s.holder = .owner then some (s.owned (s.work.finish s.ledger true publish)) else none
  | .requestExternalPublication publish =>
    if s.holder = .owner then
      if s.work.isExternal = true ∧ (s.work.publication = .inFlight ∨ s.work.publication = .requested ∨
          s.work.publication = .published) then
        some (s.owned (s.work.finish s.ledger true publish))
      else some s
    else none
  | .drop => if s.holder = .owner then some { s with holder := .queue } else none
  | .flush busy publish =>
    if s.holder = .queue then
      if busy then some s else some (s.flushed (s.work.progress s.ledger publish))
    else none
  | .edit location entry =>
    some { s with ledger := { s.ledger with table := update s.ledger.table location entry } }

/-- Before the transaction, over any table. -/
def State.start (table : Table) : State where
  holder := .nobody
  work := ⟨[], [], [], false, .prepared, false⟩
  todo := []
  ledger := ⟨table, [], []⟩
  recorded := []
  begun := false
  confirmed := false
  requested := false
  lost := false

/-- The transaction as a system. -/
def system : System State Label where
  init s := ∃ table, s = .start table
  step := step

end Mnu.Mem.Extent
