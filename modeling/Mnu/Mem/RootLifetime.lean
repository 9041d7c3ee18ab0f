import Mnu.Lib.Run

/-!
# `Mnu.Mem.RootLifetime` — pins on page-table roots

Model of `root_lifetime.rs` and of the end of a page table in `destroy_user_page_table` (`src/mem/paging.rs`).
A registry `ROOTS` maps the address of a root to a weak reference to its `State`. `pin_with` finds or
registers the state and returns a strong reference; `retire` marks the state, and whoever drops the last
strong reference to a marked state destroys the table. If `retire` finds no live state it answers `false` and
its caller destroys the table at once.

Strong references are counted by holding them: `refs` lists the pins, owner `none`, and the references that a
running call has upgraded. They are dropped without the registry lock, so a drop can come between any two
steps of `pin_with`, also in the middle of its scan.

The address of a root is reused after the table is destroyed; `lifetime` tells the lives of one address apart.
The doc comment of `pin_with` asks its callers to own the table and to keep it from being retired during the
call: `acquiring` lists the calls that run, and `startPin` and `startRetire` respect it. An owner retires a
table once. The checks with which `destroy_user_page_table_inner` may refuse are left to the caller.
-/

namespace Mnu.Mem

open Mnu.Lib Function

namespace RootLifetime

/-- Where a party is. -/
inductive Pc where
  | idle
  /-- `pin_with` waits for the registry. -/
  | pinLock (table : Nat)
  /-- `retain` has looked at the first `index` entries. -/
  | scan (table index : Nat)
  | lookup (table : Nat)
  /-- No state could be upgraded. -/
  | absent (table : Nat)
  /-- A state was upgraded and the registry unlocked; `retired` is read next. -/
  | check (table id : Nat)
  /-- `retire` waits for the registry. -/
  | retireLock (table : Nat)
  | retireStore (table id : Nat)
  /-- An upgraded reference is dropped. -/
  | dropRef (table id : Nat)
  /-- `State::drop`: the strong count has reached zero. -/
  | final (table id : Nat)
  /-- `retire` has answered `false`. -/
  | destroy (table : Nat)
  deriving DecidableEq

/-- Whether the registry lock is held there. -/
def Pc.locked : Pc → Bool
  | .scan _ _ | .lookup _ | .absent _ | .retireStore _ _ => true
  | _ => false

/-- The state whose upgraded reference is held there. -/
def Pc.holds : Pc → Option Nat
  | .check _ id | .retireStore _ id | .dropRef _ id => some id
  | _ => none

instance lawfulBEq_pair : LawfulBEq (Nat × Nat) := inferInstance

/-- The registry, the references and the parties. -/
structure State (ι : Type) where
  /-- Whether the table has an owner. -/
  owned : Nat → Bool
  lifetime : Nat → Nat
  acquiring : List (ι × Nat)
  /-- The address and the lifetime each `State` was allocated for. -/
  root : Nat → Nat × Nat
  retired : Nat → Bool
  next : Nat
  /-- `ROOTS`. -/
  roots : List (Nat × Nat)
  lock : Option ι
  refs : List (Option ι × Nat)
  pc : ι → Pc
  /-- The roots whose owner has called `destroy_user_page_table`. -/
  retirements : List (Nat × Nat)
  destroyed : List (Nat × Nat)

/-- A call of a party, or its next step. -/
inductive Label (ι : Type) where
  | create (table : Nat)
  | startPin (a : ι) (table : Nat)
  | lockPin (a : ι)
  | scan (a : ι)
  | lookup (a : ι)
  /-- `granted` says whether the storage for the entry and the state was there. -/
  | register (a : ι) (granted : Bool)
  | check (a : ι)
  | clonePin (id : Nat)
  | dropPin (a : ι) (id : Nat)
  | startRetire (a : ι) (table : Nat)
  | retire (a : ι)
  | store (a : ι)
  | dropRef (a : ι)
  | final (a : ι)
  | destroy (a : ι)

namespace State

variable {ι : Type} [DecidableEq ι]

/-- `strong_count`. -/
def strong (s : State ι) (id : Nat) : Nat := s.refs.countP fun ref => ref.2 = id

/-- A party goes on. -/
def goto (s : State ι) (a : ι) (pc : Pc) : State ι := { s with pc := update s.pc a pc }

/-- One reference goes, and with the last one the destructor of the state runs. -/
def release (s : State ι) (a : ι) (table : Nat) (ref : Option ι × Nat) : State ι :=
  let s := { s with refs := s.refs.erase ref }
  s.goto a (if s.strong ref.2 = 0 then .final table ref.2 else .idle)

/-- The table of a root is destroyed. -/
def destroy (s : State ι) (table : Nat) : State ι :=
  { s with destroyed := (table, s.lifetime table) :: s.destroyed }

/-- One access to the registry or to a count. -/
def step (s : State ι) : Label ι → Option (State ι)
  | .create table =>
    if s.owned table = false ∧ (s.lifetime table = 0 ∨ (table, s.lifetime table) ∈ s.destroyed) then
      some { s with
        owned := update s.owned table true
        lifetime := update s.lifetime table (s.lifetime table + 1) }
    else none
  | .startPin a table =>
    if s.pc a = .idle ∧ s.owned table = true then
      if table = 0 ∨ table % 4096 ≠ 0 then some s
      else some ({ s with acquiring := (a, table) :: s.acquiring }.goto a (.pinLock table))
    else none
  | .lockPin a =>
    match s.pc a, s.lock with
    | .pinLock table, none => some ({ s with lock := some a }.goto a (.scan table 0))
    | _, _ => none
  | .scan a =>
    match s.pc a with
    | .scan table index =>
      match s.roots[index]? with
      | none => some (s.goto a (.lookup table))
      | some entry =>
        if s.strong entry.2 ≠ 0 then some (s.goto a (.scan table (index + 1)))
        else some { s with roots := s.roots.eraseIdx index }
    | _ => none
  | .lookup a =>
    match s.pc a with
    | .lookup table =>
      match s.roots.find? fun entry => entry.1 = table with
      | none => some (s.goto a (.absent table))
      | some entry =>
        if s.strong entry.2 ≠ 0 then
          some ({ s with refs := (some a, entry.2) :: s.refs, lock := none }.goto a (.check table entry.2))
        else some (s.goto a (.absent table))
    | _ => none
  | .register a granted =>
    match s.pc a with
    | .absent table =>
      let s := { s with lock := none, acquiring := s.acquiring.erase (a, table) }.goto a .idle
      if granted then
        some { s with
          root := update s.root s.next (table, s.lifetime table)
          retired := update s.retired s.next false
          next := s.next + 1
          roots := s.roots ++ [(table, s.next)]
          refs := (none, s.next) :: s.refs }
      else some s
    | _ => none
  | .check a =>
    match s.pc a with
    | .check table id =>
      if s.retired id then some (s.goto a (.dropRef table id))
      else some ({ s with
        refs := (none, id) :: s.refs.erase (some a, id)
        acquiring := s.acquiring.erase (a, table) }.goto a .idle)
    | _ => none
  | .clonePin id => if (none, id) ∈ s.refs then some { s with refs := (none, id) :: s.refs } else none
  | .dropPin a id =>
    if s.pc a = .idle ∧ (none, id) ∈ s.refs then some (s.release a (s.root id).1 (none, id)) else none
  | .startRetire a table =>
    if s.pc a = .idle ∧ s.owned table = true ∧ ∀ call ∈ s.acquiring, call.2 ≠ table then
      some ({ s with
        owned := update s.owned table false
        retirements := (table, s.lifetime table) :: s.retirements }.goto a (.retireLock table))
    else none
  | .retire a =>
    match s.pc a, s.lock with
    | .retireLock table, none =>
      match s.roots.find? fun entry => entry.1 = table with
      | none => some (s.goto a (.destroy table))
      | some entry =>
        if s.strong entry.2 ≠ 0 then
          some ({ s with refs := (some a, entry.2) :: s.refs, lock := some a }.goto a
            (.retireStore table entry.2))
        else some (s.goto a (.destroy table))
    | _, _ => none
  | .store a =>
    match s.pc a with
    | .retireStore table id =>
      some ({ s with retired := update s.retired id true, lock := none }.goto a (.dropRef table id))
    | _ => none
  | .dropRef a =>
    match s.pc a with
    | .dropRef table id =>
      some ({ s with acquiring := s.acquiring.erase (a, table) }.release a table (some a, id))
    | _ => none
  | .final a =>
    match s.pc a with
    | .final table id =>
      if s.retired id then some ((s.destroy table).goto a .idle) else some (s.goto a .idle)
    | _ => none
  | .destroy a =>
    match s.pc a with
    | .destroy table => some ((s.destroy table).goto a .idle)
    | _ => none

/-- No tables. -/
def initial : State ι where
  owned := fun _ => false
  lifetime := fun _ => 0
  acquiring := []
  root := fun _ => (0, 0)
  retired := fun _ => false
  next := 0
  roots := []
  lock := none
  refs := []
  pc := fun _ => .idle
  retirements := []
  destroyed := []

/-- **No last reference goes between the two looks of `pin_with`**: a drop of the last pin of a state does not
    come after a running `pin_with` for the same root has seen the state alive in its scan, and before it
    looks the state up. -/
def steady (s : State ι) : Label ι → Bool
  | .dropPin _ id =>
    s.strong id ≠ 1 || s.lock.all fun b =>
      match s.pc b with
      | .scan table index => (table, id) ∉ s.roots.take index
      | .lookup table => (table, id) ∉ s.roots
      | _ => true
  | _ => true

end State

/-- The parties that pin and retire roots. -/
def system (ι : Type) [DecidableEq ι] : System (State ι) (Label ι) where
  init s := s = State.initial
  step := State.step

end RootLifetime

end Mnu.Mem
