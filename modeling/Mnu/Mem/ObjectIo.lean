import Mathlib.Tactic

/-!
# `Mnu.Mem.ObjectIo` — admission to a backing object

Model of `src/mem/object_io.rs`. A gate admits one owner at a time to a provider's storage. Ordinary I/O
tries the lock; an intent queues for it, ahead of new ordinary I/O; an owner may reserve the backing
against page publication, or mark it unavailable for good.

Each function is the critical section on the gate's own lock, and hands back the registered waiters that
the caller wakes after leaving it.
-/

namespace Mnu.Mem

/-- Why there is no intent. -/
inductive IntentError where
  | unavailable
  | noMemory
  | exhausted
  | consumed
  deriving DecidableEq

/-- `State` with its `Admission`. Waiters are thread ids. -/
structure Gate where
  locked : Bool
  next : Nat
  waiting : List Nat
  waiters : List Nat
  reserved : Bool
  unavailable : Bool
  generation : Nat
  deriving DecidableEq

namespace Gate

/-- `State::new`. -/
def new : Gate := ⟨false, 0, [], [], false, false, 1⟩

/-- `generation.fetch_add(1)` wraps. -/
def advanceGeneration (g : Gate) : Gate := { g with generation := (g.generation + 1) % 2 ^ 64 }

/-- `IoLock::try_lock`: whether the lock was taken. -/
def tryLock (g : Gate) : Option (Gate × Bool) :=
  if g.unavailable then none
  else if g.locked || !g.waiting.isEmpty then some (g, false)
  else some ({ g with locked := true }, true)

/-- `IoLock::intent`: the ticket of the new queue position. -/
def intent (g : Gate) (room : Bool) : Except IntentError (Gate × Nat) :=
  if g.unavailable then .error .unavailable
  else if 2 ^ 64 ≤ g.next + 1 then .error .exhausted
  else if !room then .error .noMemory
  else .ok ({ g with waiting := g.waiting ++ [g.next], next := g.next + 1 }, g.next)

/-- `IoIntent::register_waiter` for a position that is not consumed. -/
def registerWaiter (g : Gate) (waiter maximum : Nat) (room : Bool) : Except IntentError Gate :=
  if waiter ∈ g.waiters then .ok g
  else if maximum ≤ g.waiters.length then .error .exhausted
  else if !room then .error .noMemory
  else .ok { g with waiters := g.waiters ++ [waiter] }

/-- `IoIntent::remove_waiter`. -/
def removeWaiter (g : Gate) (waiter : Nat) : Gate :=
  { g with waiters := g.waiters.filter fun entry => entry ≠ waiter }

/-- `IoIntent::try_acquire`: the position is consumed when it is first and the lock is free. -/
def tryAcquire (g : Gate) (ticket : Option Nat) : Except IntentError (Gate × Bool × List Nat) :=
  match ticket with
  | none => .error .consumed
  | some ticket =>
    if g.unavailable then .error .unavailable
    else if g.locked || g.waiting.head? != some ticket then .ok (g, false, [])
    else .ok ({ g with waiting := g.waiting.tail, locked := true, waiters := [] }, true, g.waiters)

/-- `IoIntent::drop`: a position that is not consumed is given up. -/
def dropIntent (g : Gate) (ticket : Option Nat) : Gate × List Nat :=
  match ticket with
  | none => (g, [])
  | some ticket => ({ g with waiting := g.waiting.erase ticket, waiters := [] }, g.waiters)

/-- `IoGuard::drop`. -/
def dropGuard (g : Gate) : Gate × List Nat := ({ g with locked := false, waiters := [] }, g.waiters)

/-- `IoGuard::reserve`. -/
def reserve (g : Gate) : Gate := { g with reserved := true }.advanceGeneration

/-- `Reservation::drop`, and then that of its guard. -/
def dropReservation (g : Gate) : Gate × List Nat := { g with reserved := false }.dropGuard

/-- `Reservation::mark_unavailable`. -/
def markUnavailable (g : Gate) : Gate × List Nat :=
  if g.unavailable then (g, [])
  else ({ g with unavailable := true, waiters := [] }.advanceGeneration, g.waiters)

end Gate

end Mnu.Mem
