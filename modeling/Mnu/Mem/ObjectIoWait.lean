import Mnu.Mem.ObjectIo
import Mnu.Task.SleepWatch

/-!
# `Mnu.Mem.ObjectIoWait` — threads at one I/O gate

The gate of `Mnu.Mem.ObjectIo` with everything that lives around it: the intents that were created and not yet
dropped, the guards and reservations that hold the lock, and the threads that use them, over the sleep
protocol of `Mnu.Task.Sleep`. Intents, guards and reservations are values that may be handed from thread to
thread, so any thread may call any operation on any of them; an operation takes its value exclusively.

A step is one critical section of the gate's lock or one access to an atomic flag. `try_lock` looks at
`unavailable`, enters, and looks again with a guard that is dropped if the lock is marked by then;
`mark_unavailable` sets the flag and then notifies; a dropped reservation clears `reserved` and then releases
its guard. The waiters that an operation takes out of the gate are woken after it, one by one.

A thread that waits for an intent (`wait_many`) does what `IoIntent::ready` asks for: it takes its
registration back, looks, registers, looks again, and sleeps. Then it starts over. It gets at the intent
through `ProviderAdmission`, which has a spin lock of its own around the intent: registering and taking the
registration back wait for that lock, but a look (`signals`) only tries it, and answers that nothing is ready
while another thread has it. The lock is held within one step, so such a look (`busy`) happens while the next
step of another running thread is one on the same intent.
-/

namespace Mnu.Mem

namespace Gate

/-- The critical section of `IoLock::try_lock`: whether a guard was made. -/
def enter (g : Gate) : Gate × Bool :=
  if g.locked || !g.waiting.isEmpty then (g, false) else ({ g with locked := true }, true)

/-- `IoIntent::ready`. -/
def ready (g : Gate) (ticket : Option Nat) : Except IntentError Bool :=
  match ticket with
  | none => .error .consumed
  | some ticket =>
    if g.unavailable then .error .unavailable else .ok (!g.locked && g.waiting.head? == some ticket)

/-- `State::notify`. -/
def notify (g : Gate) : Gate × List Nat := ({ g with waiters := [] }, g.waiters)

/-- `mark_unavailable` up to its notification. -/
def latchUnavailable (g : Gate) : Gate := { g with unavailable := true }.advanceGeneration

/-- The two halves of `mark_unavailable`. -/
theorem markUnavailable_eq (g : Gate) (h : g.unavailable = false) :
    g.markUnavailable = g.latchUnavailable.notify := by
  simp [markUnavailable, h, latchUnavailable, notify, advanceGeneration]

/-- `try_lock` without interruption. -/
theorem tryLock_eq (g : Gate) : g.tryLock = if g.unavailable then none else some g.enter := by
  unfold tryLock enter
  split
  · rfl
  · split <;> rfl

end Gate

namespace ObjectIo

open Mnu.Lib Mnu.Task

/-- An `IoIntent` that has not been dropped. Names are given in the order of creation. -/
structure Intent where
  name : Nat
  ticket : Option Nat
  deriving DecidableEq, Repr

/-- What holds the lock. -/
inductive Holder where
  /-- The guard that a thread has made in `try_lock` and not yet returned. -/
  | trial (thread : ThreadId)
  | guard (name : Nat)
  | reservation (name : Nat)
  /-- The guard inside a reservation that a thread is dropping. -/
  | dropping (thread : ThreadId)
  deriving DecidableEq, Repr

/-- Where a thread is: the step that comes next. -/
inductive Prog where
  | user
  | tryEnter
  | tryCheck (held : Bool)
  | unlock
  | notify
  | waking (rest : List ThreadId)
  | clear (name : Nat)
  | look (name : Nat)
  | register (name : Nat)
  | recheck (name : Nat)
  | calling (name : Nat)
  /-- In `sleep_thread_unless_woken`. -/
  | sleeping (name : Nat)
  /-- In the `yield_now` after it, until the thread is selected again. -/
  | yielded (name : Nat)
  deriving DecidableEq, Repr

/-- Places of a wait. -/
def Prog.waits : Prog → Bool
  | .recheck _ => true
  | .calling _ => true
  | .sleeping _ => true
  | .yielded _ => true
  | _ => false

/-- The intent for which a thread sleeps, after it has looked at it for the last time. -/
def Prog.sleepsFor : Prog → Option Nat
  | .calling name => some name
  | .sleeping name => some name
  | .yielded name => some name
  | _ => none

/-- The intent whose lock a waiting thread takes for its next step. -/
def Prog.locks : Prog → Option Nat
  | .clear name => some name
  | .look name => some name
  | .register name => some name
  | .recheck name => some name
  | _ => none

/-- A waiting thread is in a system call, with interrupts off; the other operations may be those of a kernel
    thread, which can lose its CPU anywhere. -/
def calls : Sleep.Calls Prog where
  away p := p matches .user
  calling p := p matches .recheck _ | .calling _
  asleep p := p matches .sleeping _
  parked p := !p.waits || p matches .yielded _
  waits := Prog.waits
  list
    | .waking rest => rest
    | _ => []
  parked_of_away p h := by cases p <;> first | rfl | cases h
  not_asleep_of_parked p h := by cases p <;> first | rfl | cases h
  of_calling p h := by cases p <;> first | exact ⟨rfl, rfl⟩ | cases h
  not_away_of_waits p h := by cases p <;> first | rfl | cases h
  list_of_waits p h := by cases p <;> first | rfl | cases h

/-- The scheduler, the threads, the gate and what they hold of it. -/
structure State (ι κ : Type) where
  sleep : Sleep.State ι κ
  prog : ThreadId → Prog
  gate : Gate
  intents : List Intent
  holders : List Holder
  /-- The next name. -/
  made : Nat

variable {ι κ : Type}

/-- A thread goes on. -/
def State.setProg (s : State ι κ) (id : ThreadId) (p : Prog) : State ι κ :=
  { s with prog := Function.update s.prog id p }

/-- The intent of a name. -/
def State.find (s : State ι κ) (name : Nat) : Option Intent := s.intents.find? fun i => i.name = name

/-- What `ready` says of an intent, if it still exists. -/
def State.readiness (s : State ι κ) (name : Nat) : Option (Except IntentError Bool) :=
  (s.find name).map fun i => s.gate.ready i.ticket

/-- Whether a look at the intent ends the wait for it: it is first and the lock is free, or the wait is in
    vain. -/
def State.answered (s : State ι κ) (name : Nat) : Bool :=
  match s.readiness name with
  | some (.ok false) => false
  | _ => true

/-! ## Operations -/

/-- `IoGuard::drop` of the guard in `holder`; the thread goes on to wake the waiters. -/
def State.release (s : State ι κ) (id : ThreadId) (holder : Holder) : State ι κ :=
  { s with gate := s.gate.dropGuard.1, holders := s.holders.erase holder }.setProg id
    (.waking s.gate.dropGuard.2)

/-- The ticket of an intent is used up. -/
def consume (intents : List Intent) (name : Nat) : List Intent :=
  intents.map fun i => if i.name = name then { i with ticket := none } else i

/-- One who holds the lock goes on holding it as another. -/
def exchange (holders : List Holder) (old new : Holder) : List Holder :=
  holders.map fun h => if h = old then new else h

/-- An intent is made, with its ticket. -/
def State.create (s : State ι κ) (gate : Gate) (ticket : Nat) : State ι κ :=
  { s with gate := gate, intents := s.intents ++ [⟨s.made, some ticket⟩], made := s.made + 1 }

/-- The intent becomes a guard. -/
def State.acquire (s : State ι κ) (id : ThreadId) (name : Nat) (gate : Gate)
    (waiters : List Nat) : State ι κ :=
  { s with
    gate := gate
    intents := consume s.intents name
    holders := s.holders ++ [Holder.guard s.made]
    made := s.made + 1 }.setProg id (.waking waiters)

/-- The intent is dropped, and its ticket with it. -/
def State.dropIntent (s : State ι κ) (id : ThreadId) (i : Intent) : State ι κ :=
  { s with
    gate := (s.gate.dropIntent i.ticket).1
    intents := s.intents.filter fun j => j.name ≠ i.name }.setProg id (.waking (s.gate.dropIntent i.ticket).2)

/-- The guard becomes a reservation. -/
def State.reserve (s : State ι κ) (name : Nat) : State ι κ :=
  { s with gate := s.gate.reserve, holders := exchange s.holders (.guard name) (.reservation name) }

/-- The first half of `Reservation::drop`. -/
def State.unreserve (s : State ι κ) (id : ThreadId) (name : Nat) : State ι κ :=
  { s with
    gate := { s.gate with reserved := false }
    holders := exchange s.holders (.reservation name) (.dropping id) }.setProg id .unlock

/-! ## Steps -/

/-- What the rest of the kernel decides in a step: whether there is memory, and whether the wait is given up.
    -/
structure Hint where
  room : Bool
  giveUp : Bool

/-- A call of a current thread, its next step, or scheduling. -/
inductive Label (ι : Type) where
  | tryLock (c : ι)
  | intent (c : ι) (room : Bool)
  | acquire (c : ι) (name : Nat)
  | dropIntent (c : ι) (name : Nat)
  | dropGuard (c : ι) (name : Nat)
  | reserve (c : ι) (name : Nat)
  | dropReservation (c : ι) (name : Nat)
  | markUnavailable (c : ι) (name : Nat)
  /-- The current thread of the CPU starts to wait for an intent. -/
  | wait (c : ι) (name : Nat)
  /-- The next step of the current thread. -/
  | own (c : ι) (hint : Hint)
  /-- The current thread of `c` looks at an intent while that of `other` has the intent's lock. -/
  | busy (c other : ι)
  | sched (l : Sleep.Label ι)

variable [DecidableEq ι]

/-- A step of the scheduler alone. -/
def sleepStep (idle : Sleep.Idle ι) (s : State ι κ) (l : Sleep.Label ι) : Option (State ι κ) :=
  (Sleep.step idle s.sleep l).map fun sleep => { s with sleep := sleep }

/-- The next step of `id`, the current thread of `c`. -/
def own (idle : Sleep.Idle ι) (s : State ι κ) (c : ι) (id : ThreadId) (hint : Hint) : Option (State ι κ) :=
  match s.prog id with
  | .user => none
  | .tryEnter =>
    if s.gate.enter.2 then
      some ({ s with gate := s.gate.enter.1, holders := s.holders ++ [Holder.trial id] }.setProg
        id (.tryCheck true))
    else some ({ s with gate := s.gate.enter.1 }.setProg id (.tryCheck false))
  | .tryCheck held =>
    if s.gate.unavailable then some (if held then s.release id (.trial id) else s.setProg id .user)
    else if held then
      some ({ s with
        holders := exchange s.holders (.trial id) (.guard s.made)
        made := s.made + 1 }.setProg id .user)
    else some (s.setProg id .user)
  | .unlock => some (s.release id (.dropping id))
  | .notify => some ({ s with gate := s.gate.notify.1 }.setProg id (.waking s.gate.notify.2))
  | .waking [] => some (s.setProg id .user)
  | .waking (thread :: rest) =>
    (sleepStep idle s (.wake thread true)).map fun s' => s'.setProg id (.waking rest)
  | .clear name =>
    -- a weak reference: the intent may be gone
    match s.find name with
    | none => some (s.setProg id (.look name))
    | some _ => some ({ s with gate := s.gate.removeWaiter id }.setProg id (.look name))
  | .look name => some (s.setProg id (if s.answered name || hint.giveUp then .user else .register name))
  | .register name =>
    match s.find name with
    | none => some (s.setProg id .user)
    | some i =>
      if i.ticket.isNone then some (s.setProg id .user)
      else
        match s.gate.registerWaiter id 64 hint.room with
        | .error _ => some (s.setProg id .user)
        | .ok gate => some ({ s with gate := gate }.setProg id (.recheck name))
  | .recheck name => some (s.setProg id (if s.answered name then .clear name else .calling name))
  | .calling name => (sleepStep idle s (.call c)).map fun s' => s'.setProg id (.sleeping name)
  | .sleeping name =>
    match s.sleep.pc id with
    | .outside => (sleepStep idle s (.preempt c)).map fun s' => s'.setProg id (.yielded name)
    | .yielding => (sleepStep idle s (.yield c)).map fun s' => s'.setProg id (.yielded name)
    | _ => sleepStep idle s (.advance c)
  | .yielded name => some (s.setProg id (.clear name))

/-- Whether `k` may have the lock of an intent that still exists. -/
def State.lockedBy (s : State ι κ) (k : ThreadId) (name : Nat) : Bool :=
  (s.find name).isSome && (s.prog k).locks == some name

/-- `ProviderAdmission::signals` while `k` has the lock of the intent: 0, as if nothing were ready. -/
def busyLook (s : State ι κ) (id k : ThreadId) : Option (State ι κ) :=
  match s.prog id with
  | .look name => if s.lockedBy k name && k != id then some (s.setProg id (.register name)) else none
  | .recheck name => if s.lockedBy k name && k != id then some (s.setProg id (.calling name)) else none
  | _ => none

/-- The current thread of the CPU, if it can start an operation. -/
def starting (idle : Sleep.Idle ι) (s : State ι κ) (c : ι) : Option ThreadId :=
  (s.sleep.cpu c).filter fun id => s.prog id = .user ∧ id ≠ idle.thread c

/-- Which steps of the sleep machine are taken outside of these operations. -/
def admissible (s : State ι κ) : Sleep.Label ι → Bool
  | .call _ => false
  | .advance _ => false
  | .yield _ => false
  | .preempt c => (s.sleep.cpu c).all fun id => calls.parked (s.prog id)
  | _ => true

/-- Calls start in user mode; the rest goes on from the place where a thread is. -/
def step (idle : Sleep.Idle ι) (s : State ι κ) : Label ι → Option (State ι κ)
  | .tryLock c => (starting idle s c).map fun id => if s.gate.unavailable then s else s.setProg id .tryEnter
  | .intent c room => (starting idle s c).map fun _ =>
    match s.gate.intent room with
    | .error _ => s
    | .ok (gate, ticket) => s.create gate ticket
  | .acquire c name => (starting idle s c).bind fun id => (s.find name).map fun i =>
    match s.gate.tryAcquire i.ticket with
    | .ok (gate, true, waiters) => s.acquire id name gate waiters
    | _ => s
  | .dropIntent c name => (starting idle s c).bind fun id => (s.find name).map fun i => s.dropIntent id i
  | .dropGuard c name => (starting idle s c).bind fun id =>
    if .guard name ∈ s.holders then some (s.release id (.guard name)) else none
  | .reserve c name => (starting idle s c).bind fun _ =>
    if .guard name ∈ s.holders then some (s.reserve name) else none
  | .dropReservation c name => (starting idle s c).bind fun id =>
    if .reservation name ∈ s.holders then some (s.unreserve id name) else none
  | .markUnavailable c name => (starting idle s c).bind fun id =>
    if .reservation name ∈ s.holders then
      some (if s.gate.unavailable then s else { s with gate := s.gate.latchUnavailable }.setProg id .notify)
    else none
  | .wait c name => (starting idle s c).map fun id => s.setProg id (.clear name)
  | .own c hint => (s.sleep.cpu c).bind fun id => own idle s c id hint
  | .busy c other => (s.sleep.cpu c).bind fun id => (s.sleep.cpu other).bind fun k => busyLook s id k
  | .sched l => if admissible s l then sleepStep idle s l else none

/-- A step is no second look that would have ended the wait, had the lock of the intent been free. -/
def truthful (s : State ι κ) : Label ι → Bool
  | .busy c _ => (s.sleep.cpu c).all fun id =>
    match s.prog id with
    | .recheck name => !s.answered name
    | _ => true
  | _ => true

/-- A new gate; any threads, nobody in an operation. -/
structure Start (idle : Sleep.Idle ι) (s : State ι κ) : Prop where
  sleep : Sleep.Start idle s.sleep
  prog : ∀ id, s.prog id = .user
  gate : s.gate = Gate.new
  intents : s.intents = []
  holders : s.holders = []

/-- The gate as a system. -/
def objectIo (idle : Sleep.Idle ι) : System (State ι κ) (Label ι) where
  init := Start idle
  step := step idle

end ObjectIo

end Mnu.Mem
