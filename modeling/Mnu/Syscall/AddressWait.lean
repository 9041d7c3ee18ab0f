import Mnu.Lib.Sweep
import Mnu.Task.SleepCalls

/-!
# `Mnu.Syscall.AddressWait` — waiting on a user address and waking it

The wait table of `syscall/address_wait.rs` over the sleep protocol of `Mnu.Task.Sleep`. A wait resolves its
address to a key, compares the word and registers itself under the table's lock, and then sleeps until its
entry is gone; a wake resolves its address, takes up to `maximum_count` matching entries out of the table
under the lock, and wakes their threads afterwards, one by one.

Every critical section is a step: the lookup in the page table, the registration, each round of the wait loop,
each critical section of `sleep_thread_unless_woken`, the sweep of the table and each wakeup. In between any
thread may run, paging may change any translation, memory is stored to, time passes and deadlines expire. A
system call runs with interrupts off, so a CPU leaves a thread in these calls only where the thread yields:
while a page is faulted in, and in the wait loop.

Three things are remembered that the kernel does not store: the number of a thread's registration, the number
of its wake call, and which registration each wake call removed.
-/

namespace Mnu.Syscall.AddressWait

open Mnu.Lib Mnu.Task Function

/-! ## Keys, waiters and answers -/

/-- A word of user memory, by address and by frame. -/
structure AddressKey where
  pageTable : Nat
  virtualAddress : Nat
  physicalAddress : Nat
  deriving DecidableEq, Repr

/-- `AddressKey::matches`. -/
def AddressKey.isMatch (a b : AddressKey) : Bool :=
  (a.pageTable == b.pageTable && a.virtualAddress == b.virtualAddress) ||
    a.physicalAddress == b.physicalAddress

/-- An entry of the table of waiters. -/
structure AddressWaiter where
  thread : ThreadId
  key : AddressKey
  guard : Option AddressKey
  deriving DecidableEq, Repr

/-- The condition under which `wake` takes an entry. -/
def AddressWaiter.hits (key : AddressKey) (w : AddressWaiter) : Bool :=
  w.key.isMatch key || w.guard.any fun guard => guard.isMatch key

/-- Why a call is refused. -/
inductive Error where
  | invalidArgument
  | invalidAddress
  | notReady
  | resourceUnavailable
  | backingFailure
  deriving DecidableEq, Repr

/-- What a wait returns. -/
inductive AddressWaitResult where
  | awoken
  | valueChanged
  | deadlineReached
  deriving DecidableEq, Repr

/-- What a call returns to its user. -/
inductive Answer where
  | error (e : Error)
  | waited (result : AddressWaitResult)
  | woke (count : Nat)
  deriving DecidableEq, Repr

/-- The arguments of a wait; a deadline of `none` is `ADDRESS_WAIT_INFINITE`. -/
structure Request where
  address : Nat
  expected : Nat
  valueSize : Nat
  deadline : Option Nat
  deriving DecidableEq, Repr

/-- Where a thread is: the critical section that comes next. -/
inductive Prog where
  | user
  | resolveGuard (r : Request) (address expected : Nat)
  | resolve (r : Request) (guard : Option (AddressKey × Nat))
  | register (r : Request) (key : AddressKey) (guard : Option (AddressKey × Nat))
  | arm (r : Request)
  /-- The deadline could not be armed: the registration is taken back. -/
  | abandon
  | check (r : Request)
  | calling (r : Request)
  /-- In `sleep_thread_unless_woken`, or in the `yield_now` after it. -/
  | sleeping (r : Request)
  /-- The wait is over; its deadline is still armed. -/
  | finish (result : AddressWaitResult)
  | wakeResolve (address count : Nat)
  | collect (key : AddressKey) (count : Nat)
  | waking (rest : List ThreadId) (count : Nat)
  | returned (answer : Answer)
  deriving DecidableEq, Repr

/-- A CPU may leave a thread that is in user mode, or that faults a page in. -/
def Prog.interruptible : Prog → Bool
  | .user => true
  | .resolveGuard _ _ _ => true
  | .resolve _ _ => true
  | .wakeResolve _ _ => true
  | .returned _ => true
  | _ => false

/-- A wait that has registered itself and not yet seen its end. -/
def Prog.waits : Prog → Bool
  | .arm _ => true
  | .check _ => true
  | .calling _ => true
  | .sleeping _ => true
  | _ => false

/-- Where a thread is in its call. -/
def places : Sleep.Places Prog where
  away p := p matches .user
  calling p := p matches .calling _
  asleep p := p matches .sleeping _
  parked p := p.interruptible || p matches .check _
  parked_of_away p h := by cases p <;> first | rfl | cases h
  not_asleep_of_parked p h := by cases p <;> first | rfl | cases h
  of_calling p h := by cases p <;> first | exact ⟨rfl, rfl⟩ | cases h

/-- `MAX_WAITERS` is the number of threads. -/
abbrev WaitSlot := Fin 64

/-- All slots. -/
def waitSlots : List WaitSlot := List.finRange 64

/-- The scheduler, user memory, the tables, and counts of calls. -/
structure State (ι κ : Type) where
  sleep : Sleep.State ι κ
  prog : ThreadId → Prog
  /-- The page table of a thread's process. -/
  tableOf : ThreadId → Nat
  /-- The frame that a page table maps a user page to. -/
  maps : Nat → Nat → Option Nat
  memory : Nat → UInt8
  now : Nat
  waiters : WaitSlot → Option AddressWaiter
  /-- The threads of `SLEEP_QUEUE`. -/
  deadlines : WaitSlot → Option ThreadId
  registration : ThreadId → Nat
  registrations : Nat
  wakeCall : ThreadId → Nat
  wakeCalls : Nat
  /-- Wake call and registration of every entry a wake has removed. -/
  removals : List (Nat × Nat)

variable {ι κ : Type}

/-! ## Reading user memory -/

/-- `translate_addr_in_table` for a user address. -/
def State.translate (s : State ι κ) (table address : Nat) : Option Nat :=
  (s.maps table (address / 4096)).map fun frame => frame * 4096 + address % 4096

/-- The size is not that of a word, or the address is not aligned to it. -/
def badSize (address size : Nat) : Bool :=
  !(size == 1 || size == 2 || size == 4 || size == 8) || address % size != 0

/-- `is_canonical_user_range`. An address in user space and the length of a word fit in 64 bits together. -/
def isCanonicalUserRange (address len : Nat) : Bool :=
  address != 0 && address ≤ 0x7FFFFFFFFFFF && address + (len - 1) ≤ 0x7FFFFFFFFFFF

/-- `resolve_key`. Whether the range is in a region of the process and could be faulted in is `prepared`. -/
def resolveKey (s : State ι κ) (table address size : Nat) (prepared : Except Error Unit) :
    Except Error AddressKey :=
  if badSize address size then .error .invalidArgument
  else if !isCanonicalUserRange address size then .error .invalidAddress
  else
    match prepared with
    | .error e => .error e
    | .ok () =>
      match s.translate table address with
      | none => .error .invalidAddress
      | some physical => .ok ⟨table, address, physical⟩

/-- `load_resident_value`, little endian. -/
def loadResidentValue (memory : Nat → UInt8) (address : Nat) : Nat → Nat
  | 0 => 0
  | size + 1 => (memory address).toNat + 256 * loadResidentValue memory (address + 1) size

/-- `load_value`: the key is checked again, and the word is read. -/
def loadValue (s : State ι κ) (table : Nat) (key : AddressKey) (size : Nat) : Except Error Nat :=
  if badSize key.virtualAddress size then .error .invalidArgument
  else if table ≠ key.pageTable then .error .invalidAddress
  else
    match s.translate key.pageTable key.virtualAddress with
    | none => .error .invalidAddress
    | some physical =>
      if physical ≠ key.physicalAddress then .error .invalidAddress
      else .ok (loadResidentValue s.memory key.physicalAddress size)

/-- `expected_for_size`: the bytes that count. -/
def expectedForSize (expected size : Nat) : Nat :=
  if size = 1 then expected % 2 ^ 8
  else if size = 2 then expected % 2 ^ 16
  else if size = 4 then expected % 2 ^ 32
  else expected

/-! ## The wait table -/

/-- Whether a thread is in the table. -/
def isRegistered (s : State ι κ) (id : ThreadId) : Bool :=
  waitSlots.any fun slot => (s.waiters slot).any fun w => w.thread = id

/-- `remove_waiter_locked`. -/
def removeWaiter (s : State ι κ) (id : ThreadId) : State ι κ :=
  match waitSlots.find? fun slot => (s.waiters slot).any fun w => w.thread = id with
  | none => s
  | some slot => { s with waiters := update s.waiters slot none }

/-- The critical section of `wait_inner` up to the choice of a slot. -/
def claimSlot (s : State ι κ) (id : ThreadId) (r : Request) (key : AddressKey)
    (guard : Option (AddressKey × Nat)) : Except Answer WaitSlot :=
  if isRegistered s id then .error (.error .notReady)
  else
    match loadValue s (s.tableOf id) key r.valueSize with
    | .error e => .error (.error e)
    | .ok current =>
      if current ≠ expectedForSize r.expected r.valueSize then .error (.waited .valueChanged)
      else
        match guard.map fun g => (loadValue s (s.tableOf id) g.1 8, g.2) with
        | some (.error e, _) => .error (.error e)
        | some (.ok value, expected) =>
          if value ≠ expected then .error (.waited .valueChanged) else freeSlot
        | none => freeSlot
where
  freeSlot : Except Answer WaitSlot :=
    if r.deadline.any fun deadline => deadline ≤ s.now then .error (.waited .deadlineReached)
    else
      match waitSlots.find? fun slot => (s.waiters slot).isNone with
      | none => .error (.error .resourceUnavailable)
      | some slot => .ok slot

/-- `register_sleep_entry`: the slot of the thread's entry, or a free one. -/
def sleepEntrySlot (deadlines : WaitSlot → Option ThreadId) (id : ThreadId) : Option WaitSlot :=
  (waitSlots.find? fun slot => deadlines slot = some id).or
    (waitSlots.find? fun slot => (deadlines slot).isNone)

/-- `disarm_thread_deadline`. -/
def disarm (s : State ι κ) (id : ThreadId) : State ι κ :=
  { s with deadlines := fun slot => if s.deadlines slot = some id then none else s.deadlines slot }

/-- The critical section of `wake`: the table without the entries taken, and these. -/
def collect (s : State ι κ) (key : AddressKey) (count : Nat) :
    (WaitSlot → Option AddressWaiter) × List AddressWaiter :=
  sweep (AddressWaiter.hits key) waitSlots (min count 64) s.waiters

/-! ## Steps -/

/-- What the rest of the kernel answers in a step: whether the pointer is good, and whether an upcall is due.
    -/
structure Hint where
  prepared : Except Error Unit
  interrupted : Bool

/-- A call, a step of a thread, or what others do. -/
inductive Label (ι : Type) where
  /-- The current thread of the CPU calls `wait`, or `wait_guarded` with a guard address and its value. -/
  | wait (c : ι) (r : Request) (guard : Option (Nat × Nat))
  | wake (c : ι) (address count : Nat)
  /-- The next critical section of the current thread. -/
  | own (c : ι) (hint : Hint)
  /-- Scheduling and wakeups from elsewhere. -/
  | sched (l : Sleep.Label ι)
  | remap (table page : Nat) (frame : Option Nat)
  | store (address : Nat) (value : UInt8)
  | tick (elapsed : Nat)
  /-- The timer drops an entry of `SLEEP_QUEUE`. -/
  | expire (slot : WaitSlot)

/-- A thread goes on. -/
def State.setProg (s : State ι κ) (id : ThreadId) (p : Prog) : State ι κ :=
  { s with prog := update s.prog id p }

/-- The registration of a waiter in the slot that was chosen. -/
def enroll (s : State ι κ) (id : ThreadId) (key : AddressKey) (guard : Option AddressKey) (slot : WaitSlot) :
    State ι κ :=
  { s with
    waiters := update s.waiters slot (some ⟨id, key, guard⟩)
    registration := update s.registration id s.registrations
    registrations := s.registrations + 1 }

/-- The table after the sweep of a wake call by `id`. -/
def swept (s : State ι κ) (id : ThreadId) (key : AddressKey) (count : Nat) : State ι κ :=
  { s with
    waiters := (collect s key count).1
    removals := s.removals ++ (collect s key count).2.map fun w => (s.wakeCall id, s.registration w.thread) }

variable [DecidableEq ι]

/-- One step of the sleep machine inside this one. -/
def sleepStep (idle : Sleep.Idle ι) (s : State ι κ) (l : Sleep.Label ι) : Option (State ι κ) :=
  (Sleep.step idle s.sleep l).map fun sleep => { s with sleep := sleep }

/-- The next critical section of `id`, the current thread of `c`. -/
def own (idle : Sleep.Idle ι) (s : State ι κ) (c : ι) (id : ThreadId) (hint : Hint) : Option (State ι κ) :=
  match s.prog id with
  | .user => none
  | .resolveGuard r address expected =>
    match resolveKey s (s.tableOf id) address 8 hint.prepared with
    | .error e => some (s.setProg id (.returned (.error e)))
    | .ok key => some (s.setProg id (.resolve r (some (key, expected))))
  | .resolve r guard =>
    match resolveKey s (s.tableOf id) r.address r.valueSize hint.prepared with
    | .error e => some (s.setProg id (.returned (.error e)))
    | .ok key => some (s.setProg id (.register r key guard))
  | .register r key guard =>
    match claimSlot s id r key guard with
    | .error answer => some (s.setProg id (.returned answer))
    | .ok slot =>
      some ((enroll s id key (guard.map Prod.fst) slot).setProg id
        (if r.deadline.isSome then .arm r else .check r))
  | .arm r =>
    match sleepEntrySlot s.deadlines id with
    | none => some (s.setProg id .abandon)
    | some slot =>
      some ({ s with deadlines := update s.deadlines slot (some id) }.setProg id (.check r))
  | .abandon => some ((removeWaiter s id).setProg id (.returned (.error .resourceUnavailable)))
  | .check r =>
    if hint.interrupted then some ((removeWaiter s id).setProg id (.finish .awoken))
    else if !isRegistered s id then some (s.setProg id (.finish .awoken))
    else if r.deadline.any fun deadline => deadline ≤ s.now then
      some ((removeWaiter s id).setProg id (.finish .deadlineReached))
    else some (s.setProg id (.calling r))
  | .calling r => (sleepStep idle s (.call c)).map fun s' => s'.setProg id (.sleeping r)
  | .sleeping r =>
    match s.sleep.pc id with
    | .outside => (sleepStep idle s (.preempt c)).map fun s' => s'.setProg id (.check r)
    | .yielding => (sleepStep idle s (.yield c)).map fun s' => s'.setProg id (.check r)
    | _ => sleepStep idle s (.advance c)
  | .finish result => some ((disarm s id).setProg id (.returned (.waited result)))
  | .wakeResolve address count =>
    if count = 0 then some (s.setProg id (.returned (.woke 0)))
    else
      match resolveKey s (s.tableOf id) address 1 hint.prepared with
      | .error e => some (s.setProg id (.returned (.error e)))
      | .ok key => some (s.setProg id (.collect key count))
  | .collect key count =>
    some ((swept s id key count).setProg id
      (.waking ((collect s key count).2.map AddressWaiter.thread) (collect s key count).2.length))
  | .waking [] count => some (s.setProg id (.returned (.woke count)))
  | .waking (thread :: rest) count =>
    (sleepStep idle s (.wake thread true)).map fun s' => s'.setProg id (.waking rest count)
  | .returned _ => some (s.setProg id .user)

/-- Which steps of the sleep machine are taken outside of these calls. -/
def admissible (s : State ι κ) : Sleep.Label ι → Bool
  | .call _ => false
  | .advance _ => false
  | .yield _ => false
  | .preempt c => (s.sleep.cpu c).all fun id => (s.prog id).interruptible
  | _ => true

/-- Calls start in user mode; each step of one is a critical section. -/
def step (idle : Sleep.Idle ι) (s : State ι κ) : Label ι → Option (State ι κ)
  | .wait c r guard =>
    match s.sleep.cpu c with
    | none => none
    | some id =>
      if s.prog id = .user ∧ id ≠ idle.thread c then
        match guard with
        | none => some (s.setProg id (.resolve r none))
        | some (address, expected) => some (s.setProg id (.resolveGuard r address expected))
      else none
  | .wake c address count =>
    match s.sleep.cpu c with
    | none => none
    | some id =>
      if s.prog id = .user ∧ id ≠ idle.thread c then
        some ({ s with
          wakeCall := update s.wakeCall id s.wakeCalls
          wakeCalls := s.wakeCalls + 1 }.setProg id (.wakeResolve address count))
      else none
  | .own c hint => (s.sleep.cpu c).bind fun id => own idle s c id hint
  | .sched l => if admissible s l then sleepStep idle s l else none
  | .remap table page frame =>
    some { s with maps := update s.maps table (update (s.maps table) page frame) }
  | .store address value => some { s with memory := update s.memory address value }
  | .tick elapsed => some { s with now := s.now + elapsed }
  | .expire slot => some { s with deadlines := update s.deadlines slot none }

/-- Any threads, nobody in a call, both tables empty; memory and translations are arbitrary. -/
structure Start (idle : Sleep.Idle ι) (s : State ι κ) : Prop where
  sleep : Sleep.Start idle s.sleep
  prog : ∀ id, s.prog id = .user
  waiters : ∀ slot, s.waiters slot = none
  deadlines : ∀ slot, s.deadlines slot = none
  removals : s.removals = []

/-- The wait table as a system. -/
def addressWait (idle : Sleep.Idle ι) : System (State ι κ) (Label ι) where
  init := Start idle
  step := step idle

end Mnu.Syscall.AddressWait
