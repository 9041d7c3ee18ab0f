import Mnu.Task.Locks

/-!
# `Mnu.Task.LockSteps` — in which order the two locks are taken

A call takes no lock while it holds one that comes later, as long as nobody is woken under `PROCESS_TABLE` and
no allocation that must not fail does so there. What an act may assume of the locks, and what it leaves, is
`Act.effect`; that its instructions are a path between the two is `act_path`, and the rule for programs that
take locks in order gives the rest.

Waking under `PROCESS_TABLE` is reachable: a process closes the last handle of an admission on which one of
its threads waits, while another CPU adds a thread. So is a failed allocation.
-/

namespace Mnu.Task.Locks

open Mnu.Lib Mnu.Lib.LockOrder Mnu.Mem

variable {ι κ γ : Type} {is : Code ι κ γ} {held' : Set Lock} {k : Kernel ι κ γ} {l : Lock}

/-- The locks that are held when an act runs, and after the instructions that it answers with. -/
def Act.effect (held : Set Lock) (a : Act ι κ γ) (held' : Set Lock) : Prop :=
  match a with
  | .queue _ | .push _ | .pushFinish _ _ | .threadLookup _ => held = {.threadQueue} ∧ held' = {.threadQueue}
  | .pushLookup _ => held = {.processTable, .threadQueue} ∧ held' = {.threadQueue}
  | .reclaim _ => held = {.threadQueue} ∧ held' = ∅
  | .table _ | .allocate _ _ => held = {.processTable} ∧ held' = ∅
  | .drop _ => (held = ∅ ∨ held = {.processTable}) ∧ held' = held
  | .free _ => held = ∅ ∧ held' = ∅

/-- Instructions that take the locks in order. -/
abbrev Ordered (held : Set Lock) (code : Code ι κ γ) (held' : Set Lock) : Prop :=
  Path Act.effect held code held'

/-! ## Locks that are held -/

theorem singleton_diff (l : Lock) : ({l} : Set Lock) \ {l} = ∅ := Set.sdiff_self

theorem both_diff_processTable :
    ({.processTable, .threadQueue} : Set Lock) \ {.processTable} = {.threadQueue} := by
  ext l
  cases l <;> simp

/-- Taking a lock while holding none. -/
theorem ordered_take (h : Ordered {l} is held') : Ordered ∅ (.lock l :: is) held' := by
  refine .lock (by simp) ?_
  rw [insert_empty_eq]
  exact h

/-- Giving back the only lock. -/
theorem ordered_give (h : Ordered ∅ is held') : Ordered {l} (.unlock l :: is) held' := by
  refine .unlock rfl ?_
  rw [singleton_diff]
  exact h

/-- Consulting the process table with the queue held. -/
theorem ordered_takeTable (h : Ordered {.processTable, .threadQueue} is held') :
    Ordered {.threadQueue} (.lock .processTable :: is) held' := by
  refine .lock ?_ h
  rintro _ rfl
  exact Lock.threadQueue_lt_processTable

theorem ordered_giveTable (h : Ordered {.threadQueue} is held') :
    Ordered {.processTable, .threadQueue} (.unlock .processTable :: is) held' := by
  refine .unlock (by simp) ?_
  rw [both_diff_processTable]
  exact h

/-! ## Calls -/

/-- A call starts and ends without locks. -/
theorem Call.code_ordered (c : Call ι κ γ) : Ordered ∅ c.code ∅ := by
  cases c with
  | queue op | addThread t | withThreadProcess id =>
    exact ordered_take (.run ⟨rfl, rfl⟩ (ordered_give (.nil ∅)))
  | reclaimProcess pid | table op | allocating pid granted => exact ordered_take (.run ⟨rfl, rfl⟩ (.nil ∅))
  | tryTable work current published =>
    exact .attempt ⟨insert_empty_eq _, rfl⟩ ⟨rfl, rfl⟩ (.nil ∅)
  | drop o => exact .run ⟨.inl rfl, rfl⟩ (.nil ∅)
  | free op => exact .run ⟨rfl, rfl⟩ (.nil ∅)

theorem calls_ordered (cs : List (Call ι κ γ)) : Ordered ∅ (cs.flatMap Call.code) ∅ :=
  Path.flatMap Call.code cs fun c _ => c.code_ordered

/-- References may be dropped with the process table held. -/
theorem dropAll_ordered (os : List ObjectId) :
    Ordered {.processTable} ((dropAll os : List (Call ι κ γ)).flatMap Call.code) {.processTable} := by
  apply Path.flatMap Call.code
  intro c hc
  obtain ⟨o, -, rfl⟩ := List.mem_map.mp hc
  exact .run ⟨.inr rfl, rfl⟩ (.nil _)

/-! ## Acts -/

namespace Kernel

/-- The threads registered at what an object's destructor gives up. -/
def waitersOf (k : Kernel ι κ γ) : KernelObject γ → List ThreadId
  | .memoryAdmission key _ => (k.gates key).waiters
  | .file stream _ => ((k.streams stream).map Pipe.waiters).getD []
  | _ => []

/-- The threads registered at what an act gives up: the gate or the stream of an object whose last reference
    goes, the gate of a preparation that fails, or of a lost update in flight. -/
def waitersLeft (k : Kernel ι κ γ) : Act ι κ γ → List ThreadId
  | .drop o =>
    match k.heap o with
    | none => []
    | some s => if s.strong ≤ 1 then k.waitersOf s.object else []
  | .table (.prepare _ key _ _ outcome _ _ _) =>
    if outcome = .stored ∨ outcome = .ready then [] else (k.gates key).waiters
  | .table (.progress work _ _) => if work.publication = .inFlight then (k.gates work.key).waiters else []
  | _ => []

/-- An act under the process table that takes no other lock: nobody is registered at what it gives up, and its
    allocation is granted. -/
def quiet (k : Kernel ι κ γ) (a : Act ι κ γ) : Bool :=
  (k.waitersLeft a).isEmpty &&
    match a with
    | .allocate pid granted => granted || (k.process pid).isNone
    | _ => true

theorem waitersLeft_of_quiet {a : Act ι κ γ} (h : k.quiet a = true) : k.waitersLeft a = [] :=
  List.isEmpty_iff.mp (Bool.and_eq_true_iff.mp h).1

theorem onHandles_woken {pid : ProcessId} {owned : List ObjectId}
    {f : Process → Outcome ι κ γ} (h : ∀ p, (f p).woken = []) : (k.onHandles pid owned f).woken = [] := by
  unfold onHandles
  split
  · rfl
  · exact h _

theorem insertHandle_woken (k : Kernel ι κ γ) (p : Process) (entry : ObjectHandleEntry ObjectId)
    (room : Bool) : (k.insertHandle p entry room).woken = [] := by
  unfold insertHandle
  split <;> rfl

theorem updateSection_woken {o : ObjectId} {f : Work γ → Outcome ι κ γ}
    (h : ∀ work, (f work).woken = []) : (k.updateSection o f).woken = [] := by
  unfold updateSection
  split
  · exact h _
  · rfl

theorem finishUpdate_woken (k : Kernel ι κ γ) (o : ObjectId) (work : Work γ) (phase : Publication)
    (complete : Bool) : (k.finishUpdate o work phase complete).woken = [] := by
  unfold finishUpdate
  split <;> rfl

variable [DecidableEq γ]

/-- A destructor wakes those who are registered, and no one else. -/
theorem destroy_woken (k : Kernel ι κ γ) (object : KernelObject γ) (h : k.waitersOf object = []) :
    (k.destroy object).2.1 = [] := by
  cases object with
  | memoryAdmission key ticket =>
    cases ticket with
    | none => rfl
    | some ticket => exact h
  | memoryUpdate work =>
    cases work with
    | none | some work => rfl
  | handleSnapshot captured | other => rfl
  | file stream writeEnd =>
    show (k.closePipeEndpoint stream writeEnd).2 = []
    unfold closePipeEndpoint
    cases hs : k.streams stream with
    | none => rfl
    | some pipe =>
      have hw : k.waitersOf (.file stream writeEnd) = pipe.waiters := by
        simp [waitersOf, hs]
      exact hw.symm.trans h

/-- So does dropping a reference, and only the last one. -/
theorem dropObject_woken (k : Kernel ι κ γ) (o : ObjectId)
    (h : k.waitersLeft (.drop o : Act ι κ γ) = []) : (k.dropObject o).2.1 = [] := by
  unfold dropObject release
  cases ho : k.heap o with
  | none => rfl
  | some s =>
    have hleft : (if s.strong ≤ 1 then k.waitersOf s.object else []) = [] := by
      simpa only [waitersLeft, ho] using h
    by_cases hlast : s.strong ≤ 1
    · rw [if_pos hlast] at hleft
      simp only [if_pos hlast]
      exact destroy_woken _ s.object hleft
    · simp only [if_neg hlast]

/-- Taking the guard of a preparation leaves the registered waiters alone. -/
theorem takeGuard_waiters {k' : Kernel ι κ γ} {key : γ} {admitted : Bool} {outcome : Preparation}
    (h : k.takeGuard key admitted outcome = some k') : (k'.gates key).waiters = (k.gates key).waiters := by
  unfold takeGuard at h
  split at h
  · cases h
    rfl
  split at h
  · cases h
  split at h
  · rename_i g hlock
    cases h
    show (Function.update k.gates key g key).waiters = _
    rw [Function.update_self]
    unfold Gate.tryLock at hlock
    split at hlock
    · cases hlock
    split at hlock
    · cases hlock
    cases hlock
    rfl
  · cases h

/-- A preparation that fails wakes those who wait at its gate. -/
theorem prepareUpdate_woken (k : Kernel ι κ γ) (pid : ProcessId) (key : γ) (external admitted : Bool)
    (outcome : Preparation) (room current published : Bool)
    (h : k.waitersLeft (.table (.prepare pid key external admitted outcome room current published) :
      Act ι κ γ) = []) :
    (k.prepareUpdate pid key external admitted outcome room current published).woken = [] := by
  unfold prepareUpdate
  split
  · rfl
  rename_i k' hguard
  have hw := takeGuard_waiters hguard
  cases outcome with
  | rejected | unreserved | unstored => exact hw.trans h
  | stored | ready => rfl

/-- Cleanup of a lost update wakes those who wait at its gate. -/
theorem quarantine_woken (k : Kernel ι κ γ) (work : Work γ)
    (h : (if work.publication = .inFlight then (k.gates work.key).waiters else []) = []) :
    (k.quarantine work).2.1 = [] := by
  unfold quarantine
  by_cases hflight : work.publication = .inFlight
  · rw [if_pos hflight] at h
    rw [if_pos hflight]
    show (k.gates work.key).markUnavailable.2 = []
    unfold Gate.markUnavailable
    split
    · rfl
    · exact h
  · rw [if_neg hflight]

/-- **Under the process table only those are woken who are registered at what the section gives up.** -/
theorem tableSection_woken (k : Kernel ι κ γ) (op : TableSection γ)
    (h : k.waitersLeft (.table op : Act ι κ γ) = []) : (k.tableSection op).woken = [] := by
  cases op with
  | read pid | publishLocal work current published => rfl
  | insert pid entry room => exact onHandles_woken fun p => insertHandle_woken k p entry room
  | duplicate pid source requested room =>
    refine onHandles_woken fun p => ?_
    split
    · rfl
    · exact insertHandle_woken _ p _ room
  | close pid handle | setContext pid key handle | transfer pid source requested receiver owner room copied
  | publish pid ticket | takeReservationFor pid owner | takeExited pid | markExited pid =>
    refine onHandles_woken fun p => ?_
    split <;> rfl
  | lookup pid handle required use | insertPair pid reader writer room room' =>
    refine onHandles_woken fun p => ?_
    split
    · rfl
    · split <;> rfl
  | capture pid room => exact onHandles_woken fun p => insertHandle_woken _ p _ room
  | reserve pid owner entry room copied =>
    simp only [tableSection]
    split
    · rfl
    · split <;> rfl
  | cancel pid ticket | retainForExec pid | grant pid grants view room | removeProcess pid =>
    exact onHandles_woken fun p => rfl
  | addProcess process =>
    show (if _ then _ else _ : Outcome ι κ γ).woken = []
    split <;> rfl
  | prepare pid key external admitted outcome room current published =>
    exact prepareUpdate_woken k pid key external admitted outcome room current published h
  | begin o current | unchanged o current | finish o current published =>
    refine updateSection_woken fun work => ?_
    split
    · exact finishUpdate_woken k o work _ _
    · rfl
  | progress work current published =>
    exact quarantine_woken k work h

variable [DecidableEq ι]

/-- **An act turns the locks it may assume into those it promises**, taking locks in order, provided that
    with the process table held it wakes nobody and gets its memory. -/
theorem act_path (k : Kernel ι κ γ) (cpu : ι) (a : Act ι κ γ) {held held' : Set Lock}
    (heff : a.effect held held') (hquiet : .processTable ∈ held → k.quiet a = true) :
    Ordered held (act cpu a k).2 held' := by
  cases a with
  | queue op | pushFinish t view =>
    obtain ⟨rfl, rfl⟩ := heff
    exact .nil _
  | push t =>
    obtain ⟨rfl, rfl⟩ := heff
    by_cases hfull : 64 ≤ k.queue.count
    · simp only [act, if_pos hfull]
      exact .nil _
    · simp only [act, if_neg hfull]
      exact ordered_takeTable (.run ⟨rfl, rfl⟩ (.nil _))
  | pushLookup t =>
    obtain ⟨rfl, rfl⟩ := heff
    exact ordered_giveTable (.run ⟨rfl, rfl⟩ (.nil _))
  | threadLookup id =>
    obtain ⟨rfl, rfl⟩ := heff
    by_cases hgone : (k.queue.get id).isNone
    · simp only [act, if_pos hgone]
      exact .nil _
    · simp only [act, if_neg hgone]
      exact ordered_takeTable (ordered_giveTable (.nil _))
  | reclaim pid =>
    obtain ⟨rfl, rfl⟩ := heff
    refine ordered_give ?_
    split
    · exact Call.code_ordered _
    · exact .nil _
  | table op =>
    obtain ⟨rfl, rfl⟩ := heff
    have hwoken := k.tableSection_woken op (waitersLeft_of_quiet (hquiet rfl))
    show Ordered _ ((dropAll _ ++ wakeAll _).flatMap Call.code ++ _) ∅
    rw [hwoken, show (wakeAll [] : List (Call ι κ γ)) = [] from rfl, List.append_nil]
    exact (dropAll_ordered _).append (ordered_give (calls_ordered _))
  | allocate pid granted =>
    obtain ⟨rfl, rfl⟩ := heff
    have hgranted : (granted || (k.process pid).isNone) = true := (Bool.and_eq_true_iff.mp (hquiet rfl)).2
    simp only [act, if_pos hgranted]
    exact ordered_give (.nil _)
  | drop o =>
    obtain ⟨hheld, rfl⟩ := heff
    rcases hheld with rfl | rfl
    · exact calls_ordered _
    · have hwoken := k.dropObject_woken o (waitersLeft_of_quiet (hquiet rfl))
      show Ordered _ ((dropAll (k.dropObject o).2.2 ++ wakeAll (k.dropObject o).2.1).flatMap Call.code) _
      rw [hwoken, show (wakeAll [] : List (Call ι κ γ)) = [] from rfl, List.append_nil]
      exact dropAll_ordered _
  | free op =>
    obtain ⟨rfl, rfl⟩ := heff
    exact calls_ordered _

end Kernel

/-! ## Runs -/

section Runs

variable [DecidableEq ι]

/-- The condition on a step: what a CPU gives up while it has the process table has no one registered as
    waiting for it, and what it allocates there it gets. -/
def quietUnderTable (m : Cpus ι κ γ) : Label ι κ γ → Bool
  | .call _ _ => true
  | .go cpu =>
    match m.code cpu with
    | .run a :: _ => m.owner .processTable ≠ some cpu || m.shared.quiet a
    | _ => true

variable [DecidableEq γ]

/-- Every step that meets the condition leaves programs that take their locks in order. -/
theorem orderly_step {m m' : Cpus ι κ γ} {l : Label ι κ γ} (h : m.Orderly Act.effect)
    (hquiet : quietUnderTable m l = true) (hstep : (system ι κ γ).step m l = some m') :
    m'.Orderly Act.effect := by
  cases l with
  | call cpu c => exact h.start c.code_ordered hstep
  | go cpu =>
    have hgo : m.step Kernel.act cpu = some m' := hstep
    refine h.step (fun a is mid hcode heff => ?_) hgo
    refine Kernel.act_path m.shared cpu a heff fun htable => ?_
    have hown : m.owner .processTable = some cpu := htable
    simpa [quietUnderTable, hcode, hown] using hquiet

/-- A machine that has just started is orderly: nobody has a lock or anything to do. -/
theorem orderly_init {m : Cpus ι κ γ} (h : (system ι κ γ).init m) : m.Orderly Act.effect := by
  cases h
  intro cpu
  have hnone : Machine.held (⟨fun _ => none, fun _ => [], .boot⟩ : Cpus ι κ γ) cpu = ∅ := by
    ext l
    simp [Machine.held]
  rw [hnone]
  exact .nil ∅

/-- **The two locks are taken in one order**, and no CPUs wait for them in a cycle, in every state of
    a run in which nobody is woken and no allocation fails under the process table. -/
theorem locks_taken_in_order {m : Cpus ι κ γ}
    (h : (system ι κ γ).Reach (fun m l => quietUnderTable m l = true) m) : ¬ m.Deadlocked ∧
      ∀ cpu wanted owned, m.wants cpu = some wanted → m.owner owned = some cpu → owned < wanted := by
  have horder : m.Orderly Act.effect :=
    h.invariant (fun _ => orderly_init) fun _ _ _ hm hok hstep => orderly_step hm hok hstep
  exact ⟨horder.not_deadlocked, fun _ _ _ hw ho => horder.lt_wants hw ho⟩

end Runs

/-! ## Two runs -/

/-- A new thread of process 1. -/
def threadOf (id : ThreadId) : Thread (Fin 2) Unit :=
  ⟨id, 1, false, .ready, false, false, none, (), .outside, false⟩

/-- Run `n` instructions. -/
def goOn (cpu : Fin 2) (n : Nat) : List (Label (Fin 2) Unit Unit) := List.replicate n (.go cpu)

/-- Process 1 with one thread and two admissions to one backing, behind the handles 1 and 2. -/
def admitted : List (Label (Fin 2) Unit Unit) :=
  .call 0 (.free (.spawn [] ⟨true, 8⟩ true)) :: goOn 0 4 ++ .call 0 (.addThread (threadOf 1)) :: goOn 0 7 ++
    .call 0 (.free (.createAdmission 1 () true true)) :: goOn 0 4 ++
    .call 0 (.free (.createAdmission 1 () true true)) :: goOn 0 4

/-- The thread waits for the turn of the second admission. -/
def awaitTurn : List (Label (Fin 2) Unit Unit) :=
  .call 0 (.table (.lookup 1 2 .wait (.await 1 true))) :: goOn 0 5 ++
    .call 0 (.queue (.setState 1 .sleeping)) :: goOn 0 3

/-- CPU 1 closes the second handle while CPU 0 adds a thread. -/
def closeAndAdd : List (Label (Fin 2) Unit Unit) :=
  .call 1 (.table (.close 1 2)) :: goOn 1 2 ++ .call 0 (.addThread (threadOf 2)) :: goOn 0 2 ++ goOn 1 1

/-- CPU 0 waits for the process table with the queue taken. -/
def addWaits (m : Cpus (Fin 2) Unit Unit) : Bool :=
  m.wants 0 = some .processTable && m.owner .threadQueue = some 0 && m.owner .processTable = some 1

/-- If no thread waits at the admission, the close goes on and the new thread waits for it alone. -/
theorem locks_taken_in_order_closeAndAdd :
    ∃ m, (system (Fin 2) Unit Unit).Reach (fun m l => quietUnderTable m l = true) m ∧
      addWaits m = true ∧ ¬ m.Deadlocked ∧
        ∀ cpu wanted owned, m.wants cpu = some wanted → m.owner owned = some cpu → owned < wanted := by
  obtain ⟨m, hm, hwaits⟩ := System.reach_of_exec (system (Fin 2) Unit Unit) quietUnderTable
    ⟨fun _ => none, fun _ => [], .boot⟩ (admitted ++ closeAndAdd) (addWaits ·) rfl (by decide +kernel)
  exact ⟨m, hm, hwaits, locks_taken_in_order hm⟩

/-- CPU 1 must not want the queue then. -/
theorem deadlocked_of_addWaits {m : Cpus (Fin 2) Unit Unit} (h : addWaits m = true)
    (hwants : m.wants 1 = some .threadQueue) : m.Deadlocked := by
  simp only [addWaits, Bool.and_eq_true, decide_eq_true_eq] at h
  obtain ⟨⟨hwant, hqueue⟩, htable⟩ := h
  exact .of_pair hwant htable hwants hqueue

/-- **If one does, the close wakes it under the process table**, and the two CPUs wait for each other. -/
theorem close_and_add_deadlock : ∃ m, (system (Fin 2) Unit Unit).Reachable m ∧ m.Deadlocked := by
  obtain ⟨m, hm, hwait⟩ := System.reachable_of_exec (system (Fin 2) Unit Unit)
    ⟨fun _ => none, fun _ => [], .boot⟩ (admitted ++ awaitTurn ++ closeAndAdd)
    (fun m => addWaits m ∧ m.wants 1 = some .threadQueue) rfl (by decide +kernel)
  exact ⟨m, hm, deadlocked_of_addWaits hwait.1 hwait.2⟩

/-- CPU 1 runs out of memory under the process table while CPU 0 adds a thread. -/
def allocateAndAdd : List (Label (Fin 2) Unit Unit) :=
  .call 1 (.allocating 1 false) :: goOn 1 1 ++ .call 0 (.addThread (threadOf 2)) :: goOn 0 2 ++ goOn 1 1

/-- **So do they if an allocation fails under the process table**, although nobody is woken there. -/
theorem allocate_and_add_deadlock : ∃ m, (system (Fin 2) Unit Unit).Reachable m ∧ m.Deadlocked := by
  obtain ⟨m, hm, hwait⟩ := System.reachable_of_exec (system (Fin 2) Unit Unit)
    ⟨fun _ => none, fun _ => [], .boot⟩ (admitted ++ allocateAndAdd)
    (fun m => addWaits m ∧ m.wants 1 = some .threadQueue) rfl (by decide +kernel)
  exact ⟨m, hm, deadlocked_of_addWaits hwait.1 hwait.2⟩

end Mnu.Task.Locks
