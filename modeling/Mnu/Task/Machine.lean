import Mnu.Lib.Run
import Mnu.Task.Queue

/-!
# `Mnu.Task.Machine` — the CPUs around the thread queue

Model of `src/task/scheduler.rs`, of the switch in `src/task/context.rs` and of the kernel-stack arena in
`src/task/thread.rs`, for any number of CPUs. A step is one critical section, or one store that another
CPU can observe; what happens between two of them on one CPU is local.

The code a CPU still has to run is a list of frames, one for each kernel function in progress, each with
the point it has reached. When a thread is switched out its frames go into its saved context, and when it
is switched in again they come back: a thread that yields in the middle of an operation continues it
later. With no frame left the CPU runs the thread's own code, and may enter the kernel again.

The stretch from the selection of the next thread to the end of the switch runs with interrupts off and
never yields. It is not a frame but the CPU's `Mode`, so it cannot end up in a saved context.

Two fields are not in the source and only serve the statements: `Cpu.running` and `Cpu.stack` say whose
code the CPU executes and on which stack, `Context.saved` that the context is the thread's latest.
-/

namespace Mnu.Task

open Lib Function

/-! ## Code in progress -/

/-- Steps of `retire_current_kernel_stack` and `free_kernel_stack`. -/
inductive StackOp where
  /-- `retire_current_kernel_stack`, up to and including the detachment from the user table. -/
  | retire (base : StackBase)
  /-- Its swap with the stack this CPU retired before. -/
  | swap (base : StackBase)
  /-- `free_kernel_stack`: take the slot out of use. -/
  | free (base : StackBase)
  /-- `release_stack_pages`, and the slot becomes empty. -/
  | release (index : Fin 64)
  deriving DecidableEq

/-- Where a thread runs. -/
inductive ThreadKind where
  | kernel
  | user
  /-- The idle thread an application processor makes for itself. -/
  | idle
  deriving DecidableEq

/-- What a creator decides about a new thread. -/
structure ThreadSpec where
  processId : ProcessId
  kind : ThreadKind
  suspended : Bool
  deriving DecidableEq

/-- The steps of an application processor's start. -/
inductive ApPc where
  | setRunning
  | enableInterrupts
  | switch
  deriving DecidableEq

/-- The steps of `terminate_self`. -/
inductive SelfPc where
  | remove
  | clear
  | halt
  deriving DecidableEq

/-- The steps of an exit. -/
inductive ExitPc where
  | begin
  | setTerminated
  | clear
  | select
  | remove
  | halt
  deriving DecidableEq

/-- A kernel function in progress. -/
inductive Frame where
  /-- The end of `without_interrupts`, or `iretq`. -/
  | restoreInterrupts (enabled : Bool)
  /-- `yield_now` and `schedule_and_switch`. -/
  | yieldNow
  | reclaim
  | stack (op : StackOp)
  /-- `allocate_kernel_stack`: reserve a slot, map its pages, make the thread and push it. -/
  | allocate (spec : ThreadSpec)
  | mapStack (index : Fin 64) (spec : ThreadSpec)
  | spawn (base : StackBase) (spec : ThreadSpec)
  | apStart (id : ThreadId) (slot : Slot) (pc : ApPc)
  /-- `halt_forever` when an application processor could not make its idle thread. -/
  | apFail
  /-- `exit_current_process`. -/
  | exitProcess (id : ThreadId)
  /-- `process_terminate` of another process. -/
  | processTerminate (pid : ProcessId)
  /-- `retire_process_threads`: collect the siblings, then wait for them. -/
  | retireThreads (pid : ProcessId) (owner : Option ThreadId)
  | retirePass (todo kept : List ThreadId)
  | retireCheck (id : ThreadId) (todo kept : List ThreadId)
  /-- `terminate_thread`: mark, then remove; `terminateSelf` when it is the current thread. -/
  | terminate (id : ThreadId)
  | terminateRemove (id : ThreadId)
  | terminateSelf (id : ThreadId) (pc : SelfPc)
  /-- `exit_current_task`. -/
  | exit (id : ThreadId) (pc : ExitPc)
  deriving DecidableEq

/-- What a creator does when it could not make the thread. -/
def ThreadSpec.onFailure (spec : ThreadSpec) : List Frame :=
  if spec.kind = .idle then [.apFail] else []

/-- Why a CPU halts for good. -/
inductive HaltReason where
  | exitSwitchReturned
  | exitNoThread
  | selfTerminated
  | invalidContext
  | startReturned
  | apReturned
  | apSpawnFailed
  deriving DecidableEq

/-- Why a CPU selects: to give up its time slice, or because its thread `id` is exiting; then the flag is
    the interrupt state to return to if there is nothing to switch to. -/
inductive SelectFor where
  | yield
  | exit (id : ThreadId) (interrupts : Bool)
  deriving DecidableEq

/-- What a switch that returns without switching goes back to. -/
inductive AfterSwitch where
  | resume
  | halt (reason : HaltReason)
  deriving DecidableEq

/-- What a CPU does with its code. -/
inductive Mode where
  /-- Run the frames, or the thread itself. -/
  | run
  /-- `select_next_thread`. -/
  | select (purpose : SelectFor)
  /-- The closure of `exit_current_task` after it found a next thread: read the stack of the exiting
      thread, remove it, retire the stack. -/
  | exitRead (id next : ThreadId) (slot : Slot)
  | exitRemove (id : ThreadId) (base : Option StackBase) (next : ThreadId) (slot : Slot)
  | exitStack (op : StackOp) (next : ThreadId) (slot : Slot)
  /-- `switch_to_thread_with_slots` up to the end of its critical section. -/
  | switchTo (current : Option ThreadId) (next : ThreadId) (slot : Slot) (after : AfterSwitch)
  /-- `switch_context`: save, load (with the stack), acknowledge. -/
  | save (old : Option Slot) (new : Slot)
  | load (new : Slot)
  | ack (interrupts : Bool)
  /-- The permanent loop of `hlt` with interrupts off. -/
  | halt (reason : HaltReason)
  /-- A context was loaded from a slot that holds no thread. -/
  | wild
  | offline
  deriving DecidableEq

/-! ## State -/

/-- What a switch saves. -/
structure Context where
  code : List Frame
  stack : StackBase
  interrupts : Bool
  saved : Bool
  deriving DecidableEq

/-- A CPU. -/
structure Cpu where
  current : Option ThreadId
  currentSlot : Option Slot
  switchingFrom : Option ThreadId
  interrupts : Bool
  mode : Mode
  code : List Frame
  running : Option ThreadId
  stack : StackBase

/-- `mapped_pages` of a slot: zero, `KSTACK_SLOT_RESERVED`, or a number of pages. -/
inductive StackMark where
  | empty
  | reserved
  | mapped
  deriving DecidableEq

/-- A slot of the stack arena, and whether its pages are mapped. -/
structure KernelStackSlot where
  mark : StackMark
  pages : Bool
  deriving DecidableEq

/-- All CPUs, the queue and the stacks. -/
structure State (n : Nat) where
  queue : ThreadQueue (Fin n) Context
  cpus : Fin n → Cpu
  kstackSlots : Fin 64 → KernelStackSlot
  retired : Fin n → Option StackBase
  /-- Processes whose termination has begun. -/
  stopping : ProcessId → Bool
  nextThreadId : ThreadId
  apsReleased : Bool

namespace State

variable {n : Nat}

/-- The queue written back. -/
def setQueue (s : State n) (q : ThreadQueue (Fin n) Context) : State n := { s with queue := q }

/-- A CPU written back. -/
def setCpu (s : State n) (c : Fin n) (cpu : Cpu) : State n :=
  { s with cpus := update s.cpus c cpu }

/-- Other code. -/
def setCode (s : State n) (c : Fin n) (code : List Frame) : State n :=
  s.setCpu c { s.cpus c with code := code }

/-- Another mode. -/
def setMode (s : State n) (c : Fin n) (mode : Mode) : State n :=
  s.setCpu c { s.cpus c with mode := mode }

/-- A stack slot written back. -/
def setStack (s : State n) (i : Fin 64) (slot : KernelStackSlot) : State n :=
  { s with kstackSlots := update s.kstackSlots i slot }

/-- Another stack in the cell of a CPU. -/
def setRetired (s : State n) (c : Fin n) (base : Option StackBase) : State n :=
  { s with retired := update s.retired c base }

/-- Interrupts off and a new mode. -/
def enter (s : State n) (c : Fin n) (mode : Mode) : State n :=
  s.setCpu c { s.cpus c with interrupts := false, mode := mode }

/-- `thread_is_cpu_referenced`. -/
def cpuReferenced (s : State n) (id : ThreadId) : Bool :=
  (List.finRange n).any fun c =>
    (s.cpus c).current = some id || (s.cpus c).switchingFrom = some id

/-! ## Kernel stacks -/

/-- One step of a stack operation on CPU `c`, and the step that follows. `ok` is the answer of the page
    table. -/
def stackStep (s : State n) (c : Fin n) (ok : Bool) : StackOp → State n × Option StackOp
  | .retire .outside => (s, some (.swap .outside))
  | .retire (.slot i) =>
    if (s.kstackSlots i).mark = .mapped ∧ ok then (s, some (.swap (.slot i)))
    else (s.setStack i { s.kstackSlots i with mark := .reserved }, none)
  | .swap base => (s.setRetired c (some base), (s.retired c).map .free)
  | .free .outside => (s, none)
  | .free (.slot i) =>
    if (s.kstackSlots i).mark = .mapped then
      (s.setStack i { s.kstackSlots i with mark := .reserved }, some (.release i))
    else (s, none)
  | .release i => (s.setStack i ⟨if ok then .empty else .reserved, false⟩, none)

/-- The first slot of the arena that is not in use. -/
def emptyStack (s : State n) : Option (Fin 64) :=
  (List.finRange 64).find? fun i => (s.kstackSlots i).mark = .empty

/-! ## Threads -/

/-- `Thread::new` and `Thread::new_usermode`, made on CPU `c`. -/
def newThread (s : State n) (c : Fin n) (base : StackBase) (spec : ThreadSpec) : Thread (Fin n) Context where
  id := s.nextThreadId
  processId := spec.processId
  processObject := false
  state := .ready
  schedulingSuspended := spec.suspended
  imageHeld := false
  cpuAffinity := if spec.kind = .idle then some c else none
  context := ⟨[], base, spec.kind ≠ .user, true⟩
  kernelStack := base
  pendingWakeup := false

/-- `begin_thread_exit`: the process to retire, if this thread is the one to do it. -/
def beginThreadExit (s : State n) (id : ThreadId) : State n × Option ProcessId :=
  match s.queue.get id with
  | none => (s, none)
  | some t =>
    if ThreadQueue.slots.any fun slot => (s.queue.threads slot).any fun u =>
        u.processId = t.processId && u.id ≠ id && u.state ≠ .terminated then
      (s.setQueue (s.queue.setState id .terminated).1, none)
    else if t.processObject && !s.stopping t.processId then
      ({ s with stopping := update s.stopping t.processId true }, some t.processId)
    else (s.setQueue (s.queue.setState id .terminated).1, none)

/-- `mark_thread_terminated`: whether the thread must be retained, or `none` if there is none. -/
def markThreadTerminated (s : State n) (id : ThreadId) : State n × Option Bool :=
  match s.queue.get id with
  | none => (s, none)
  | some t =>
    (s.setQueue (s.queue.setState id .terminated).1, some (t.state = .running || s.cpuReferenced id))

/-- `remove_quiescent_terminated_thread`. -/
def removeQuiescent (s : State n) (id : ThreadId) : State n × Option (Thread (Fin n) Context) :=
  if (s.queue.get id).any fun t => t.state = .terminated && !s.cpuReferenced id then
    (s.setQueue (s.queue.remove id).1, (s.queue.remove id).2)
  else (s, none)

/-- The threads `retire_process_threads` collects. -/
def siblings (s : State n) (pid : ProcessId) (owner : Option ThreadId) : List ThreadId :=
  ThreadQueue.slots.filterMap fun slot =>
    (s.queue.threads slot).bind fun t =>
      if t.processId = pid ∧ some t.id ≠ owner then some t.id else none

/-! ## Running a frame -/

/-- Replace the frame that was run by the frames it goes on with. -/
def continueWith (s : State n) (c : Fin n) (frames rest : List Frame) : State n :=
  s.setCode c (frames ++ rest)

/-- The answers a step takes from outside the model: page-table results and the stack guard (`ok`), and
    the thread limit of the process a thread is pushed for, if the process exists. -/
structure Answer where
  ok : Bool
  maxThreads : Option Nat

/-- `add_thread` for a new thread with the given stack. -/
def spawnThread (s : State n) (c : Fin n) (base : StackBase) (spec : ThreadSpec) (a : Answer)
    (rest : List Frame) : State n :=
  let thread := s.newThread c base spec
  let view := a.maxThreads.map fun limit => ⟨!s.stopping spec.processId, limit⟩
  let s := { s with nextThreadId := s.nextThreadId + 1 }
  match s.queue.push view thread with
  | none => s.continueWith c (.stack (.free base) :: spec.onFailure) rest
  | some q =>
    let s := s.setQueue q
    match spec.kind, q.slotIndex thread.id with
    | .idle, some slot => s.continueWith c [.apStart thread.id slot .setRunning] rest
    | _, _ => s.continueWith c [] rest

/-- `terminate_thread` up to its first branch. -/
def terminateThread (s : State n) (c : Fin n) (id : ThreadId) (rest : List Frame) : State n :=
  let (s', retained) := s.markThreadTerminated id
  if (s.cpus c).current = some id then s'.continueWith c [.terminateSelf id .remove] rest
  else if retained = some true then s'.continueWith c [] rest
  else s'.continueWith c [.terminateRemove id] rest

/-- Run the frame `f` of CPU `c`; `rest` are the frames below it. -/
def runFrame (s : State n) (c : Fin n) (f : Frame) (rest : List Frame) (a : Answer) : State n :=
  match f with
  | .restoreInterrupts enabled =>
    s.setCpu c { s.cpus c with interrupts := enabled, code := rest }
  | .yieldNow =>
    (s.continueWith c [.restoreInterrupts (s.cpus c).interrupts] rest).enter c (.select .yield)
  | .reclaim =>
    (s.setRetired c none).continueWith c (match s.retired c with
        | none => []
        | some base => [.stack (.free base)]) rest
  | .stack op =>
    let (s, next) := s.stackStep c a.ok op
    s.continueWith c (next.toList.map .stack) rest
  | .allocate spec =>
    match s.emptyStack with
    | none => s.continueWith c spec.onFailure rest
    | some i =>
      (s.setStack i { s.kstackSlots i with mark := .reserved }).continueWith c [.mapStack i spec] rest
  | .mapStack i spec =>
    if a.ok then (s.setStack i ⟨.mapped, true⟩).continueWith c [.spawn (.slot i) spec] rest
    else (s.setStack i ⟨.empty, false⟩).continueWith c spec.onFailure rest
  | .spawn base spec => s.spawnThread c base spec a rest
  | .apStart id slot .setRunning =>
    (s.setQueue (s.queue.setState id .running).1).continueWith c [.apStart id slot .enableInterrupts] rest
  | .apStart id slot .enableInterrupts =>
    s.setCpu c { s.cpus c with interrupts := true, code := .apStart id slot .switch :: rest }
  | .apStart id slot .switch =>
    (s.setCode c rest).enter c (.switchTo none id slot (.halt .apReturned))
  | .apFail => s.enter c (.halt .apSpawnFailed)
  | .exitProcess id =>
    match s.queue.get id with
    | some t =>
      if s.stopping t.processId then s.continueWith c [.exit id .begin] rest
      else
        ({ s with stopping := update s.stopping t.processId true }).continueWith c
          [.retireThreads t.processId (some id), .exit id .begin] rest
    | none => s.continueWith c [.exit id .begin] rest
  | .processTerminate pid =>
    if s.stopping pid then s.continueWith c [] rest
    else
      ({ s with stopping := update s.stopping pid true }).continueWith c [.retireThreads pid none] rest
  | .retireThreads pid owner =>
    s.continueWith c ((s.siblings pid owner).map .terminate ++ [.retirePass (s.siblings pid owner) []]) rest
  | .retirePass [] [] => s.continueWith c [] rest
  | .retirePass [] (id :: kept) => s.continueWith c [.yieldNow, .retirePass (id :: kept) []] rest
  | .retirePass (id :: todo) kept =>
    match s.removeQuiescent id with
    | (s, some t) => s.continueWith c [.stack (.free t.kernelStack), .retirePass todo kept] rest
    | (s, none) => s.continueWith c [.retireCheck id todo kept] rest
  | .retireCheck id todo kept =>
    if (s.queue.get id).isNone then s.continueWith c [.retirePass todo kept] rest
    else s.continueWith c [.retirePass todo (kept ++ [id])] rest
  | .terminate id => s.terminateThread c id rest
  | .terminateRemove id =>
    (s.setQueue (s.queue.remove id).1).continueWith c
      ((s.queue.remove id).2.toList.map fun t => .stack (.free t.kernelStack)) rest
  | .terminateSelf id .remove =>
    (s.setQueue (s.queue.remove id).1).continueWith c
      ((s.queue.remove id).2.toList.map (fun t => .stack (.retire t.kernelStack)) ++
        [.terminateSelf id .clear]) rest
  | .terminateSelf id .clear =>
    s.setCpu c { s.cpus c with
        current := none
        currentSlot := none
        code := .yieldNow :: .terminateSelf id .halt :: rest }
  | .terminateSelf _ .halt => s.enter c (.halt .selfTerminated)
  | .exit id .begin =>
    match s.beginThreadExit id with
    | (s, some pid) => s.continueWith c [.retireThreads pid (some id), .exit id .setTerminated] rest
    | (s, none) => s.continueWith c [.exit id .setTerminated] rest
  | .exit id .setTerminated =>
    (s.setQueue (s.queue.setState id .terminated).1).continueWith c [.exit id .clear] rest
  | .exit id .clear =>
    s.setCpu c { s.cpus c with current := none, currentSlot := none, code := .exit id .select :: rest }
  | .exit id .select =>
    (s.setCode c (.exit id .remove :: rest)).enter c (.select (.exit id (s.cpus c).interrupts))
  | .exit id .remove =>
    (s.setQueue (s.queue.remove id).1).continueWith c
      ((s.queue.remove id).2.toList.map (fun t => .stack (.retire t.kernelStack)) ++ [.exit id .halt]) rest
  | .exit _ .halt => s.enter c (.halt .exitNoThread)

/-! ## Selecting and switching -/

/-- `select_next_thread` on CPU `c`, and the branch its caller takes. -/
def selectStep (s : State n) (c : Fin n) (purpose : SelectFor) : State n :=
  let current := (s.cpus c).current
  let (q, selected) := s.queue.selectNextThread c current
  let s := s.setQueue q
  match purpose, selected with
  | .yield, none => s.setMode c .run
  | .yield, some (next, slot) =>
    if some next = current then s.setMode c .run
    else s.setMode c (.switchTo current next slot .resume)
  | .exit _ interrupts, none => s.setCpu c { s.cpus c with interrupts := interrupts, mode := .run }
  | .exit id _, some (next, slot) => s.setMode c (.exitRead id next slot)

/-- A switch returns to its caller without having switched. -/
def switchReturns (s : State n) (c : Fin n) : AfterSwitch → State n
  | .resume => s.setMode c .run
  | .halt reason => s.setMode c (.halt reason)

/-- The critical section of `switch_to_thread_with_slots` once the outgoing context is known: find the
    next thread, refuse it if it is gone, terminated or has a stack pointer outside its stack, and
    publish the switch. -/
def switchPublish (s : State n) (c : Fin n) (current : Option ThreadId) (old : Option Slot)
    (next : ThreadId) (slot : Slot) (after : AfterSwitch) : State n :=
  let resolved := if (s.queue.threads slot).any fun t => t.id = next then some slot
    else s.queue.slotIndex next
  match resolved with
  | none => s.switchReturns c after
  | some new =>
    match s.queue.threads new with
    | none => s.switchReturns c after
    | some t =>
      if t.state = .terminated then s.switchReturns c after
      else if t.context.stack ≠ t.kernelStack then s.setMode c (.halt .invalidContext)
      else
        s.setCpu c { s.cpus c with
            switchingFrom := current
            current := some next
            currentSlot := some new
            mode := .save old new }

/-- `switch_to_thread_with_slots`. A thread whose stack guard page is gone is terminated instead. -/
def switchStep (s : State n) (c : Fin n) (current : Option ThreadId) (next : ThreadId) (slot : Slot)
    (after : AfterSwitch) (guardIntact : Bool) : State n :=
  match current with
  | none => s.switchPublish c none none next slot after
  | some id =>
    match s.queue.slotIndex id with
    | none => s.switchReturns c after
    | some old =>
      if guardIntact ∨ (s.queue.threads old).any fun t => t.kernelStack = .outside then
        s.switchPublish c (some id) (some old) next slot after
      else (s.switchReturns c after).setCode c (.terminate id :: (s.cpus c).code)

/-- Store the frames and the stack of CPU `c` into the context in slot `old`. -/
def saveContext (s : State n) (c : Fin n) (old : Option Slot) : State n :=
  match old with
  | none => s
  | some slot =>
    match s.queue.threads slot with
    | none => s
    | some t =>
      s.setQueue (s.queue.put slot { t with context := ⟨(s.cpus c).code, (s.cpus c).stack, false, true⟩ })

/-- Load the context in slot `new`: from here on CPU `c` is on the stack of that thread. -/
def loadContext (s : State n) (c : Fin n) (new : Slot) : State n :=
  match s.queue.threads new with
  | none => s.setMode c .wild
  | some t =>
    (s.setQueue (s.queue.put new { t with context := { t.context with saved := false } })).setCpu c
      { s.cpus c with
        mode := .ack t.context.interrupts
        code := t.context.code
        running := some t.id
        stack := t.context.stack }

/-- One step of CPU `c`. -/
def cpuStep (s : State n) (c : Fin n) (a : Answer) : Option (State n) :=
  match (s.cpus c).mode with
  | .run =>
    match (s.cpus c).code with
    | [] => none
    | f :: rest => some (s.runFrame c f rest a)
  | .select purpose => some (s.selectStep c purpose)
  | .exitRead id next slot =>
    some (s.setMode c (.exitRemove id ((s.queue.get id).map (·.kernelStack)) next slot))
  | .exitRemove id base next slot =>
    some ((s.setQueue (s.queue.remove id).1).setMode c (match base with
        | none => .switchTo none next slot (.halt .exitSwitchReturned)
        | some base => .exitStack (.retire base) next slot))
  | .exitStack op next slot =>
    some ((s.stackStep c a.ok op).1.setMode c (match (s.stackStep c a.ok op).2 with
        | none => .switchTo none next slot (.halt .exitSwitchReturned)
        | some op => .exitStack op next slot))
  | .switchTo current next slot after => some (s.switchStep c current next slot after a.ok)
  | .save old new =>
    some ((s.saveContext c old).setCpu c { s.cpus c with mode := .load new, code := [] })
  | .load new => some (s.loadContext c new)
  | .ack interrupts =>
    some (s.setCpu c { s.cpus c with switchingFrom := none, interrupts := interrupts, mode := .run })
  | .halt _ => none
  | .wild => none
  | .offline => none

end State

/-! ## The system -/

/-- The waiting states a thread can be put into. -/
inductive WaitState where
  | ready
  | blocked
  | sleeping
  deriving DecidableEq

/-- The thread state it stands for. -/
def WaitState.state : WaitState → ThreadState
  | .ready => .ready
  | .blocked => .blocked
  | .sleeping => .sleeping

/-- Critical sections on the queue that the rest of the kernel (waits, timers, process control) runs on
    some CPU at some time. -/
inductive AsyncOp where
  | wake (id : ThreadId) (latchRunning : Bool)
  | takePending (id : ThreadId)
  | setState (id : ThreadId) (state : WaitState)
  | suspend (pid : ProcessId)
  | resume (pid : ProcessId)
  | holdImage (pid : ProcessId) (owner : ThreadId)
  | releaseHold (id : ThreadId)
  deriving DecidableEq

/-- The queue after one of them. -/
def AsyncOp.apply {ι κ : Type} (q : ThreadQueue ι κ) : AsyncOp → ThreadQueue ι κ
  | .wake id latchRunning => q.wakeWaiter id latchRunning
  | .takePending id => (q.takePendingWakeup id).1
  | .setState id state => (q.setState id state.state).1
  | .suspend pid => q.suspendProcess pid
  | .resume pid => q.resumeProcess pid
  | .holdImage pid owner => q.holdImageSiblings pid owner
  | .releaseHold id => q.releaseImageHold id

/-- What the code of a thread can ask of this part of the kernel. -/
inductive Call where
  | yieldNow
  | exitTask
  | exitProcess
  | terminate (id : ThreadId)
  | processTerminate (pid : ProcessId)
  | retireImageSiblings
  | spawn (processId : ProcessId) (user suspended : Bool)
  | releaseAps
  deriving DecidableEq

/-- A step of a CPU, or an event there. -/
inductive Label (n : Nat) where
  /-- CPU `c` goes on with what it is doing. -/
  | step (c : Fin n) (a : State.Answer)
  /-- The thread on CPU `c` enters the kernel. -/
  | call (c : Fin n) (call : Call)
  /-- A timer interrupt on CPU `c`; the flag says whether the time slice is used up. -/
  | interrupt (c : Fin n) (reschedule : Bool)
  /-- The thread on CPU `c` enables or disables interrupts, or returns to user mode. -/
  | setInterrupts (c : Fin n) (enabled : Bool)
  | async (op : AsyncOp)
  /-- An application processor enters the kernel, with a process for its idle thread. -/
  | boot (c : Fin n) (pid : ProcessId)

namespace State

variable {n : Nat}

/-- The frames a call starts with. -/
def callFrames (s : State n) (current : Option ThreadId) : Call → Option (List Frame)
  | .yieldNow => some [.yieldNow]
  | .exitTask => current.map fun id => [.exit id .begin]
  | .exitProcess => current.map fun id => [.exitProcess id]
  | .terminate id => some [.terminate id]
  | .processTerminate pid =>
    match current.bind s.queue.get with
    | some t => if t.processId = pid then some [.exitProcess t.id] else some [.processTerminate pid]
    | none => some [.processTerminate pid]
  -- A replaced image that does not find its own thread returns an error.
  | .retireImageSiblings =>
    some ((current.bind s.queue.get).toList.map fun t => .retireThreads t.processId (some t.id))
  | .spawn processId user suspended =>
    some [.reclaim, .allocate ⟨processId, if user then .user else .kernel, suspended⟩]
  | .releaseAps => some []

/-- A thread id is only ever obtained from a thread that was made. -/
def callEnabled (s : State n) : Call → Bool
  | .terminate id => id < s.nextThreadId
  | _ => true

/-- One step of the system. -/
def step (s : State n) : Label n → Option (State n)
  | .step c a => s.cpuStep c a
  | .call c call =>
    if (s.cpus c).mode = .run ∧ (s.cpus c).code = [] ∧ s.callEnabled call = true then
      match s.callFrames (s.cpus c).current call with
      | some frames =>
        some (({ s with apsReleased := s.apsReleased || decide (call = Call.releaseAps) }).setCode c frames)
      | none => some (s.enter c (.halt .exitNoThread))
    else none
  | .interrupt c reschedule =>
    if (s.cpus c).mode = .run ∧ (s.cpus c).interrupts = true then
      some (s.setCpu c { s.cpus c with
          interrupts := false
          code := .reclaim :: ((if reschedule then [.yieldNow] else []) ++
            .restoreInterrupts true :: (s.cpus c).code) })
    else none
  | .setInterrupts c enabled =>
    if (s.cpus c).mode = .run ∧ (s.cpus c).code = [] then
      some (s.setCpu c { s.cpus c with interrupts := enabled })
    else none
  | .async op => some (s.setQueue (op.apply s.queue))
  | .boot c pid =>
    if (s.cpus c).mode = .offline ∧ s.apsReleased = true then
      some (s.setCpu c { s.cpus c with mode := .run, code := [.reclaim, .allocate ⟨pid, .idle, false⟩] })
    else none

/-- The core thread as `create_kernel_proc` makes it on the bootstrap processor. -/
def coreThread (bsp : Fin n) : Thread (Fin n) Context where
  id := 1
  processId := 1
  processObject := true
  state := .running
  schedulingSuspended := false
  imageHeld := false
  cpuAffinity := some bsp
  context := ⟨[], .outside, true, true⟩
  kernelStack := .outside
  pendingWakeup := false

/-- Where the model starts: `start_scheduling` has chosen the core thread, the only thread there is, and
    is about to switch to it; the other processors wait to be released. -/
def initial (bsp : Fin n) : State n where
  queue :=
    { threads := update (fun _ => none) 0 (some (coreThread bsp))
      readyBitmap := fun _ => false
      rrCursor := 1
      count := 1 }
  cpus := fun c =>
    { current := none
      currentSlot := none
      switchingFrom := none
      interrupts := false
      mode := if c = bsp then .switchTo none 1 0 (.halt .startReturned) else .offline
      code := []
      running := none
      stack := .outside }
  kstackSlots := fun _ => ⟨.empty, false⟩
  retired := fun _ => none
  stopping := fun _ => false
  nextThreadId := 2
  apsReleased := false

end State

/-- The scheduler of a machine with `n` CPUs. -/
def scheduler (n : Nat) : System (State n) (Label n) where
  init := fun s => ∃ bsp, s = State.initial bsp
  step := State.step

/-! ## What a step can be -/

namespace State

variable {n : Nat} (s : State n)

/-- The steps of CPU `c`, by its mode. -/
inductive CpuMoves (c : Fin n) (a : Answer) : State n → Prop where
  | run {f rest} : (s.cpus c).mode = .run → (s.cpus c).code = f :: rest → CpuMoves c a (s.runFrame c f rest a)
  | select {purpose} : (s.cpus c).mode = .select purpose → CpuMoves c a (s.selectStep c purpose)
  | exitRead {id next slot} : (s.cpus c).mode = .exitRead id next slot →
      CpuMoves c a (s.setMode c (.exitRemove id ((s.queue.get id).map (·.kernelStack)) next slot))
  | exitRemove {id base next slot} : (s.cpus c).mode = .exitRemove id base next slot →
      CpuMoves c a ((s.setQueue (s.queue.remove id).1).setMode c (match base with
        | none => .switchTo none next slot (.halt .exitSwitchReturned)
        | some base => .exitStack (.retire base) next slot))
  | exitStack {op next slot} : (s.cpus c).mode = .exitStack op next slot →
      CpuMoves c a ((s.stackStep c a.ok op).1.setMode c (match (s.stackStep c a.ok op).2 with
        | none => .switchTo none next slot (.halt .exitSwitchReturned)
        | some op => .exitStack op next slot))
  | switchTo {current next slot after} : (s.cpus c).mode = .switchTo current next slot after →
      CpuMoves c a (s.switchStep c current next slot after a.ok)
  | save {old new} : (s.cpus c).mode = .save old new →
      CpuMoves c a ((s.saveContext c old).setCpu c { s.cpus c with mode := .load new, code := [] })
  | load {new} : (s.cpus c).mode = .load new → CpuMoves c a (s.loadContext c new)
  | ack {interrupts} : (s.cpus c).mode = .ack interrupts → CpuMoves c a
      (s.setCpu c { s.cpus c with switchingFrom := none, interrupts := interrupts, mode := .run })

/-- The steps of the system, by their labels. -/
inductive LabelMoves : Label n → State n → Prop where
  | step {c a s'} : s.cpuStep c a = some s' → LabelMoves (.step c a) s'
  | call {c call frames} : (s.cpus c).mode = .run → (s.cpus c).code = [] → s.callEnabled call = true →
      s.callFrames (s.cpus c).current call = some frames → LabelMoves (.call c call)
        (({ s with apsReleased := s.apsReleased || decide (call = Call.releaseAps) }).setCode c frames)
  | callNone {c call} : (s.cpus c).mode = .run → (s.cpus c).code = [] →
      s.callFrames (s.cpus c).current call = none →
        LabelMoves (.call c call) (s.enter c (.halt .exitNoThread))
  | interrupt {c reschedule} : (s.cpus c).mode = .run → LabelMoves (.interrupt c reschedule)
      (s.setCpu c { s.cpus c with
        interrupts := false
        code := .reclaim :: ((if reschedule then [.yieldNow] else []) ++
          .restoreInterrupts true :: (s.cpus c).code) })
  | setInterrupts {c enabled} : (s.cpus c).mode = .run → (s.cpus c).code = [] →
      LabelMoves (.setInterrupts c enabled) (s.setCpu c { s.cpus c with interrupts := enabled })
  | async {op} : LabelMoves (.async op) (s.setQueue (op.apply s.queue))
  | boot {c pid} : (s.cpus c).mode = .offline → LabelMoves (.boot c pid)
      (s.setCpu c { s.cpus c with mode := .run, code := [.reclaim, .allocate ⟨pid, .idle, false⟩] })

variable {s} {s' : State n} {c : Fin n}

theorem cpuStep_moves {a : Answer} (h : s.cpuStep c a = some s') : s.CpuMoves c a s' := by
  unfold cpuStep at h
  split at h
  · split at h
    · cases h
    · cases h
      exact .run ‹_› ‹_›
  all_goals cases h
  · exact .select ‹_›
  · exact .exitRead ‹_›
  · exact .exitRemove ‹_›
  · exact .exitStack ‹_›
  · exact .switchTo ‹_›
  · exact .save ‹_›
  · exact .load ‹_›
  · exact .ack ‹_›

theorem step_moves {l : Label n} (h : s.step l = some s') : s.LabelMoves l s' := by
  cases l with simp only [State.step] at h
  | step c a => exact .step h
  | call c call =>
    split at h
    · rename_i hcond
      split at h <;> cases h
      · exact .call hcond.1 hcond.2.1 hcond.2.2 ‹_›
      · exact .callNone hcond.1 hcond.2.1 ‹_›
    · cases h
  | async op =>
    cases h
    exact .async
  | interrupt | setInterrupts | boot =>
    split at h <;> cases h
    rename_i hcond
    first | exact .interrupt hcond.1 | exact .setInterrupts hcond.1 hcond.2 | exact .boot hcond.1

end State

end Mnu.Task
