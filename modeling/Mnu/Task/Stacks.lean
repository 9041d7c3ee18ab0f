import Mnu.Lib.Total
import Mnu.Task.Steps

/-!
# `Mnu.Task.Stacks` — who holds a kernel stack

A slot of the stack arena passes from hand to hand: the creator that maps it, the thread it is given to,
the CPU that retires it, the operation that frees it. None of this is written down in the slot itself,
which only has a mark. A *hold* is a place in the state that will use or free the slot: a thread in the
queue, a frame in progress (on a CPU or in a saved context), the end of an exit, or the retirement cell of
a CPU.

`SlotOk` is the state of one slot: it has at most one hold, the hold fits the mark, and a CPU that
executes on the stack shares it with nobody — the hold, if there is one, is the thread it runs or its
own retirement of the stack. A step takes holds away (`SlotOk.mono`) or replaces the only one
(`SlotOk.give`).
-/

namespace Mnu.Task

open Lib ThreadQueue Function

variable {n : Nat} {cpus : Fin n → Cpu} {retired : Fin n → Option StackBase}
  {slots : Fin 64 → KernelStackSlot}
  {c : Fin n} {cpu : Cpu} {t t' : Thread (Fin n) Context} {base : Option StackBase} {f : Frame}
  {o : Option (Fin n)} {slot : Slot}

/-! ## Holds -/

/-- What a hold is going to do with the slot. -/
inductive Use where
  | thread (id : ThreadId)
  | parked
  | freeing
  | releasing
  | building
  | spawning
  deriving DecidableEq

variable {u : Use}

/-- The slot of a stack, in this use. -/
def StackBase.hold (u : Use) : StackBase → Option (Use × Fin 64)
  | .outside => none
  | .slot i => some (u, i)

/-- The slot that the operation will give up. -/
def StackOp.hold : StackOp → Option (Use × Fin 64)
  | .retire base => base.hold .parked
  | .swap base => base.hold .parked
  | .free base => base.hold .freeing
  | .release i => some (.releasing, i)

/-- The slot that the frame has. -/
def Frame.hold : Frame → Option (Use × Fin 64)
  | .stack op => op.hold
  | .mapStack i _ => some (.building, i)
  | .spawn base _ => base.hold .spawning
  | _ => none

/-- The slot that the mode has. -/
def Mode.hold : Mode → Option (Use × Fin 64)
  | .exitStack op _ _ => op.hold
  | _ => none

/-- The mark and the pages a hold relies on. -/
def Use.Fits : Use → KernelStackSlot → Prop
  | .releasing, slot => slot.mark = .reserved ∧ slot.pages = true
  | .building, slot => slot.mark = .reserved
  | _, slot => slot.mark = .mapped ∧ slot.pages = true

/-- The hold is one that CPU `c`, which runs `me`, may have on the stack it executes on. -/
def Mine (c : Fin n) (me : Option ThreadId) (o : Option (Fin n)) (u : Use) : Prop :=
  (∃ id, u = .thread id ∧ me = some id) ∨ (u = .parked ∧ o = some c)

/-- The hold belongs to an operation on a stack that nobody should execute on. -/
def Use.loose : Use → Bool
  | .thread _ => false
  | .parked => false
  | _ => true

theorem not_mine_of_loose {me : Option ThreadId} (h : u.loose = true) : ¬ Mine c me o u := by
  rintro (⟨id, rfl, -⟩ | ⟨rfl, -⟩)
  · cases h
  · cases h

section Places

variable (threads : Slot → Option (Thread (Fin n) Context)) (cpus : Fin n → Cpu)
  (retired : Fin n → Option StackBase)

/-- `Holds o u i`: somebody, CPU `c` if `o = some c`, holds slot `i`. -/
inductive Holds : Option (Fin n) → Use → Fin 64 → Prop where
  | thread {slot t i} : threads slot = some t → t.kernelStack = .slot i → Holds none (.thread t.id) i
  | context {slot t f u i} : threads slot = some t → t.context.saved = true → f ∈ t.context.code →
      f.hold = some (u, i) → Holds none u i
  | code {c f u i} : f ∈ (cpus c).code → f.hold = some (u, i) → Holds (some c) u i
  | mode {c u i} : (cpus c).mode.hold = some (u, i) → Holds (some c) u i
  | retired {c i} : retired c = some (.slot i) → Holds (some c) .parked i

/-- One if the hold is on slot `i`. -/
def weight (i : Fin 64) : Option (Use × Fin 64) → Nat
  | none => 0
  | some (_, j) => if j = i then 1 else 0

/-- How often the frames have it. -/
def codeHolds (i : Fin 64) (code : List Frame) : Nat := (code.map fun f => weight i f.hold).sum

/-- How often a thread has it. -/
def threadHolds (i : Fin 64) : Option (Thread (Fin n) Context) → Nat
  | none => 0
  | some t => weight i (t.kernelStack.hold (.thread t.id)) +
      if t.context.saved then codeHolds i t.context.code else 0

/-- How often a CPU has it. -/
def cpuHolds (i : Fin 64) (cpu : Cpu) : Nat := codeHolds i cpu.code + weight i cpu.mode.hold

/-- Whether the cell has it. -/
def retiredHolds (i : Fin 64) (base : Option StackBase) : Nat :=
  weight i (base.bind (StackBase.hold .parked))

/-- The number of holds on slot `i`. -/
def holders (i : Fin 64) : Nat :=
  total (threadHolds i) threads + total (cpuHolds i) cpus + total (retiredHolds i) retired

end Places

/-! ## Counting -/

section Counting

variable {threads : Slot → Option (Thread (Fin n) Context)} {cpus : Fin n → Cpu}
  {retired : Fin n → Option StackBase} {i : Fin 64} {o : Option (Fin n)} {u : Use}
  {c : Fin n} {code : List Frame}
  {slot : Slot}

@[simp] theorem weight_none (i : Fin 64) : weight i none = 0 := rfl

theorem weight_self {x : Option (Use × Fin 64)} (h : x = some (u, i)) : weight i x = 1 := by
  rw [h]
  exact if_pos rfl

theorem weight_le_one (i : Fin 64) (x : Option (Use × Fin 64)) : weight i x ≤ 1 := by
  cases x with
  | none => exact Nat.zero_le 1
  | some x =>
    simp only [weight]
    split <;> omega

@[simp] theorem codeHolds_nil (i : Fin 64) : codeHolds i [] = 0 := rfl

@[simp] theorem codeHolds_cons (i : Fin 64) (f : Frame) (code : List Frame) :
    codeHolds i (f :: code) = weight i f.hold + codeHolds i code := rfl

@[simp] theorem codeHolds_append (i : Fin 64) (a b : List Frame) :
    codeHolds i (a ++ b) = codeHolds i a + codeHolds i b := by
  simp [codeHolds]

theorem codeHolds_pos (hf : f ∈ code) (h : f.hold = some (u, i)) : 0 < codeHolds i code := by
  induction code with
  | nil => cases hf
  | cons g code ih =>
    rw [codeHolds_cons]
    rcases List.mem_cons.mp hf with rfl | hf
    · rw [weight_self h]
      omega
    · have := ih hf
      omega

theorem codeHolds_eq_zero (h : ∀ f ∈ code, f.hold = none) (i : Fin 64) : codeHolds i code = 0 := by
  induction code with
  | nil => rfl
  | cons f code ih =>
    rw [codeHolds_cons, h f List.mem_cons_self, ih fun g hg => h g (List.mem_cons_of_mem f hg)]
    rfl

/-- A hold is counted. -/
theorem Holds.pos (h : Holds threads cpus retired o u i) : 0 < holders threads cpus retired i := by
  unfold holders
  cases h with
  | @thread slot t _ ht hk =>
    have hle := le_total (threadHolds i) threads slot
    have hone : weight i (t.kernelStack.hold (.thread t.id)) = 1 := by
      rw [hk]
      exact weight_self rfl
    rw [ht] at hle
    simp only [threadHolds, hone] at hle
    omega
  | @context slot t f _ _ ht hsaved hf hhold =>
    have hle := le_total (threadHolds i) threads slot
    have hpos := codeHolds_pos hf hhold
    rw [ht] at hle
    simp only [threadHolds, hsaved, if_true] at hle
    omega
  | @code c f _ _ hf hhold =>
    have hle : codeHolds i (cpus c).code + weight i (cpus c).mode.hold ≤ total (cpuHolds i) cpus :=
      le_total (cpuHolds i) cpus c
    have hpos := codeHolds_pos hf hhold
    omega
  | @mode c _ _ hhold =>
    have hle : codeHolds i (cpus c).code + weight i (cpus c).mode.hold ≤ total (cpuHolds i) cpus :=
      le_total (cpuHolds i) cpus c
    have hone := weight_self hhold
    omega
  | @retired c _ hr =>
    have hle := le_total (retiredHolds i) retired c
    have hone : retiredHolds i (retired c) = 1 := by
      rw [hr]
      exact weight_self rfl
    omega

variable (threads cpus retired) in
theorem holders_setCpu (i : Fin 64) (c : Fin n) (cpu : Cpu) :
    holders threads (update cpus c cpu) retired i + cpuHolds i (cpus c) =
      holders threads cpus retired i + cpuHolds i cpu := by
  have := total_update (cpuHolds i) cpus c cpu
  unfold holders
  omega

variable (threads cpus retired) in
theorem holders_setRetired (i : Fin 64) (c : Fin n) (base : Option StackBase) :
    holders threads cpus (update retired c base) i + retiredHolds i (retired c) =
      holders threads cpus retired i + retiredHolds i base := by
  have := total_update (retiredHolds i) retired c base
  unfold holders
  omega

variable (threads cpus retired) in
theorem holders_setThread (i : Fin 64) (slot : Slot) (t : Option (Thread (Fin n) Context)) :
    holders (update threads slot t) cpus retired i + threadHolds i (threads slot) =
      holders threads cpus retired i + threadHolds i t := by
  have := total_update (threadHolds i) threads slot t
  unfold holders
  omega

/-- Where a hold is after one CPU has changed. -/
theorem Holds.of_setCpu {cpu : Cpu} (h : Holds threads (update cpus c cpu) retired o u i) :
    Holds threads cpus retired o u i ∨
      (o = some c ∧ ((∃ f ∈ cpu.code, f.hold = some (u, i)) ∨ cpu.mode.hold = some (u, i))) := by
  cases h with
  | thread ht hk => exact .inl (.thread ht hk)
  | context ht hsaved hf hhold => exact .inl (.context ht hsaved hf hhold)
  | @code d f _ _ hf hhold =>
    rcases of_update (P := fun x : Cpu => f ∈ x.code) hf with ⟨rfl, hnew⟩ | ⟨-, hf⟩
    · exact .inr ⟨rfl, .inl ⟨f, hnew, hhold⟩⟩
    · exact .inl (.code hf hhold)
  | @mode d _ _ hhold =>
    rcases of_update (P := fun x : Cpu => x.mode.hold = some (u, i)) hhold with ⟨rfl, hnew⟩ | ⟨-, hhold⟩
    · exact .inr ⟨rfl, .inr hnew⟩
    · exact .inl (.mode hhold)
  | retired hr => exact .inl (.retired hr)

/-- Where a hold is after one retirement cell has changed. -/
theorem Holds.of_setRetired (h : Holds threads cpus (update retired c base) o u i) :
    Holds threads cpus retired o u i ∨ (o = some c ∧ u = .parked ∧ base = some (.slot i)) := by
  cases h with
  | thread ht hk => exact .inl (.thread ht hk)
  | context ht hsaved hf hhold => exact .inl (.context ht hsaved hf hhold)
  | code hf hhold => exact .inl (.code hf hhold)
  | mode hhold => exact .inl (.mode hhold)
  | @retired d _ hr =>
    rcases of_update_eq hr with ⟨rfl, hset⟩ | ⟨-, hr⟩
    · exact .inr ⟨rfl, rfl, hset⟩
    · exact .inl (.retired hr)

/-- A hold without the thread of one slot: another place has it, or the new thread of that slot. -/
theorem Holds.of_setThread
    (h : Holds (update threads slot (some t)) cpus retired o u i) :
    Holds (update threads slot none) cpus retired o u i ∨ o = none ∧
      (u = .thread t.id ∧ t.kernelStack = .slot i ∨
        t.context.saved = true ∧ ∃ f ∈ t.context.code, f.hold = some (u, i)) := by
  cases h with
  | @thread k w _ hw hk =>
    rcases of_update_eq hw with ⟨rfl, ⟨⟩⟩ | ⟨hks, hw⟩
    · exact .inr ⟨rfl, .inl ⟨rfl, hk⟩⟩
    · exact .inl (.thread ((update_of_ne hks ..).trans hw) hk)
  | @context k w f _ _ hw hsaved hf hhold =>
    rcases of_update_eq hw with ⟨rfl, ⟨⟩⟩ | ⟨hks, hw⟩
    · exact .inr ⟨rfl, .inr ⟨hsaved, f, hf, hhold⟩⟩
    · exact .inl (.context ((update_of_ne hks ..).trans hw) hsaved hf hhold)
  | code hf hhold => exact .inl (.code hf hhold)
  | mode hhold => exact .inl (.mode hhold)
  | retired hr => exact .inl (.retired hr)

/-- A hold that does not need the thread of one slot. -/
theorem Holds.of_blank (h : Holds (update threads slot none) cpus retired o u i) :
    Holds threads cpus retired o u i := by
  have hthread : ∀ {k t}, update threads slot none k = some t → threads k = some t := by
    intro k t ht
    rcases of_update_eq ht with ⟨rfl, ⟨⟩⟩ | ⟨-, ht⟩
    exact ht
  cases h with
  | thread ht hk => exact .thread (hthread ht) hk
  | context ht hsaved hf hhold => exact .context (hthread ht) hsaved hf hhold
  | code hf hhold => exact .code hf hhold
  | mode hhold => exact .mode hhold
  | retired hr => exact .retired hr

end Counting

/-! ## One slot -/

/-- The state of slot `i`, with `count` holds on it. -/
structure SlotOk (i : Fin 64) (slot : KernelStackSlot) (count : Nat)
    (holds : Option (Fin n) → Use → Prop) (cpus : Fin n → Cpu) : Prop where
  single : count ≤ 1
  fits : ∀ o u, holds o u → u.Fits slot
  empty : slot.mark = .empty → count = 0 ∧ slot.pages = false
  pages : ∀ c, (cpus c).stack = .slot i → slot.pages = true
  mine : ∀ c, (cpus c).stack = .slot i → ∀ o u, holds o u → Mine c (cpus c).running o u
  alone : ∀ c d, (cpus c).stack = .slot i → (cpus d).stack = .slot i → c = d

/-- The CPUs execute the same threads on the same stacks. -/
def SameStacks (cpus cpus' : Fin n → Cpu) : Prop :=
  ∀ d, (cpus' d).stack = (cpus d).stack ∧ (cpus' d).running = (cpus d).running

theorem SameStacks.refl : SameStacks cpus cpus := fun _ => ⟨rfl, rfl⟩

theorem SameStacks.update
    (hstack : cpu.stack = (cpus c).stack) (hrun : cpu.running = (cpus c).running) :
    SameStacks cpus (Function.update cpus c cpu) := by
  intro d
  by_cases hd : d = c
  · subst hd
    rw [Function.update_self]
    exact ⟨hstack, hrun⟩
  · rw [Function.update_of_ne hd]
    exact ⟨rfl, rfl⟩

section OneSlot

variable {i : Fin 64} {slot slot' : KernelStackSlot} {count count' : Nat}
  {holds holds' : Option (Fin n) → Use → Prop} {cpus cpus' : Fin n → Cpu} {o : Option (Fin n)} {d : Fin n}
  (h : SlotOk i slot count holds cpus)

include h

/-- A loose hold shows that nobody executes on the stack. -/
theorem SlotOk.unused
    (hu : holds o u) (hloose : u.loose = true) (c : Fin n) : (cpus c).stack ≠ .slot i :=
  fun hc => not_mine_of_loose hloose (h.mine c hc o u hu)

/-- A CPU on the stack of a thread executes that thread. -/
theorem SlotOk.runs {id : ThreadId}
    (hu : holds o (.thread id)) (hd : (cpus d).stack = .slot i) : (cpus d).running = some id := by
  simpa [Mine] using h.mine d hd o _ hu

/-- A CPU on a parked stack has parked it. -/
theorem SlotOk.parks
    (hu : holds o .parked) (hd : (cpus d).stack = .slot i) : o = some d := by
  simpa [Mine] using h.mine d hd o _ hu

/-- Holds may go away, even if the slot is then never used again, and a loose hold may change hands. -/
theorem SlotOk.relabel (hsame : SameStacks cpus cpus') (hcount : count' ≤ count)
    (hholds : ∀ o u, holds' o u → ∃ o', holds o' u ∧ (o' = o ∨ u.loose = true)) :
    SlotOk i slot count' holds' cpus' where
  single := Nat.le_trans hcount h.single
  fits := by
    intro o u hu
    obtain ⟨o', hold, -⟩ := hholds o u hu
    exact h.fits o' u hold
  empty := by
    intro hmark
    obtain ⟨hzero, hpages⟩ := h.empty hmark
    exact ⟨by omega, hpages⟩
  pages := fun c hc => h.pages c ((hsame c).1 ▸ hc)
  mine := by
    intro c hc o u hu
    rw [(hsame c).1] at hc
    rw [(hsame c).2]
    obtain ⟨o', hold, rfl | hloose⟩ := hholds o u hu
    · exact h.mine c hc o' u hold
    · exact absurd hc (h.unused hold hloose c)
  alone := fun c d hc hd => h.alone c d ((hsame c).1 ▸ hc) ((hsame d).1 ▸ hd)

theorem SlotOk.mono (hsame : SameStacks cpus cpus')
    (hcount : count' ≤ count) (hholds : ∀ o u, holds' o u → holds o u) : SlotOk i slot count' holds' cpus' :=
  h.relabel hsame hcount fun o u hu => ⟨o, hholds o u hu, .inl rfl⟩

/-- The slot gets its only hold. -/
theorem SlotOk.take (hsame : SameStacks cpus cpus')
    (hcount : count' ≤ 1) (honly : ∀ o' v, holds' o' v → o' = o ∧ v = u) (hfits : u.Fits slot)
    (hmine : ∀ d, (cpus d).stack = .slot i → Mine d (cpus d).running o u) :
    SlotOk i slot count' holds' cpus' where
  single := hcount
  fits := by
    intro o' v hv
    rw [(honly o' v hv).2]
    exact hfits
  empty := by
    intro hmark
    cases u <;> simp only [Use.Fits, hmark, reduceCtorEq, false_and] at hfits
  pages := fun c hc => h.pages c ((hsame c).1 ▸ hc)
  mine := by
    intro d hd o' v hv
    obtain ⟨rfl, rfl⟩ := honly o' v hv
    rw [(hsame d).2]
    exact hmine d ((hsame d).1 ▸ hd)
  alone := fun c d hc hd => h.alone c d ((hsame c).1 ▸ hc) ((hsame d).1 ▸ hd)

end OneSlot

/-! ## The invariant -/

/-- The stack that the operation retires. -/
def StackOp.parks : StackOp → Option StackBase
  | .retire base => some base
  | .swap base => some base
  | _ => none

/-- The stack that the frame parks. -/
def Frame.parks : Frame → Option StackBase
  | .stack op => op.parks
  | _ => none

/-- The stack that the mode parks. -/
def Mode.parks : Mode → Option StackBase
  | .exitStack op _ _ => op.parks
  | _ => none

/-- A hold of a frame that does not retire is loose. -/
theorem Frame.loose_of_hold {i : Fin 64} (h : f.hold = some (u, i)) (hparks : f.parks = none) :
    u.loose = true := by
  cases f with
  | stack op =>
    cases op with
    | retire base | swap base => cases hparks
    | free base =>
      cases base with
      | outside => cases h
      | slot j =>
        cases h
        rfl
    | release j =>
      cases h
      rfl
  | mapStack j spec =>
    cases h
    rfl
  | spawn base spec =>
    cases base with
    | outside => cases h
    | slot j =>
      cases h
      rfl
  | _ => cases h

/-- Code that halts or switches for good before it reclaims a stack or returns. -/
def doomed : List Frame → Bool
  | .terminateSelf _ _ :: _ => true
  | .exit _ .remove :: _ => true
  | .exit _ .halt :: _ => true
  | .stack _ :: rest => doomed rest
  | .yieldNow :: rest => doomed rest
  | .restoreInterrupts _ :: rest => doomed rest
  | _ => false

/-- Whatever retires the stack of the CPU is followed by code that does not come back to it. -/
def Followed : List Frame → Prop
  | [] => True
  | f :: rest => (f.parks.isSome = true → doomed rest = true) ∧ Followed rest

/-- The end of `exit_current_task` that runs as a mode. -/
def Mode.exiting : Mode → Bool
  | .select (.exit _ _) => true
  | .exitRead _ _ _ => true
  | .exitRemove _ _ _ _ => true
  | .exitStack _ _ _ => true
  | _ => false

/-- What a CPU keeps about its own stack. -/
structure CpuStackInv (q : Queue n) (retired : Option StackBase) (cpu : Cpu) : Prop where
  /-- Only the stack it executes on is retired, and only after its thread left the queue. -/
  own : ∀ f ∈ cpu.code, ∀ base, f.parks = some base →
    cpu.stack = base ∧ ∀ slot t, q.threads slot = some t → cpu.running ≠ some t.id
  ownMode : ∀ base, cpu.mode.parks = some base → cpu.stack = base
  followed : Followed cpu.code
  exiting : cpu.mode.exiting = true → doomed cpu.code = true
  /-- The stack read for the exiting thread is still that thread's. -/
  base : ∀ id base x slot, cpu.mode = .exitRemove id (some base) x slot →
    ∃ i t, q.threads i = some t ∧ t.id = id ∧ t.kernelStack = base
  /-- A CPU on a stack it has retired does not come back to code that reclaims it. -/
  retired : ∀ i, retired = some (.slot i) → cpu.stack = .slot i → doomed cpu.code = true ∨
    ∃ new, cpu.mode = .load new

section Invariant

variable (q : Queue n) (cpus : Fin n → Cpu) (retired : Fin n → Option StackBase)
  (slots : Fin 64 → KernelStackSlot)

/-- Slot `i` in the state. -/
abbrev SlotInv (i : Fin 64) : Prop :=
  SlotOk i (slots i) (holders q.threads cpus retired i) (fun o u => Holds q.threads cpus retired o u i) cpus

/-- A thread that somebody is about to remove runs on no CPU. -/
def Unrun (id : ThreadId) : Prop :=
  ∀ slot t, q.threads slot = some t → t.id = id → ∀ c, (cpus c).running ≠ some id

/-- The invariant of the kernel stacks. -/
structure StackInv : Prop where
  slot : ∀ i, SlotInv q cpus retired slots i
  cpu : ∀ c, CpuStackInv q (retired c) (cpus c)
  context : ∀ slot t, q.threads slot = some t → t.context.saved = true → ∀ f ∈ t.context.code, f.parks = none
  unrun : ∀ id, HasFrame q cpus (.terminateRemove id) → Unrun q cpus id
  boot : ∀ c, (cpus c).running = none → (cpus c).stack = .outside

end Invariant

/-- The state satisfies the invariant of the kernel stacks. -/
abbrev State.Stacked (s : State n) : Prop := StackInv s.queue s.cpus s.retired s.kstackSlots

/-! ## Queues that lose threads -/

/-- Every thread of `q'` is in `q`, with the same stack and context. -/
def Shrinks (q q' : Queue n) : Prop :=
  ∀ slot t', q'.threads slot = some t' → ∃ t, q.threads slot = some t ∧ t'.id = t.id ∧
    t'.kernelStack = t.kernelStack ∧ t'.context = t.context

/-- The stack that CPU `cpu` has read for its exiting thread is still the stack of that thread in `q`. -/
def KeepsBase (q : Queue n) (cpu : Cpu) : Prop :=
  ∀ id base x slot, cpu.mode = .exitRemove id (some base) x slot →
    ∃ i t, q.threads i = some t ∧ t.id = id ∧ t.kernelStack = base

section Shrink

variable {q q' : Queue n} {cpus : Fin n → Cpu} {retired : Fin n → Option StackBase} {c : Fin n}
  {cpu : Cpu} {i : Fin 64} {o : Option (Fin n)} {u : Use} {id : ThreadId}

theorem Shrinks.refl {q : Queue n} : Shrinks q q := fun _ t ht => ⟨t, ht, rfl, rfl, rfl⟩

/-- The same thread with the same stack and context. -/
def SameStack (t t' : Thread (Fin n) Context) : Prop :=
  t'.id = t.id ∧ t'.kernelStack = t.kernelStack ∧ t'.context = t.context

theorem sameStack_of_sameThread {x y : Option (Thread (Fin n) Context)} (h : Option.Rel SameThread x y) :
    Option.Rel SameStack x y := by
  cases h with
  | none => exact .none
  | some hsame => exact .some ⟨hsame.id, hsame.kernelStack, hsame.context⟩

/-- Every slot holds the thread it held, with the same stack and context. -/
def Persists (q q' : Queue n) : Prop := ∀ slot, Option.Rel SameStack (q.threads slot) (q'.threads slot)

theorem Persists.of_safe (h : q.Safe q') : Persists q q' := fun slot => sameStack_of_sameThread (h.tame slot)

theorem Persists.of_select
    (h : Selected q q' c id slot t t') : Persists q q' := by
  intro i
  by_cases hi : i = slot
  · subst hi
    rw [h.before, h.after]
    exact .some ⟨h.same.1, h.same.2.2.2, h.same.2.2.1⟩
  · exact sameStack_of_sameThread (h.others i hi)

theorem Persists.shrinks (h : Persists q q') : Shrinks q q' := by
  intro slot t' ht'
  have hs := h slot
  rw [ht'] at hs
  generalize q.threads slot = x at hs ⊢
  cases hs with
  | some hsame => exact ⟨_, rfl, hsame⟩

theorem KeepsBase.persists (hb : KeepsBase q cpu) (h : Persists q q') : KeepsBase q' cpu := by
  intro id base x slot hmode
  obtain ⟨i, t, ht, hid, hstack⟩ := hb id base x slot hmode
  have hs := h i
  rw [ht] at hs
  generalize hx : q'.threads i = x at hs
  cases hs with
  | some hsame => exact ⟨i, _, hx, hsame.1.trans hid, hsame.2.1.trans hstack⟩

theorem Shrinks.threadHolds_le (h : Shrinks q q') (i : Fin 64) (slot : Slot) :
    threadHolds i (q'.threads slot) ≤ threadHolds i (q.threads slot) := by
  cases ht' : q'.threads slot with
  | none => exact Nat.zero_le _
  | some t' =>
    obtain ⟨t, ht, hid, hstack, hctx⟩ := h slot t' ht'
    rw [ht]
    simp only [threadHolds, hid, hstack, hctx]
    exact Nat.le_refl _

theorem Shrinks.holders_le (h : Shrinks q q') (cpus : Fin n → Cpu) (retired : Fin n → Option StackBase)
    (i : Fin 64) : holders q'.threads cpus retired i ≤ holders q.threads cpus retired i := by
  have hle : total (threadHolds i) q'.threads ≤ total (threadHolds i) q.threads :=
    total_mono (h.threadHolds_le i)
  unfold holders
  omega

theorem Shrinks.holds (h : Shrinks q q') (hh : Holds q'.threads cpus retired o u i) :
    Holds q.threads cpus retired o u i := by
  cases hh with
  | thread ht hk =>
    obtain ⟨t, ht, hid, hstack, -⟩ := h _ _ ht
    rw [hid]
    exact .thread ht (hstack ▸ hk)
  | context ht hsaved hf hhold =>
    obtain ⟨t, ht, -, -, hctx⟩ := h _ _ ht
    rw [hctx] at hsaved hf
    exact .context ht hsaved hf hhold
  | code hf hhold => exact .code hf hhold
  | mode hhold => exact .mode hhold
  | retired hr => exact .retired hr

theorem Shrinks.hasFrame (h : Shrinks q q') (hf : HasFrame q' cpus f) : HasFrame q cpus f := by
  rcases hf with hcpu | ⟨slot, t', ht', hsaved, hmem⟩
  · exact .inl hcpu
  · obtain ⟨t, ht, -, -, hctx⟩ := h slot t' ht'
    rw [hctx] at hsaved hmem
    exact .inr ⟨slot, t, ht, hsaved, hmem⟩

theorem Shrinks.unrun (h : Shrinks q q') (hu : Unrun q cpus id) : Unrun q' cpus id := by
  intro slot t' ht' heq
  obtain ⟨t, ht, hid, -, -⟩ := h slot t' ht'
  exact hu slot t ht (hid.symm.trans heq)

theorem CpuStackInv.shrink {r : Option StackBase} (h : CpuStackInv q r cpu) (hq : Shrinks q q')
    (hb : KeepsBase q' cpu) : CpuStackInv q' r cpu where
  own := by
    intro f hf base hbase
    obtain ⟨hstack, hgone⟩ := h.own f hf base hbase
    refine ⟨hstack, fun slot t' ht' => ?_⟩
    obtain ⟨t, ht, hid, -, -⟩ := hq slot t' ht'
    rw [hid]
    exact hgone slot t ht
  ownMode := h.ownMode
  followed := h.followed
  exiting := h.exiting
  base := hb
  retired := h.retired

end Shrink

/-! ## Changing hands -/

/-- All slots. -/
abbrev SlotsInv (q : Queue n) (cpus : Fin n → Cpu) (retired : Fin n → Option StackBase)
    (slots : Fin 64 → KernelStackSlot) : Prop :=
  ∀ i, SlotInv q cpus retired slots i

/-- The hold is in the code or the mode of the CPU. -/
def Cpu.HasHold (cpu : Cpu) (u : Use) (i : Fin 64) : Prop :=
  (∃ f ∈ cpu.code, f.hold = some (u, i)) ∨ cpu.mode.hold = some (u, i)

/-- The holds of a CPU, each as often as it has it. -/
def Cpu.held (cpu : Cpu) : List (Use × Fin 64) := cpu.code.filterMap Frame.hold ++ cpu.mode.hold.toList

section Hands

variable {q q' : Queue n} {cpus : Fin n → Cpu} {retired : Fin n → Option StackBase}
  {slots : Fin 64 → KernelStackSlot} {c : Fin n} {cpu old : Cpu} {j i : Fin 64} {u : Use}

theorem Cpu.mem_held : (u, i) ∈ cpu.held ↔ cpu.HasHold u i := by
  simp [Cpu.held, Cpu.HasHold]

theorem cpuHolds_eq (i : Fin 64) (cpu : Cpu) : cpuHolds i cpu = cpu.held.countP fun x => x.2 = i := by
  have hweight : ∀ x : Option (Use × Fin 64), weight i x = x.toList.countP fun x => x.2 = i := by
    intro x
    cases x with
    | none => rfl
    | some x => simp [weight, List.countP_singleton]
  rw [cpuHolds, Cpu.held, List.countP_append, hweight]
  congr 1
  induction cpu.code with
  | nil => rfl
  | cons f code ih =>
    rw [codeHolds_cons, ih, hweight, List.filterMap_cons]
    cases f.hold with
    | none => simp
    | some x => simp [List.countP_cons, Nat.add_comm]

theorem Cpu.HasHold.holds (h : (cpus c).HasHold u i) : Holds q.threads cpus retired (some c) u i := by
  rcases h with ⟨f, hf, hfh⟩ | hmode
  · exact .code hf hfh
  · exact .mode hmode

theorem not_holds_of_free (hfree : holders q.threads cpus retired j = 0) :
    ¬ Holds q.threads cpus retired o u j := by
  intro h
  have := h.pos
  omega

variable (h : SlotsInv q cpus retired slots)
  (hc : cpus c = old) (hstack : cpu.stack = old.stack) (hrun : cpu.running = old.running)
include h

/-- Threads leave the queue. -/
theorem SlotsInv.shrink (hq : Shrinks q q') : SlotsInv q' cpus retired slots :=
  fun i => (h i).mono .refl (hq.holders_le cpus retired i) fun _ _ hu => hq.holds hu

/-- The retirement cell of a CPU is emptied, or gets a stack that is not from the arena. -/
theorem SlotsInv.clearRetired (c : Fin n)
    (hbase : base.bind (StackBase.hold .parked) = none) : SlotsInv q cpus (update retired c base) slots := by
  intro i
  refine (h i).mono .refl ?_ ?_
  · have := holders_setRetired q.threads cpus retired i c base
    simp only [retiredHolds, hbase, weight_none] at this
    omega
  · intro o u hu
    rcases hu.of_setRetired with hold | ⟨-, -, rfl⟩
    · exact hold
    · cases hbase

include hc hstack hrun in
/-- A CPU drops holds. -/
theorem SlotsInv.drop
    (hheld : cpu.held.Subperm old.held) : SlotsInv q (update cpus c cpu) retired slots := by
  subst hc
  intro i
  refine (h i).mono (SameStacks.update hstack hrun) ?_ ?_
  · have hcpu := holders_setCpu q.threads cpus retired i c cpu
    have hle := hheld.countP_le fun x => x.2 = i
    rw [← cpuHolds_eq, ← cpuHolds_eq] at hle
    omega
  · intro o u hu
    rcases hu.of_setCpu with hbefore | ⟨rfl, hnew⟩
    · exact hbefore
    · exact (Cpu.mem_held.mp (hheld.subset (Cpu.mem_held.mpr hnew))).holds

/-- A slot that nobody holds gets a new mark. -/
theorem SlotsInv.setSlot (hfree : holders q.threads cpus retired j = 0) {slot : KernelStackSlot}
    (hempty : slot.mark = .empty → slot.pages = false)
    (hpages : ∀ d, (cpus d).stack = .slot j → slot.pages = true) :
    SlotsInv q cpus retired (update slots j slot) := by
  intro i
  by_cases hi : i = j
  · subst hi
    show SlotOk i (update slots i slot i) _ _ _
    rw [update_self]
    exact ⟨by omega, fun o u hu => absurd hu (not_holds_of_free hfree), fun hmark => ⟨hfree, hempty hmark⟩,
      hpages, fun _ _ o u hu => absurd hu (not_holds_of_free hfree), (h i).alone⟩
  · show SlotOk i (update slots j slot i) _ _ _
    rw [update_of_ne hi]
    exact h i

include hc hstack hrun in
/-- **A CPU takes hold of a slot that nobody holds.** -/
theorem SlotsInv.give
    (hfree : holders q.threads cpus retired j = 0) (hheld : cpu.held.Subperm ((u, j) :: old.held))
    (hfits : u.Fits (slots j)) (hmine : ∀ d, (cpus d).stack = .slot j → Mine d (cpus d).running (some c) u) :
    SlotsInv q (update cpus c cpu) retired slots := by
  subst hc
  intro i
  have hsame := SameStacks.update hstack hrun
  have hcpu := holders_setCpu q.threads cpus retired i c cpu
  have hle := hheld.countP_le fun x => x.2 = i
  rw [List.countP_cons, ← cpuHolds_eq, ← cpuHolds_eq] at hle
  have hold : ∀ o v, Holds q.threads (update cpus c cpu) retired o v i →
      Holds q.threads cpus retired o v i ∨ o = some c ∧ (v, i) = (u, j) := by
    intro o v hv
    rcases hv.of_setCpu with hbefore | ⟨rfl, hhas⟩
    · exact .inl hbefore
    · rcases List.mem_cons.mp (hheld.subset (Cpu.mem_held.mpr hhas)) with heq | hmem
      · exact .inr ⟨rfl, heq⟩
      · exact .inl (Cpu.mem_held.mp hmem).holds
  by_cases hi : i = j
  · subst hi
    simp only [decide_true, if_true] at hle
    refine (h i).take hsame (by omega) ?_ hfits hmine
    intro o v hv
    rcases hold o v hv with hbefore | ⟨ho, heq⟩
    · exact absurd hbefore (not_holds_of_free hfree)
    · exact ⟨ho, congrArg Prod.fst heq⟩
  · rw [if_neg (by simpa using Ne.symm hi)] at hle
    refine (h i).mono hsame (by omega) fun o v hv => ?_
    exact (hold o v hv).resolve_right fun hnew => hi (congrArg Prod.snd hnew.2)

/-- A CPU retires a stack that nobody holds; its cell was empty. -/
theorem SlotsInv.giveRetired (hfree : holders q.threads cpus retired j = 0) (hcell : retired c = none)
    (hfits : Use.parked.Fits (slots j)) (hmine : ∀ d, (cpus d).stack = .slot j → d = c) :
    SlotsInv q cpus (update retired c (some (.slot j))) slots := by
  intro i
  have hcount := holders_setRetired q.threads cpus retired i c (some (.slot j))
  rw [hcell] at hcount
  by_cases hi : i = j
  · subst hi
    have hone : retiredHolds i (some (.slot i)) = 1 := weight_self rfl
    refine (h i).take .refl (by omega) ?_ hfits fun d hd => .inr ⟨rfl, by rw [hmine d hd]⟩
    intro o v hv
    rcases hv.of_setRetired with hbefore | ⟨ho, hv, -⟩
    · exact absurd hbefore (not_holds_of_free hfree)
    · exact ⟨ho, hv⟩
  · have hzero : retiredHolds i (some (.slot j)) = 0 := if_neg fun hji => hi hji.symm
    refine (h i).mono .refl (by omega) ?_
    intro o v hv
    rcases hv.of_setRetired with hbefore | ⟨-, -, hij⟩
    · exact hbefore
    · cases hij
      exact absurd rfl hi

/-- A new thread takes over a stack that nobody holds and nobody executes on. -/
theorem SlotsInv.giveThread {free : Slot} (hslot : q.threads free = none)
    (hthreads : q'.threads = update q.threads free (some t)) (hcode : t.context.code = [])
    (hgood : ∀ j, t.kernelStack = .slot j → holders q.threads cpus retired j = 0 ∧
      (Use.thread t.id).Fits (slots j) ∧ ∀ d, (cpus d).stack ≠ .slot j) : SlotsInv q' cpus retired slots := by
  have hold : ∀ o v i, Holds q'.threads cpus retired o v i →
      Holds q.threads cpus retired o v i ∨ (o = none ∧ v = .thread t.id) ∧ t.kernelStack = .slot i := by
    intro o v i hv
    rw [hthreads] at hv
    rcases hv.of_setThread with hold | ⟨ho, ⟨hv, hk⟩ | ⟨-, f, hf, -⟩⟩
    · rw [← hslot, update_eq_self] at hold
      exact .inl hold
    · exact .inr ⟨⟨ho, hv⟩, hk⟩
    · rw [hcode] at hf
      cases hf
  intro i
  have hcount := holders_setThread q.threads cpus retired i free (some t)
  rw [← hthreads, hslot] at hcount
  simp only [threadHolds, hcode, codeHolds_nil, ite_self, Nat.add_zero] at hcount
  by_cases hi : t.kernelStack = .slot i
  · obtain ⟨hfree, hfits, hunused⟩ := hgood i hi
    have hone := weight_le_one i (t.kernelStack.hold (.thread t.id))
    refine (h i).take (o := none) .refl (by omega) ?_ hfits fun d hd => absurd hd (hunused d)
    intro o v hv
    rcases hold o v i hv with hbefore | ⟨honly, -⟩
    · exact absurd hbefore (not_holds_of_free hfree)
    · exact honly
  · have hzero : weight i (t.kernelStack.hold (.thread t.id)) = 0 := by
      cases hk : t.kernelStack with
      | outside => rfl
      | slot j => exact if_neg fun hji => hi (by rw [hk, hji])
    refine (h i).mono .refl (by omega) ?_
    intro o v hv
    rcases hold o v i hv with hbefore | ⟨-, hstack⟩
    · exact hbefore
    · exact absurd hstack hi

end Hands

/-! ## A step of one CPU -/

theorem StackInv.shrink_context {q q' : Queue n}
    (h : StackInv q cpus retired slots) (hq : Shrinks q q')
    (ht' : q'.threads slot = some t') (hsaved : t'.context.saved = true) :
    ∀ f ∈ t'.context.code, f.parks = none := by
  obtain ⟨t, ht, -, -, hctx⟩ := hq slot t' ht'
  rw [hctx] at hsaved ⊢
  exact h.context slot t ht hsaved

/-- **A step of CPU `c`** that makes no thread and switches to none: what has to be shown is the state of
    the slots and of the CPU itself. -/
theorem StackInv.step {q q' : Queue n} {retired' : Fin n → Option StackBase}
    {slots' : Fin 64 → KernelStackSlot} (h : StackInv q cpus retired slots) (hq : Shrinks q q')
    (hkeep : ∀ d, d ≠ c → KeepsBase q' (cpus d)) (hret : ∀ d, d ≠ c → retired' d = retired d)
    (hrun : cpu.running = (cpus c).running) (hstack : cpu.stack = (cpus c).stack)
    (hslot : ∀ i, SlotInv q' (update cpus c cpu) retired' slots' i) (hcpu : CpuStackInv q' (retired' c) cpu)
    (hunrun : ∀ id, .terminateRemove id ∈ cpu.code → Unrun q' cpus id) :
    StackInv q' (update cpus c cpu) retired' slots' where
  slot := hslot
  cpu := by
    intro d
    by_cases hd : d = c
    · subst hd
      rw [update_self]
      exact hcpu
    · rw [update_of_ne hd, hret d hd]
      exact (h.cpu d).shrink hq (hkeep d hd)
  context := fun _ _ => h.shrink_context hq
  unrun := by
    intro id hf slot t ht heq d
    rw [(SameStacks.update hstack hrun d).2]
    rcases hf with ⟨e, he⟩ | hctx
    · rcases of_update (P := fun x : Cpu => .terminateRemove id ∈ x.code) he with ⟨rfl, hnew⟩ | ⟨-, he⟩
      · exact hunrun id hnew slot t ht heq d
      · exact hq.unrun (h.unrun id (.inl ⟨e, he⟩)) slot t ht heq d
    · exact hq.unrun (h.unrun id (hq.hasFrame (.inr hctx))) slot t ht heq d
  boot := by
    intro d hd
    rw [(SameStacks.update hstack hrun d).2] at hd
    rw [(SameStacks.update hstack hrun d).1]
    exact h.boot d hd

/-- The invariant does not see what the queue does between the steps of the CPUs. -/
theorem StackInv.persists {q q' : Queue n} (h : StackInv q cpus retired slots) (hq : Persists q q') :
    StackInv q' cpus retired slots where
  slot := SlotsInv.shrink h.slot hq.shrinks
  cpu := fun d => (h.cpu d).shrink hq.shrinks (KeepsBase.persists (h.cpu d).base hq)
  context := fun _ _ => h.shrink_context hq.shrinks
  unrun := fun id hf => hq.shrinks.unrun (h.unrun id (hq.shrinks.hasFrame hf))
  boot := h.boot

end Mnu.Task
