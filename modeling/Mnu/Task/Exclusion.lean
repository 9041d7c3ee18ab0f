import Mnu.Task.Machine
import Mnu.Task.QueueInv

/-!
# `Mnu.Task.Exclusion` — a thread runs on one CPU at a time

A thread becomes ready again before its registers are saved, so between the selection of its successor
and the end of the switch it is in the queue, marked ready, and still running. What keeps every other
CPU from taking it is its affinity: the CPU that first selected it owns it, and no other CPU selects it.

The invariant has one part for each CPU (`CpuInv`): the thread it runs, and the thread it is about to
switch to, are its own; while it is switching, the slots it will write and read still hold the two
threads. The other parts say that contexts in the queue are saved unless a CPU runs the thread
(`Inv.saved`), and that a thread somebody is about to remove is announced by no CPU (`Inv.gone`).

An operation on the queue keeps all of this if it keeps every old thread in its slot with its owner
(`Evolves`); `CpuInv.evolve` is that argument, made once.
-/

namespace Mnu.Task

open Lib ThreadQueue Function

variable {n : Nat} {mode : Mode} {new : Slot}

/-- The queue of the machine. -/
abbrev Queue (n : Nat) := ThreadQueue (Fin n) Context

/-! ## The invariant -/

/-- A thread that is terminated, or no longer in the queue. -/
def Dead (q : Queue n) (id : ThreadId) : Prop :=
  ∀ slot t, q.threads slot = some t → t.id = id → t.state = .terminated

/-- The thread, if it is in the queue, belongs to CPU `c`. -/
def OwnedBy (q : Queue n) (c : Fin n) (id : ThreadId) : Prop :=
  ∀ slot t, q.threads slot = some t → t.id = id → t.cpuAffinity = some c

/-- The CPU names the thread as the one it runs, switches to or is leaving; `thread_is_cpu_referenced`
    asks this of every CPU. -/
def Announces (cpu : Cpu) (id : ThreadId) : Prop :=
  cpu.current = some id ∨ cpu.switchingFrom = some id

/-- Between the publication of a switch and the load of the new context. -/
def Mode.switching : Mode → Bool
  | .save _ _ => true
  | .load _ => true
  | _ => false

/-- The slot holds the thread CPU `c` is about to resume: its own, announced, saved, not running. -/
structure Incoming (q : Queue n) (c : Fin n) (cpu : Cpu) (new : Slot)
    (t : Thread (Fin n) Context) : Prop where
  here : q.threads new = some t
  announced : cpu.current = some t.id
  owner : t.cpuAffinity = some c
  idle : cpu.running ≠ some t.id
  saved : t.context.saved = true

/-- The slot holds the thread CPU `c` is leaving. -/
structure Outgoing (q : Queue n) (cpu : Cpu) (old : Slot) (t : Thread (Fin n) Context) : Prop where
  here : q.threads old = some t
  running : cpu.running = some t.id
  announced : cpu.switchingFrom = some t.id

/-- A thread CPU `c`, which runs `me`, has selected and not yet switched to. -/
structure Pending (q : Queue n) (next : ThreadId) (c : Fin n) (me : Option ThreadId)
    (id : ThreadId) : Prop where
  fresh : id < next
  owner : OwnedBy q c id
  idle : me ≠ some id

/-- A CPU that runs `me` runs no live thread. -/
def RunsDead (q : Queue n) (me : Option ThreadId) : Prop := ∀ id, me = some id → Dead q id

/-- What holds at each point of the way from a selection to the end of the switch. -/
def ModeInv (q : Queue n) (next : ThreadId) (c : Fin n) (cpu : Cpu) : Mode → Prop
  | .run => True
  | .select .yield => True
  | .select (.exit id _) => cpu.running = some id ∧ RunsDead q cpu.running
  | .exitRead id x _ => cpu.running = some id ∧ RunsDead q cpu.running ∧ Pending q next c cpu.running x
  | .exitRemove id _ x _ => cpu.running = some id ∧ RunsDead q cpu.running ∧ Pending q next c cpu.running x
  | .exitStack _ x _ => RunsDead q cpu.running ∧ Pending q next c cpu.running x
  | .switchTo none x _ _ => RunsDead q cpu.running ∧ Pending q next c cpu.running x
  | .switchTo (some id) x _ _ => cpu.current = some id ∧ Pending q next c cpu.running x
  | .save none new => (∃ t, Incoming q c cpu new t) ∧ RunsDead q cpu.running
  | .save (some old) new => (∃ t, Incoming q c cpu new t) ∧ ∃ t, Outgoing q cpu old t
  | .load new => (∃ t, Incoming q c cpu new t) ∧
      ∀ slot t, q.threads slot = some t → cpu.running = some t.id → t.state ≠ .terminated →
        t.context.saved = true
  | .ack _ => True
  | .halt _ => True
  | .wild => False
  | .offline => cpu.running = none ∧ cpu.current = none

/-- What a frame on CPU `c`, which runs thread `me`, may assume. -/
def FrameInv (q : Queue n) (next : ThreadId) (c : Fin n) (me : Option ThreadId) : Frame → Prop
  | .terminate id => id < next
  | .terminateRemove id => id < next
  | .exitProcess id => me = some id
  | .exit id .begin => me = some id
  | .exit id .setTerminated => me = some id
  | .exit id _ => me = some id ∧ Dead q id
  | .terminateSelf id _ => me = some id ∧ Dead q id
  | .apStart id _ _ => me = none ∧ id < next ∧ OwnedBy q c id
  | .allocate spec => spec.kind = .idle → me = none
  | .mapStack _ spec => spec.kind = .idle → me = none
  | .spawn _ spec => spec.kind = .idle → me = none
  | _ => True

/-- The invariant of one CPU. -/
structure CpuInv (q : Queue n) (next : ThreadId) (c : Fin n) (cpu : Cpu) : Prop where
  fresh : ∀ id, cpu.running = some id → id < next
  owner : ∀ id, cpu.running = some id → OwnedBy q c id
  /-- A live thread that is running is announced, except during the switch away from it. -/
  marked : ∀ id, cpu.running = some id → cpu.mode.switching = false → Dead q id ∨ cpu.current = some id
  current : ∀ id, cpu.current = some id → cpu.mode.switching = false → cpu.running = some id
  stack : ∀ slot t, q.threads slot = some t → cpu.running = some t.id → cpu.stack = t.kernelStack
  mode : ModeInv q next c cpu cpu.mode
  frames : ∀ f ∈ cpu.code, FrameInv q next c cpu.running f

/-- The invariant of a saved context: it can be resumed on any CPU. -/
structure CtxInv (q : Queue n) (next : ThreadId) (t : Thread (Fin n) Context) : Prop where
  stack : t.context.stack = t.kernelStack
  frames : ∀ f ∈ t.context.code, ∀ c, FrameInv q next c (some t.id) f

/-- A frame that some CPU, or some thread when it is resumed, will run. -/
def HasFrame (q : Queue n) (cpus : Fin n → Cpu) (f : Frame) : Prop :=
  (∃ c, f ∈ (cpus c).code) ∨ ∃ slot t, q.threads slot = some t ∧ t.context.saved = true ∧ f ∈ t.context.code

/-- If the thread is still in the queue then it is terminated and no CPU announces it. -/
def Retired (q : Queue n) (cpus : Fin n → Cpu) (id : ThreadId) : Prop :=
  ∀ slot t, q.threads slot = some t → t.id = id → t.state = .terminated ∧ ∀ c, ¬ Announces (cpus c) id

/-- The invariant of the machine. -/
structure Inv (q : Queue n) (cpus : Fin n → Cpu) (next : ThreadId) : Prop where
  wf : q.Wf
  fresh : ∀ slot t, q.threads slot = some t → t.id < next
  cpu : ∀ c, CpuInv q next c (cpus c)
  ctx : ∀ slot t, q.threads slot = some t → t.context.saved = true → CtxInv q next t
  exclusive : ∀ c d id, (cpus c).running = some id → (cpus d).running = some id → c = d
  saved : ∀ slot t, q.threads slot = some t → t.state ≠ .terminated → t.context.saved = false →
    ∃ c, (cpus c).running = some t.id
  gone : ∀ id, HasFrame q cpus (.terminateRemove id) → id < next ∧ Retired q cpus id

theorem Inv.modeInv {q : Queue n} {cpus : Fin n → Cpu} {next : ThreadId} (h : Inv q cpus next) {c : Fin n}
    (hmode : (cpus c).mode = mode) : ModeInv q next c (cpus c) mode :=
  hmode ▸ (h.cpu c).mode

/-! ## Evolving queues -/

/-- `t'` is the old thread `t` with the same owner and stack, and dead if `t` was. -/
structure Keeps (t t' : Thread (Fin n) Context) : Prop where
  id : t'.id = t.id
  owner : ∀ c, t.cpuAffinity = some c → t'.cpuAffinity = some c
  stack : t'.kernelStack = t.kernelStack
  dead : t.state = .terminated → t'.state = .terminated

theorem Keeps.refl {t : Thread (Fin n) Context} : Keeps t t := ⟨rfl, fun _ hc => hc, rfl, fun hd => hd⟩

/-- Every thread older than `next` that is still in the queue is where it was, and its context is saved if
    it was, unless it is the one in the slot `loaded`. -/
def Evolves (loaded : Option Slot) (next : ThreadId) (q q' : Queue n) : Prop :=
  ∀ slot t', q'.threads slot = some t' → t'.id < next → ∃ t, q.threads slot = some t ∧ Keeps t t' ∧
      (loaded ≠ some slot → t.context.saved = true → t'.context.saved = true)

/-- The thread in the slot stays there, saved if it was. -/
def Stays (q q' : Queue n) (slot : Slot) : Prop :=
  ∀ t, q.threads slot = some t →
    ∃ t', q'.threads slot = some t' ∧ Keeps t t' ∧ (t.context.saved = true → t'.context.saved = true)

/-- The slots a CPU will write to or read from before its switch is over. -/
def Mode.slots : Mode → List Slot
  | .save none new => [new]
  | .save (some old) new => [old, new]
  | .load new => [new]
  | _ => []

section Evolve

variable {q q' : Queue n} {next next' : ThreadId} {loaded : Option Slot}
  {c : Fin n} {cpu : Cpu} {id : ThreadId}
  {cpus : Fin n → Cpu} {f : Frame}

/-- Only the boot frames of a processor are bound to it, and no thread has those. -/
theorem FrameInv.anywhere (h : FrameInv q next c (some id) f) (d : Fin n) :
    FrameInv q next d (some id) f := by
  cases f with
  | exit id pc => cases pc <;> exact h
  | apStart id slot pc => cases h.1
  | _ => exact h

theorem Incoming.stays (h : ∃ t, Incoming q c cpu new t) (hS : Stays q q' new) :
    ∃ t, Incoming q' c cpu new t := by
  obtain ⟨t, ht⟩ := h
  obtain ⟨t', ht', hk, hsaved⟩ := hS t ht.here
  exact ⟨t', ht', by rw [hk.id]; exact ht.announced, hk.owner c ht.owner, by rw [hk.id]; exact ht.idle,
    hsaved ht.saved⟩

theorem Outgoing.stays {old : Slot} (h : ∃ t, Outgoing q cpu old t) (hS : Stays q q' old) :
    ∃ t, Outgoing q' cpu old t := by
  obtain ⟨t, ht⟩ := h
  obtain ⟨t', ht', hk, _⟩ := hS t ht.here
  exact ⟨t', ht', by rw [hk.id]; exact ht.running, by rw [hk.id]; exact ht.announced⟩

section Evolution

variable (hE : Evolves loaded next q q') {me : Option ThreadId}
include hE

theorem Dead.evolve (h : Dead q id) (hid : id < next) : Dead q' id := by
  intro slot t' ht' heq
  obtain ⟨t, ht, hk, _⟩ := hE slot t' ht' (heq ▸ hid)
  exact hk.dead (h slot t ht (hk.id.symm.trans heq))

theorem OwnedBy.evolve (h : OwnedBy q c id) (hid : id < next) : OwnedBy q' c id := by
  intro slot t' ht' heq
  obtain ⟨t, ht, hk, _⟩ := hE slot t' ht' (heq ▸ hid)
  exact hk.owner c (h slot t ht (hk.id.symm.trans heq))

theorem Retired.evolve {cpus : Fin n → Cpu} (h : Retired q cpus id) (hid : id < next) :
    Retired q' cpus id := by
  intro slot t' ht' heq
  obtain ⟨t, ht, hk, _⟩ := hE slot t' ht' (heq ▸ hid)
  obtain ⟨hdead, hann⟩ := h slot t ht (hk.id.symm.trans heq)
  exact ⟨hk.dead hdead, hann⟩

theorem FrameInv.evolve {f : Frame} (h : FrameInv q next c me f)
     (hle : next ≤ next') (hme : ∀ id, me = some id → id < next) :
    FrameInv q' next' c me f := by
  cases f with
  | terminate id | terminateRemove id => exact Nat.lt_of_lt_of_le h hle
  | exit id pc =>
    cases pc with
    | begin | setTerminated => exact h
    | clear | select | remove | halt => exact ⟨h.1, h.2.evolve hE (hme id h.1)⟩
  | terminateSelf id pc => exact ⟨h.1, h.2.evolve hE (hme id h.1)⟩
  | apStart id slot pc => exact ⟨h.1, Nat.lt_of_lt_of_le h.2.1 hle, h.2.2.evolve hE h.2.1⟩
  | _ => exact h

theorem Pending.evolve (h : Pending q next c me id) (hle : next ≤ next') : Pending q' next' c me id :=
  ⟨Nat.lt_of_lt_of_le h.fresh hle, h.owner.evolve hE h.fresh, h.idle⟩

theorem ModeInv.evolve (h : ModeInv q next c cpu mode)
    (hle : next ≤ next') (hfresh : ∀ id, cpu.running = some id → id < next)
    (hS : ∀ slot ∈ mode.slots, Stays q q' slot)
    (hL : ∀ slot t, loaded = some slot → q.threads slot = some t → cpu.running ≠ some t.id) :
    ModeInv q' next' c cpu mode := by
  have hdead : RunsDead q cpu.running → RunsDead q' cpu.running := fun h id hid =>
    (h id hid).evolve hE (hfresh id hid)
  cases mode with
  | run | ack b | halt r => trivial
  | select purpose =>
    cases purpose with
    | yield => trivial
    | exit id b => exact ⟨h.1, hdead h.2⟩
  | exitRead id x slot | exitRemove id base x slot => exact ⟨h.1, hdead h.2.1, h.2.2.evolve hE hle⟩
  | exitStack op x slot => exact ⟨hdead h.1, h.2.evolve hE hle⟩
  | switchTo current x slot after =>
    cases current with
    | none => exact ⟨hdead h.1, h.2.evolve hE hle⟩
    | some id => exact ⟨h.1, h.2.evolve hE hle⟩
  | save old new =>
    cases old with
    | none =>
      exact ⟨Incoming.stays h.1 (hS new (by simp [Mode.slots])), hdead h.2⟩
    | some old =>
      exact ⟨Incoming.stays h.1 (hS new (by simp [Mode.slots])),
        Outgoing.stays h.2 (hS old (by simp [Mode.slots]))⟩
  | load new =>
    refine ⟨Incoming.stays h.1 (hS new (by simp [Mode.slots])), ?_⟩
    intro slot t' ht' hrun halive
    obtain ⟨t, ht, hk, hsaved⟩ := hE slot t' ht' (hfresh _ hrun)
    rw [hk.id] at hrun
    refine hsaved (fun hl => hL slot t hl ht hrun) (h.2 slot t ht hrun ?_)
    exact fun hd => halive (hk.dead hd)
  | wild | offline => exact h

/-- **The invariant of a CPU survives an evolution of the queue** that leaves the threads of its switch
    in their slots and loads nothing that it runs. -/
theorem CpuInv.evolve (h : CpuInv q next c cpu) (hle : next ≤ next')
    (hS : ∀ slot ∈ cpu.mode.slots, Stays q q' slot)
    (hL : ∀ slot t, loaded = some slot → q.threads slot = some t → cpu.running ≠ some t.id) :
    CpuInv q' next' c cpu where
  fresh := fun id hid => Nat.lt_of_lt_of_le (h.fresh id hid) hle
  owner := fun id hid => (h.owner id hid).evolve hE (h.fresh id hid)
  marked := fun id hid hm => (h.marked id hid hm).imp (fun hd => hd.evolve hE (h.fresh id hid)) fun hc => hc
  current := h.current
  stack := by
    intro slot t' ht' hrun
    obtain ⟨t, ht, hk, _⟩ := hE slot t' ht' (h.fresh _ hrun)
    rw [hk.id] at hrun
    rw [h.stack slot t ht hrun, hk.stack]
  mode := h.mode.evolve hE hle h.fresh hS hL
  frames := fun f hf => (h.frames f hf).evolve hE hle h.fresh

end Evolution

/-- What every queue operation does, except saving and loading: old threads keep their contexts, and new
    ones start with an empty one. -/
structure Grows (next : ThreadId) (q q' : Queue n) : Prop where
  old : ∀ slot t', q'.threads slot = some t' → t'.id < next →
    ∃ t, q.threads slot = some t ∧ Keeps t t' ∧ t'.context = t.context
  new : ∀ slot t', q'.threads slot = some t' → next ≤ t'.id →
    t'.context.saved = true ∧ t'.context.stack = t'.kernelStack ∧ t'.context.code = []

theorem Grows.evolves (h : Grows next q q') : Evolves none next q q' := by
  intro slot t' ht' hid
  obtain ⟨t, ht, hk, hctx⟩ := h.old slot t' ht' hid
  exact ⟨t, ht, hk, fun _ hsaved => by rw [hctx]; exact hsaved⟩

theorem Grows.hasFrame (h : Grows next q q') (hf : HasFrame q' cpus f) : HasFrame q cpus f := by
  rcases hf with hcpu | ⟨slot, t', ht', hsaved, hmem⟩
  · exact .inl hcpu
  · rcases Nat.lt_or_ge t'.id next with hid | hid
    · obtain ⟨t, ht, -, hctx⟩ := h.old slot t' ht' hid
      rw [hctx] at hsaved hmem
      exact .inr ⟨slot, t, ht, hsaved, hmem⟩
    · rw [(h.new slot t' ht' hid).2.2] at hmem
      cases hmem

/-- **Queue operations keep the invariant** if the threads that a CPU is switching between stay where they
    are. -/
theorem Inv.queue (h : Inv q cpus next) (hG : Grows next q q') (hw : q'.Wf)
    (hle : next ≤ next') (hfresh : ∀ slot t, q'.threads slot = some t → t.id < next')
    (hS : ∀ c, ∀ slot ∈ (cpus c).mode.slots, Stays q q' slot) : Inv q' cpus next' where
  wf := hw
  fresh := hfresh
  cpu := fun c => (h.cpu c).evolve hG.evolves hle (hS c) fun _ _ hl => nomatch hl
  ctx := by
    intro slot t' ht' hsaved
    rcases Nat.lt_or_ge t'.id next with hid | hid
    · obtain ⟨t, ht, hk, hctx⟩ := hG.old slot t' ht' hid
      rw [hctx] at hsaved
      have hinv := h.ctx slot t ht hsaved
      refine ⟨by rw [hctx, hk.stack]; exact hinv.stack, ?_⟩
      rw [hctx, hk.id]
      intro f hf c
      refine (hinv.frames f hf c).evolve hG.evolves hle ?_
      intro id hid
      cases hid
      exact h.fresh slot t ht
    · obtain ⟨-, hstack, hcode⟩ := hG.new slot t' ht' hid
      refine ⟨hstack, ?_⟩
      rw [hcode]
      intro f hf
      cases hf
  exclusive := h.exclusive
  saved := by
    intro slot t' ht' halive hsaved
    rcases Nat.lt_or_ge t'.id next with hid | hid
    · obtain ⟨t, ht, hk, hctx⟩ := hG.old slot t' ht' hid
      rw [hctx] at hsaved
      rw [hk.id]
      exact h.saved slot t ht (fun hd => halive (hk.dead hd)) hsaved
    · rw [(hG.new slot t' ht' hid).1] at hsaved
      cases hsaved
  gone := by
    intro id hf
    obtain ⟨hid, hret⟩ := h.gone id (hG.hasFrame hf)
    exact ⟨Nat.lt_of_lt_of_le hid hle, hret.evolve hG.evolves hid⟩

end Evolve

/-! ## The queue operations -/

section QueueOps

variable {q q' : Queue n} {cpus : Fin n → Cpu} {next : ThreadId} {c : Fin n} {id : ThreadId} {slot : Slot}

theorem SameThread.keeps {t t' : Thread (Fin n) Context} (h : SameThread t t') : Keeps t t' :=
  ⟨h.id, fun c hc => by rw [h.cpuAffinity]; exact hc, h.kernelStack, h.dead⟩

/-- The thread in a slot that a switching CPU will use is announced and owned by it. -/
theorem CpuInv.of_mem_slots {cpu : Cpu} (h : CpuInv q next c cpu) (hslot : slot ∈ cpu.mode.slots) :
    ∃ t, q.threads slot = some t ∧ Announces cpu t.id ∧ t.cpuAffinity = some c := by
  have hin : ∀ new, (∃ t, Incoming q c cpu new t) →
      ∃ t, q.threads new = some t ∧ Announces cpu t.id ∧ t.cpuAffinity = some c :=
    fun new ⟨t, ht⟩ => ⟨t, ht.here, .inl ht.announced, ht.owner⟩
  have hmode := h.mode
  cases hm : cpu.mode with
  | save old new =>
    rw [hm] at hslot hmode
    cases old with
    | none =>
      rw [List.mem_singleton.mp hslot]
      exact hin new hmode.1
    | some old =>
      rcases List.mem_cons.mp hslot with rfl | hslot
      · obtain ⟨t, ht⟩ := hmode.2
        exact ⟨t, ht.here, .inr ht.announced, h.owner t.id ht.running slot t ht.here rfl⟩
      · rw [List.mem_singleton.mp hslot]
        exact hin new hmode.1
  | load new =>
    rw [hm] at hslot hmode
    rw [List.mem_singleton.mp hslot]
    exact hin new hmode.1
  | _ =>
    rw [hm] at hslot
    cases hslot

variable (h : Inv q cpus next)
include h

/-- Operations that make no thread. -/
theorem Inv.rearrange (hw : q'.Wf) (hold : ∀ slot t', q'.threads slot = some t' →
      ∃ t, q.threads slot = some t ∧ Keeps t t' ∧ t'.context = t.context)
    (hS : ∀ c, ∀ slot ∈ (cpus c).mode.slots, Stays q q' slot) : Inv q' cpus next := by
  have hfresh : ∀ slot t', q'.threads slot = some t' → t'.id < next := by
    intro slot t' ht'
    obtain ⟨t, ht, hk, -⟩ := hold slot t' ht'
    rw [hk.id]
    exact h.fresh slot t ht
  refine h.queue ⟨fun slot t' ht' _ => hold slot t' ht', ?_⟩ hw (Nat.le_refl next) hfresh hS
  intro slot t' ht' hid
  exact absurd (hfresh slot t' ht') (Nat.not_lt.mpr hid)

theorem Inv.safe (hs : q.Safe q') : Inv q' cpus next := by
  refine h.rearrange (hs.wf h.wf) ?_ ?_
  · intro slot t' ht'
    obtain ⟨t, ht, hsame⟩ := hs.tame.backward ht'
    exact ⟨t, ht, hsame.keeps, hsame.context⟩
  · intro c slot _ t ht
    obtain ⟨t', ht', hsame⟩ := hs.tame.forward ht
    exact ⟨t', ht', hsame.keeps, fun hsaved => by rw [hsame.context]; exact hsaved⟩

/-- No CPU is switching from or to the thread. -/
def Free (q : Queue n) (cpus : Fin n → Cpu) (id : ThreadId) : Prop :=
  ∀ d, ∀ slot ∈ (cpus d).mode.slots, ∀ t, q.threads slot = some t → t.id ≠ id

theorem Inv.remove (hfree : Free q cpus id) : Inv (q.remove id).1 cpus next := by
  refine h.rearrange (remove_wf h.wf id) ?_ ?_
  · intro slot t' ht'
    obtain ⟨ht, -⟩ := (remove_threads h.wf id).mp ht'
    exact ⟨t', ht, .refl, rfl⟩
  · intro c slot hslot t ht
    exact ⟨t, (remove_threads h.wf id).mpr ⟨ht, hfree c slot hslot t ht⟩, .refl, fun hs => hs⟩

theorem Inv.free_of_retired (hret : Retired q cpus id) : Free q cpus id := by
  intro d slot hslot t ht heq
  obtain ⟨u, hu, hann, -⟩ := (h.cpu d).of_mem_slots hslot
  rw [ht] at hu
  cases hu
  exact (hret slot t ht heq).2 d (heq ▸ hann)

/-- A CPU that is not switching may remove the thread it runs: it is the owner, so no other CPU is
    switching to it. -/
theorem Inv.free_of_running (hrun : (cpus c).running = some id) (hc : (cpus c).mode.slots = []) :
    Free q cpus id := by
  intro d slot hslot t ht heq
  obtain ⟨u, hu, -, hown⟩ := (h.cpu d).of_mem_slots hslot
  rw [ht] at hu
  cases hu
  have hmine := (h.cpu c).owner id hrun slot t ht heq
  rw [hown] at hmine
  cases hmine
  rw [hc] at hslot
  cases hslot

theorem Inv.select {t t' : Thread (Fin n) Context} (hw : q'.Wf)
    (hsel : Selected q q' c id slot t t') : Inv q' cpus next := by
  have hkeeps : Keeps t t' := by
    obtain ⟨hid, -, -, hstack⟩ := hsel.same
    refine ⟨hid, ?_, hstack, fun hd => absurd hd hsel.alive⟩
    intro d hd
    rcases hsel.owner with hnone | hown
    · rw [hd] at hnone
      cases hnone
    · rw [hsel.claimed, ← hown, hd]
  refine h.rearrange hw ?_ ?_
  · intro i u' hu'
    by_cases hi : i = slot
    · subst hi
      rw [hsel.after] at hu'
      cases hu'
      exact ⟨t, hsel.before, hkeeps, hsel.same.2.2.1⟩
    · have hrel := hsel.others i hi
      rw [hu'] at hrel
      generalize q.threads i = x at hrel
      cases hrel with
      | some hsame => exact ⟨_, rfl, hsame.keeps, hsame.context⟩
  · intro d i _ u hu
    by_cases hi : i = slot
    · subst hi
      rw [hsel.before] at hu
      cases hu
      exact ⟨t', hsel.after, hkeeps, fun hs => by rw [hsel.same.2.2.1]; exact hs⟩
    · have hrel := hsel.others i hi
      rw [hu] at hrel
      generalize q'.threads i = x at hrel
      cases hrel with
      | some hsame => exact ⟨_, rfl, hsame.keeps, fun hs => by rw [hsame.context]; exact hs⟩

/-- Ids that are used up without a thread. -/
theorem Inv.skip_id : Inv q cpus (next + 1) := by
  refine h.queue ⟨?_, ?_⟩ h.wf (Nat.le_succ next) ?_ ?_
  · intro slot t ht _
    exact ⟨t, ht, .refl, rfl⟩
  · intro slot t ht hid
    exact absurd (h.fresh slot t ht) (Nat.not_lt.mpr hid)
  · intro slot t ht
    exact Nat.lt_succ_of_lt (h.fresh slot t ht)
  · intro c slot _ t ht
    exact ⟨t, ht, .refl, fun hs => hs⟩

theorem Inv.push {view : Option ProcessView} {thread : Thread (Fin n) Context}
    (hpush : q.push view thread = some q') (hid : thread.id = next)
    (hctx : thread.context.saved = true ∧ thread.context.stack = thread.kernelStack ∧
      thread.context.code = []) : Inv q' cpus (next + 1) := by
  obtain ⟨free, hfree, hthreads, hwf⟩ := push_eq_some hpush
  have hcases : ∀ slot t, q'.threads slot = some t → q.threads slot = some t ∨
      t = { thread with processObject := thread.processObject || view.isSome } := by
    intro slot t ht
    rw [hthreads] at ht
    rcases of_update_eq ht with ⟨rfl, ⟨⟩⟩ | ⟨-, ht⟩
    · exact .inr rfl
    · exact .inl ht
  refine h.queue ⟨?_, ?_⟩ (hwf h.wf ?_) (Nat.le_succ next) ?_ ?_
  · intro slot t ht hlt
    rcases hcases slot t ht with hold | rfl
    · exact ⟨t, hold, .refl, rfl⟩
    · exact absurd hlt (Nat.not_lt.mpr (Nat.le_of_eq hid.symm))
  · intro slot t ht hge
    rcases hcases slot t ht with hold | rfl
    · exact absurd (h.fresh slot t hold) (Nat.not_lt.mpr hge)
    · exact hctx
  · intro slot t ht heq
    have hlt := h.fresh slot t ht
    rw [heq, hid] at hlt
    exact Nat.lt_irrefl next hlt
  · intro slot t ht
    rcases hcases slot t ht with hold | rfl
    · exact Nat.lt_succ_of_lt (h.fresh slot t hold)
    · exact Nat.lt_succ_of_le (Nat.le_of_eq hid)
  · intro c slot _ t ht
    have hne : slot ≠ free := by
      rintro rfl
      rw [hfree] at ht
      cases ht
    refine ⟨t, ?_, .refl, fun hs => hs⟩
    rw [hthreads, update_of_ne hne]
    exact ht

end QueueOps

/-! ## The CPUs -/

section CpuOps

variable {q : Queue n} {cpus : Fin n → Cpu} {next : ThreadId} {c : Fin n} {cpu : Cpu} {id : ThreadId}

/-- A CPU that is not switching moves on: new frames, a new mode, and its announcement kept, or taken
    back because its thread is dead. -/
theorem CpuInv.goto {cpu' : Cpu} (h : CpuInv q next c cpu) (hsw : cpu.mode.switching = false)
    (hrun : cpu'.running = cpu.running) (hstack : cpu'.stack = cpu.stack) (hcur : cpu'.current = cpu.current ∨
      cpu'.current = none ∧ ∀ id, cpu.running = some id → Dead q id) (hmode : ModeInv q next c cpu' cpu'.mode)
    (hframes : ∀ f ∈ cpu'.code, FrameInv q next c cpu.running f) : CpuInv q next c cpu' where
  fresh := fun id hid => h.fresh id (hrun ▸ hid)
  owner := fun id hid => h.owner id (hrun ▸ hid)
  marked := by
    intro id hid _
    rw [hrun] at hid
    rcases hcur with hcur | ⟨-, hdead⟩
    · rw [hcur]
      exact h.marked id hid hsw
    · exact .inl (hdead id hid)
  current := by
    intro id hid _
    rw [hrun]
    rcases hcur with hcur | ⟨hnone, -⟩
    · exact h.current id (hcur ▸ hid) hsw
    · rw [hnone] at hid
      cases hid
  stack := by
    intro slot t ht hid
    rw [hstack]
    exact h.stack slot t ht (hrun ▸ hid)
  mode := hmode
  frames := by rw [hrun]; exact hframes

/-- **A change of one CPU** that runs the same thread as before keeps the invariant, if it announces
    only live threads anew and plans to remove only retired ones. -/
theorem Inv.update (h : Inv q cpus next) (hcpu : CpuInv q next c cpu) (hrun : cpu.running = (cpus c).running)
    (hann : ∀ id, Announces cpu id → Announces (cpus c) id ∨ ¬ Dead q id)
    (hgone : ∀ id, .terminateRemove id ∈ cpu.code → id < next ∧ Retired q cpus id) :
    Inv q (Function.update cpus c cpu) next := by
  have hrunning : ∀ d, (Function.update cpus c cpu d).running = (cpus d).running := by
    intro d
    by_cases hd : d = c
    · subst hd
      rw [Function.update_self, hrun]
    · rw [Function.update_of_ne hd]
  refine ⟨h.wf, h.fresh, ?_, h.ctx, ?_, ?_, ?_⟩
  · intro d
    by_cases hd : d = c
    · subst hd
      rw [Function.update_self]
      exact hcpu
    · rw [Function.update_of_ne hd]
      exact h.cpu d
  · intro d e id hd he
    rw [hrunning] at hd he
    exact h.exclusive d e id hd he
  · intro slot t ht halive hsaved
    obtain ⟨d, hd⟩ := h.saved slot t ht halive hsaved
    exact ⟨d, by rw [hrunning]; exact hd⟩
  · intro id hf
    have hold : id < next ∧ Retired q cpus id := by
      rcases hf with ⟨d, hd⟩ | hctx
      · rcases of_update (P := fun x : Cpu => .terminateRemove id ∈ x.code) hd with ⟨rfl, hnew⟩ | ⟨-, hd⟩
        · exact hgone id hnew
        · exact h.gone id (.inl ⟨d, hd⟩)
      · exact h.gone id (.inr hctx)
    refine ⟨hold.1, fun slot t ht heq => ?_⟩
    obtain ⟨hdead, hnone⟩ := hold.2 slot t ht heq
    refine ⟨hdead, fun d => ?_⟩
    by_cases hd : d = c
    · subst hd
      rw [Function.update_self]
      intro hnew
      rcases hann id hnew with hbefore | halive
      · exact hnone d hbefore
      · exact halive fun slot t ht heq => (hold.2 slot t ht heq).1
    · rw [Function.update_of_ne hd]
      exact hnone d

/-- From saving to loading. The frames go with the context. -/
theorem Inv.toLoad {old : Option Slot} (h : Inv q cpus next) (hmode : (cpus c).mode = .save old new)
    (hsaved : ∀ slot t, q.threads slot = some t → (cpus c).running = some t.id →
      t.state ≠ .terminated → t.context.saved = true) :
    Inv q (Function.update cpus c { cpus c with mode := .load new, code := [] }) next := by
  have hm := h.modeInv hmode
  have hin : ∃ t, Incoming q c (cpus c) new t := by
    cases old with
    | none | some old => exact hm.1
  obtain ⟨t, ht⟩ := hin
  refine h.update ⟨(h.cpu c).fresh, (h.cpu c).owner, nofun, nofun, (h.cpu c).stack, ?_, nofun⟩ rfl
    (fun _ hann => .inl hann) nofun
  exact ⟨⟨t, ht.here, ht.announced, ht.owner, ht.idle, ht.saved⟩, hsaved⟩

end CpuOps

/-! ## Saving and loading -/

section Contexts

variable {q : Queue n} {cpus : Fin n → Cpu} {next : ThreadId} {c : Fin n} {slot i : Slot}
  {t t' u : Thread (Fin n) Context} {loaded : Option Slot} {cpu : Cpu}
  (h : Inv q cpus next) (ht : q.threads slot = some t)

theorem put_cases (hu : (q.put slot t').threads i = some u) :
    (i = slot ∧ u = t') ∨ (i ≠ slot ∧ q.threads i = some u) := by
  simp only [put] at hu
  rcases of_update_eq hu with ⟨rfl, ⟨⟩⟩ | ⟨hi, hu⟩
  · exact .inl ⟨rfl, rfl⟩
  · exact .inr ⟨hi, hu⟩

theorem evolves_put (ht : q.threads slot = some t) (hk : Keeps t t')
    (hsaved : loaded ≠ some slot → t'.context.saved = true) : Evolves loaded next q (q.put slot t') := by
  intro i u hu _
  rcases put_cases hu with ⟨rfl, rfl⟩ | ⟨-, hu⟩
  · exact ⟨t, ht, hk, fun hl _ => hsaved hl⟩
  · exact ⟨u, hu, .refl, fun _ hs => hs⟩

theorem stays_put (ht : q.threads slot = some t) (hk : Keeps t t')
    (hsaved : i = slot → t'.context.saved = true) : Stays q (q.put slot t') i := by
  intro u hu
  by_cases hi : i = slot
  · subst hi
    rw [ht] at hu
    cases hu
    exact ⟨t', update_self .., hk, fun _ => hsaved rfl⟩
  · exact ⟨u, by simp only [put, update_of_ne hi, hu], .refl, fun hs => hs⟩

/-- A saved context stays valid when another context is put into the queue. -/
theorem CtxInv.put (h : Inv q cpus next) (hE : Evolves loaded next q (q.put slot t'))
    (hu : q.threads i = some u) (hsaved : u.context.saved = true) : CtxInv (q.put slot t') next u := by
  refine ⟨(h.ctx i u hu hsaved).stack, fun f hf d => ?_⟩
  refine ((h.ctx i u hu hsaved).frames f hf d).evolve hE (Nat.le_refl next) ?_
  rintro _ ⟨rfl⟩
  exact h.fresh i u hu

include h ht in
/-- **Saving the context of the thread a CPU runs.** -/
theorem Inv.save
    (hrun : (cpus c).running = some t.id) (hk : Keeps t t') (hsel : t'.selectable = t.selectable)
    (hcode : t'.context.code = (cpus c).code) (hstack : t'.context.stack = (cpus c).stack)
    (hsaved : t'.context.saved = true) : Inv (q.put slot t') cpus next := by
  have hE : Evolves none next q (q.put slot t') := evolves_put ht hk fun _ => hsaved
  refine ⟨h.wf.put ht hk.id hsel, ?_, ?_, ?_, h.exclusive, ?_, ?_⟩
  · intro i u hu
    rcases put_cases hu with ⟨rfl, rfl⟩ | ⟨-, hu⟩
    · rw [hk.id]
      exact h.fresh i t ht
    · exact h.fresh i u hu
  · intro d
    exact (h.cpu d).evolve hE (Nat.le_refl next) (fun i _ => stays_put ht hk fun _ => hsaved) fun _ _ hl =>
      nomatch hl
  · intro i u hu hus
    rcases put_cases hu with ⟨rfl, rfl⟩ | ⟨-, hu⟩
    · refine ⟨by rw [hstack, hk.stack]; exact (h.cpu c).stack i t ht hrun, fun f hf d => ?_⟩
      rw [hcode] at hf
      have hframe := (h.cpu c).frames f hf
      rw [hrun] at hframe
      rw [hk.id]
      refine (hframe.anywhere d).evolve hE (Nat.le_refl next) ?_
      rintro _ ⟨rfl⟩
      exact h.fresh i t ht
    · exact CtxInv.put h hE hu hus
  · intro i u hu halive hus
    rcases put_cases hu with ⟨rfl, rfl⟩ | ⟨-, hu⟩
    · rw [hsaved] at hus
      cases hus
    · exact h.saved i u hu halive hus
  · intro id hf
    -- The frames in the new context are those of the CPU.
    have hold : HasFrame q cpus (.terminateRemove id) := by
      rcases hf with hcpu | ⟨i, u, hu, hus, hmem⟩
      · exact .inl hcpu
      · rcases put_cases hu with ⟨rfl, rfl⟩ | ⟨-, hu⟩
        · exact .inl ⟨c, hcode ▸ hmem⟩
        · exact .inr ⟨i, u, hu, hus, hmem⟩
    obtain ⟨hid, hret⟩ := h.gone id hold
    exact ⟨hid, hret.evolve hE hid⟩

include h ht in
/-- No other CPU runs, or is switching to or from, a thread that CPU `c` owns. -/
theorem Inv.others_of_owner {d : Fin n}
    (hown : t.cpuAffinity = some c) (hd : d ≠ c) : (cpus d).running ≠ some t.id ∧
    slot ∉ (cpus d).mode.slots := by
  refine ⟨fun hrun => hd ?_, fun hslot => hd ?_⟩
  · have := (h.cpu d).owner t.id hrun slot t ht rfl
    rw [hown] at this
    cases this
    rfl
  · obtain ⟨u, hu, -, hown'⟩ := (h.cpu d).of_mem_slots hslot
    rw [ht] at hu
    cases hu
    rw [hown] at hown'
    cases hown'
    rfl

/-- A CPU that loads a context takes over its frames. -/
theorem HasFrame.load {f : Frame} (ht : q.threads slot = some t) (hu : t.context.saved = true)
    (hsaved : t'.context.saved = false) (hcode : cpu.code = t.context.code)
    (h : HasFrame (q.put slot t') (Function.update cpus c cpu) f) : HasFrame q cpus f := by
  rcases h with ⟨d, hd⟩ | ⟨i, v, hv, hvs, hmem⟩
  · rcases of_update (P := fun cpu : Cpu => f ∈ cpu.code) hd with ⟨-, hd⟩ | ⟨-, hd⟩
    · exact .inr ⟨slot, t, ht, hu, hcode ▸ hd⟩
    · exact .inl ⟨d, hd⟩
  · rcases put_cases hv with ⟨rfl, rfl⟩ | ⟨-, hv⟩
    · rw [hsaved] at hvs
      cases hvs
    · exact .inr ⟨i, v, hv, hvs, hmem⟩

/-- **Loading the context of the thread a CPU has switched to.** -/
theorem Inv.load (h : Inv q cpus next) (hmode : (cpus c).mode = .load slot)
    (ht : q.threads slot = some t) (hk : Keeps t t') (hsel : t'.selectable = t.selectable)
    (hsaved : t'.context.saved = false) (hcur : cpu.current = (cpus c).current)
    (hfrom : cpu.switchingFrom = (cpus c).switchingFrom) (hcode : cpu.code = t.context.code)
    (hstack : cpu.stack = t.context.stack) (hrun : cpu.running = some t.id) {b : Bool}
    (hack : cpu.mode = .ack b) : Inv (q.put slot t') (Function.update cpus c cpu) next := by
  have hload := h.modeInv hmode
  obtain ⟨⟨u, hu⟩, hold⟩ := hload
  have huu := hu.here
  rw [ht] at huu
  cases huu
  have hE : Evolves (some slot) next q (q.put slot t') := evolves_put ht hk fun hl => absurd rfl hl
  have hctx := h.ctx slot t ht hu.saved
  have hfresh : ∀ id, some t.id = some id → id < next := by
    rintro _ ⟨rfl⟩
    exact h.fresh slot t ht
  refine ⟨h.wf.put ht hk.id hsel, ?_, ?_, ?_, ?_, ?_, ?_⟩
  · intro i u hu
    rcases put_cases hu with ⟨rfl, rfl⟩ | ⟨-, hu⟩
    · rw [hk.id]
      exact h.fresh i t ht
    · exact h.fresh i u hu
  · intro d
    by_cases hd : d = c
    · subst hd
      rw [update_self]
      refine ⟨?_, ?_, ?_, ?_, ?_, by rw [hack]; trivial, ?_⟩
      · rw [hrun]
        exact hfresh
      · rw [hrun]
        rintro _ ⟨rfl⟩
        have hmine : OwnedBy q d t.id := by
          intro i v hv heq
          cases h.wf.ids i slot v t hv ht heq
          rw [ht] at hv
          cases hv
          exact hu.owner
        exact hmine.evolve hE (h.fresh slot t ht)
      · intro id hid _
        rw [hcur, hu.announced, ← hrun]
        exact .inr hid
      · intro id hid _
        rw [hrun, ← hu.announced, ← hcur]
        exact hid
      · intro i v hv hid
        rw [hrun] at hid
        rcases put_cases hv with ⟨rfl, rfl⟩ | ⟨hne, hv⟩
        · rw [hstack, hctx.stack, hk.stack]
        · exact absurd (h.wf.ids i slot v t hv ht (Option.some.inj hid).symm) hne
      · rw [hrun, hcode]
        intro f hf
        exact (hctx.frames f hf d).evolve hE (Nat.le_refl next) hfresh
    · rw [update_of_ne hd]
      have hothers := h.others_of_owner ht hu.owner hd
      refine (h.cpu d).evolve hE (Nat.le_refl next) ?_ ?_
      · intro i hi
        refine stays_put ht hk ?_
        rintro rfl
        exact absurd hi hothers.2
      · rintro _ v ⟨rfl⟩ hv
        rw [ht] at hv
        cases hv
        exact hothers.1
  · intro i v hv hvs
    rcases put_cases hv with ⟨rfl, rfl⟩ | ⟨-, hv⟩
    · rw [hsaved] at hvs
      cases hvs
    · exact CtxInv.put h hE hv hvs
  · intro d e id hd he
    by_cases hdc : d = c <;> by_cases hec : e = c
    · rw [hdc, hec]
    · subst hdc
      rw [update_self, hrun] at hd
      rw [update_of_ne hec, ← hd] at he
      exact absurd he (h.others_of_owner ht hu.owner hec).1
    · subst hec
      rw [update_self, hrun] at he
      rw [update_of_ne hdc, ← he] at hd
      exact absurd hd (h.others_of_owner ht hu.owner hdc).1
    · rw [update_of_ne hdc] at hd
      rw [update_of_ne hec] at he
      exact h.exclusive d e id hd he
  · intro i v hv halive hvs
    rcases put_cases hv with ⟨rfl, rfl⟩ | ⟨-, hv⟩
    · exact ⟨c, by rw [update_self, hrun, hk.id]⟩
    · obtain ⟨d, hd⟩ := h.saved i v hv halive hvs
      have hdc : d ≠ c := by
        rintro rfl
        -- The thread the CPU leaves was saved before.
        rw [hold i v hv hd halive] at hvs
        cases hvs
      exact ⟨d, by rw [update_of_ne hdc]; exact hd⟩
  · intro id hf
    obtain ⟨hid, hret⟩ := h.gone id (hf.load ht hu.saved hsaved hcode)
    refine ⟨hid, fun i v hv heq => ?_⟩
    obtain ⟨hdead, hnone⟩ := hret.evolve hE hid i v hv heq
    refine ⟨hdead, fun d => ?_⟩
    by_cases hdc : d = c
    · subst hdc
      rw [update_self, Announces, hcur, hfrom]
      exact hnone d
    · rw [update_of_ne hdc]
      exact hnone d

end Contexts

end Mnu.Task
