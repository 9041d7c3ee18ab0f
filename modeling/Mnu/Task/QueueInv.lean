import Mnu.Lib.Update
import Mnu.Task.Queue

/-!
# `Mnu.Task.QueueInv` — what the queue operations preserve

Two statements about `ThreadQueue` are proved of every operation and used everywhere else.

* `Wf`: thread ids are unique, and the ready bitmap records exactly the selectable threads (`Bits`).
* `Tame`: the operation keeps every thread in its slot, with its identity, affinity, stack and context,
  and never revives a terminated thread.

The bitmap and the count do not depend on the ids being unique: `Kept` is what an operation that moves no
thread does to them, and `Safe`, which the later modules use, follows from it.

Selection is the one operation that is almost tame: it may claim the thread it returns for the selecting
CPU (`selectNextThread_some`).
-/

namespace Mnu.Task

open Lib Function

variable {ι κ : Type}

/-- `t'` is `t` up to its scheduling state, and is dead if `t` was. -/
structure SameThread (t t' : Thread ι κ) : Prop where
  id : t'.id = t.id
  processId : t'.processId = t.processId
  cpuAffinity : t'.cpuAffinity = t.cpuAffinity
  context : t'.context = t.context
  kernelStack : t'.kernelStack = t.kernelStack
  dead : t.state = .terminated → t'.state = .terminated

theorem SameThread.refl {t : Thread ι κ} : SameThread t t := ⟨rfl, rfl, rfl, rfl, rfl, fun h => h⟩

namespace ThreadQueue

/-! ## Looking a thread up -/

theorem mem_slots (slot : Slot) : slot ∈ slots := List.mem_finRange slot

variable {q : ThreadQueue ι κ} {id : ThreadId} {slot : Slot} {view : Option ProcessView} {thread : Thread ι κ}

theorem slotIndex_eq_some (h : q.slotIndex id = some slot) : ∃ t, q.threads slot = some t ∧ t.id = id := by
  have hp := List.find?_some h
  obtain ⟨t, ht, hid⟩ := (Option.any_eq_true _ _).mp hp
  exact ⟨t, ht, of_decide_eq_true hid⟩

theorem slotIndex_eq_none : q.slotIndex id = none ↔ ∀ slot t, q.threads slot = some t → t.id ≠ id := by
  unfold slotIndex
  rw [List.find?_eq_none]
  constructor
  · intro h slot t ht hid
    exact h slot (mem_slots slot) (by simp [ht, hid])
  · intro h slot _ hany
    obtain ⟨t, ht, hid⟩ := (Option.any_eq_true _ _).mp hany
    exact h slot t ht (of_decide_eq_true hid)

variable {t : Thread ι κ}

theorem get_eq_some (h : q.get id = some t) :
    ∃ slot, q.slotIndex id = some slot ∧ q.threads slot = some t ∧ t.id = id := by
  obtain ⟨slot, hslot, ht⟩ := Option.bind_eq_some_iff.mp h
  obtain ⟨t', ht', hid⟩ := slotIndex_eq_some hslot
  rw [ht] at ht'
  cases ht'
  exact ⟨slot, hslot, ht, hid⟩

theorem get_eq_none : q.get id = none ↔ ∀ slot t, q.threads slot = some t → t.id ≠ id := by
  rw [← slotIndex_eq_none]
  constructor
  · intro h
    cases hslot : q.slotIndex id with
    | none => rfl
    | some slot =>
      obtain ⟨t, ht, _⟩ := slotIndex_eq_some hslot
      simp [get, hslot, ht] at h
  · intro h
    simp [get, h]

/-! ## Well-formed queues -/

/-- The invariant of the queue itself. -/
structure Wf (q : ThreadQueue ι κ) : Prop where
  ids : ∀ i j a b, q.threads i = some a → q.threads j = some b → a.id = b.id → i = j
  bits : ∀ i, q.readyBitmap i = (q.threads i).any Thread.selectable

/-- The part of it that says nothing about ids. -/
def Bits (q : ThreadQueue ι κ) : Prop := ∀ i, q.readyBitmap i = (q.threads i).any Thread.selectable

theorem Wf.slotIndex (h : q.Wf) (ht : q.threads slot = some t) : q.slotIndex t.id = some slot := by
  cases hslot : q.slotIndex t.id with
  | none => exact absurd rfl (slotIndex_eq_none.mp hslot slot t ht)
  | some slot' =>
    obtain ⟨t', ht', hid⟩ := slotIndex_eq_some hslot
    rw [h.ids slot' slot t' t ht' ht hid]

theorem Wf.get (h : q.Wf) (ht : q.threads slot = some t) : q.get t.id = some t := by
  simp [ThreadQueue.get, h.slotIndex ht, ht]

/-! ## Tame operations -/

/-- Every slot holds the same thread as before. -/
def Tame (q q' : ThreadQueue ι κ) : Prop :=
  ∀ slot, Option.Rel SameThread (q.threads slot) (q'.threads slot)

theorem Tame.refl {q : ThreadQueue ι κ} : q.Tame q := by
  intro slot
  cases q.threads slot with
  | none => exact .none
  | some t => exact .some (.refl)

variable {q' : ThreadQueue ι κ}

/-- A thread of the queue before, found after. -/
theorem Tame.forward (h : q.Tame q')
    (ht : q.threads slot = some t) : ∃ t', q'.threads slot = some t' ∧ SameThread t t' := by
  have hs := h slot
  rw [ht] at hs
  generalize q'.threads slot = x at hs
  cases hs with
  | some hs => exact ⟨_, rfl, hs⟩

variable {t' : Thread ι κ} (hw : q.Wf) (ht : q.threads slot = some t)

/-- A thread of the queue after, found before. -/
theorem Tame.backward (h : q.Tame q')
    (ht' : q'.threads slot = some t') : ∃ t, q.threads slot = some t ∧ SameThread t t' := by
  have hs := h slot
  rw [ht'] at hs
  generalize q.threads slot = x at hs
  cases hs with
  | some hs => exact ⟨_, rfl, hs⟩

/-- Unique ids survive a tame operation. -/
theorem Tame.ids (h : q.Tame q') (hw : q.Wf) :
    ∀ i j a b, q'.threads i = some a → q'.threads j = some b → a.id = b.id → i = j := by
  intro i j a b ha hb hab
  obtain ⟨a0, ha0, hsa⟩ := h.backward ha
  obtain ⟨b0, hb0, hsb⟩ := h.backward hb
  exact hw.ids i j a0 b0 ha0 hb0 (by rw [← hsa.id, ← hsb.id, hab])

theorem tame_put (ht : q.threads slot = some t) (h : SameThread t t') : q.Tame (q.put slot t') := by
  intro i
  by_cases hi : i = slot
  · subst hi
    simp only [put, update_self, ht]
    exact .some h
  · simp only [put, update_of_ne hi]
    exact Tame.refl i

/-- Overwriting a thread together with its ready bit keeps the bitmap right. -/
theorem Bits.put_setBit (h : q.Bits) (slot : Slot) (t : Thread ι κ) :
    ((q.put slot t).setBit slot t.selectable).Bits := by
  intro i
  by_cases hi : i = slot
  · subst hi
    simp [ThreadQueue.put, setBit]
  · simp only [ThreadQueue.put, setBit, update_of_ne hi]
    exact h i

/-- So does overwriting a thread without changing whether it is selectable. -/
theorem Bits.put (h : q.Bits) (ht : q.threads slot = some t) (hsel : t'.selectable = t.selectable) :
    (q.put slot t').Bits := by
  have hbit : (q.put slot t').setBit slot t'.selectable = q.put slot t' := by
    have : update q.readyBitmap slot t'.selectable = q.readyBitmap := by
      rw [hsel, update_eq_self_iff, h slot, ht]
      rfl
    simp [setBit, ThreadQueue.put, this]
  rw [← hbit]
  exact h.put_setBit slot t'

include hw ht in
/-- Overwriting a thread together with its ready bit keeps the queue well formed. -/
theorem Wf.put_setBit (hid : t'.id = t.id) : ((q.put slot t').setBit slot t'.selectable).Wf := by
  refine ⟨?_, Bits.put_setBit hw.bits slot t'⟩
  intro i j a b ha hb hab
  simp only [put, setBit, update_apply] at ha hb
  split at ha <;> split at hb
  · rw [‹i = slot›, ‹j = slot›]
  · cases ha
    rw [‹i = slot›]
    exact hw.ids slot j t b ht hb (hid ▸ hab)
  · cases hb
    rw [‹j = slot›]
    exact hw.ids i slot a t ha ht (hid ▸ hab)
  · exact hw.ids i j a b ha hb hab

include hw ht in
theorem Wf.put (hid : t'.id = t.id) (hsel : t'.selectable = t.selectable) :
    (q.put slot t').Wf := ⟨(hw.put_setBit ht hid).ids, Bits.put hw.bits ht hsel⟩

/-- A tame queue operation that keeps the bitmap right and the count as it is. -/
structure Kept (q q' : ThreadQueue ι κ) : Prop where
  tame : q.Tame q'
  bits : q.Bits → q'.Bits
  count : q'.count = q.count

theorem Kept.refl {q : ThreadQueue ι κ} : q.Kept q := ⟨.refl, fun h => h, rfl⟩

/-- A queue operation that is tame and keeps the queue well formed. -/
structure Safe (q q' : ThreadQueue ι κ) : Prop where
  tame : q.Tame q'
  wf : q.Wf → q'.Wf

theorem Safe.refl {q : ThreadQueue ι κ} : q.Safe q := ⟨.refl, fun h => h⟩

theorem Kept.safe (h : q.Kept q') : q.Safe q' := ⟨h.tame, fun hw => ⟨h.tame.ids hw, h.bits hw.bits⟩⟩

theorem kept_setStateAtSlot (q : ThreadQueue ι κ) (slot : Slot) (state : ThreadState) :
    q.Kept (q.setStateAtSlot slot state).1 := by
  unfold setStateAtSlot
  cases ht : q.threads slot with
  | none => exact .refl
  | some t =>
    by_cases hdead : t.state = .terminated ∧ state ≠ .terminated
    · simp only [if_pos hdead]
      exact .refl
    · simp only [if_neg hdead]
      refine ⟨?_, fun hb => hb.put_setBit slot _, rfl⟩
      refine tame_put ht ⟨rfl, rfl, rfl, rfl, rfl, ?_⟩
      intro hterm
      exact Classical.byContradiction fun hne => hdead ⟨hterm, hne⟩

theorem kept_setState (q : ThreadQueue ι κ) (id : ThreadId) (state : ThreadState) :
    q.Kept (q.setState id state).1 := by
  unfold setState
  cases q.slotIndex id with
  | none => exact .refl
  | some slot => exact kept_setStateAtSlot q slot state

/-- Rewriting the wake latch changes nothing a tame operation must keep. -/
theorem kept_put_pending
    (ht : q.threads slot = some t) (b : Bool) : q.Kept (q.put slot { t with pendingWakeup := b }) :=
  ⟨tame_put ht ⟨rfl, rfl, rfl, rfl, rfl, fun h => h⟩, fun hb => hb.put ht rfl, rfl⟩

theorem kept_onThread {f : Slot → Thread ι κ → ThreadQueue ι κ}
    (hf : ∀ slot t, q.threads slot = some t → q.Kept (f slot t)) : q.Kept (q.onThread id f) := by
  unfold onThread
  split
  · exact .refl
  · split
    · exact .refl
    · exact hf _ _ ‹_›

theorem kept_wakeWaiter (q : ThreadQueue ι κ) (id : ThreadId) (latch : Bool) :
    q.Kept (q.wakeWaiter id latch) := by
  refine kept_onThread fun slot t ht => ?_
  split
  · exact kept_setStateAtSlot q slot .ready
  · exact kept_setStateAtSlot q slot .ready
  · exact kept_put_pending ht true
  · -- a running thread keeps the wakeup for its next attempt to sleep
    split
    · exact kept_put_pending ht true
    · exact .refl
  · exact .refl

theorem kept_takePendingWakeup (q : ThreadQueue ι κ) (id : ThreadId) : q.Kept (q.takePendingWakeup id).1 :=
  kept_onThread fun _ _ ht => kept_put_pending ht false

/-- `changeAll` is such an operation when each rewritten thread is the same thread and gets the bit it should.
    -/
theorem kept_changeAll {change : Thread ι κ → Option (Thread ι κ)}
    {bit : Thread ι κ → Bool → Bool} (hsame : ∀ t t', change t = some t' → SameThread t t')
    (hbit : ∀ t t', change t = some t' → bit t' t.selectable = t'.selectable) :
    q.Kept (q.changeAll change bit) := by
  have htame : q.Tame (q.changeAll change bit) := by
    intro slot
    simp only [changeAll]
    cases q.threads slot with
    | none => exact .none
    | some t =>
      refine .some ?_
      show SameThread t ((change t).getD t)
      cases hc : change t with
      | none => exact .refl
      | some t' => exact hsame t t' hc
  refine ⟨htame, fun hb slot => ?_, rfl⟩
  simp only [changeAll, hb slot]
  cases q.threads slot with
  | none => rfl
  | some t =>
    cases hc : change t with
    | none => simp [hc]
    | some t' => simp [hc, hbit t t' hc]

theorem kept_suspendProcess (q : ThreadQueue ι κ) (pid : ProcessId) : q.Kept (q.suspendProcess pid) := by
  refine kept_changeAll (fun t t' h => ?_) (fun t t' h => ?_)
  · split at h
    · unfold Thread.suspend at h
      split at h
      · cases h
      cases h
      exact ⟨rfl, rfl, rfl, rfl, rfl, fun hd => hd⟩
    · cases h
  · split at h
    · unfold Thread.suspend at h
      split at h
      · cases h
      cases h
      simp [Thread.selectable, Thread.isSchedulingSuspended]
    · cases h

theorem kept_resumeProcess (q : ThreadQueue ι κ) (pid : ProcessId) : q.Kept (q.resumeProcess pid) := by
  refine kept_changeAll (fun t t' h => ?_) (fun t t' h => ?_)
  · split at h
    · unfold Thread.resume at h
      split at h
      · cases h
        exact ⟨rfl, rfl, rfl, rfl, rfl, fun hd => hd⟩
      · cases h
    · cases h
  · split at h
    · unfold Thread.resume at h
      split at h
      · rename_i hsus
        cases h
        simp [Thread.selectable, Thread.isSchedulingSuspended, hsus]
      · cases h
    · cases h

theorem kept_holdImageSiblings (q : ThreadQueue ι κ) (pid : ProcessId) (owner : ThreadId) :
    q.Kept (q.holdImageSiblings pid owner) := by
  refine kept_changeAll (fun t t' h => ?_) (fun t t' h => ?_)
  · split at h
    · cases h
      exact ⟨rfl, rfl, rfl, rfl, rfl, fun hd => hd⟩
    · cases h
  · split at h
    · cases h
      simp [Thread.selectable, Thread.isSchedulingSuspended]
    · cases h

theorem kept_releaseImageHold (q : ThreadQueue ι κ) (id : ThreadId) : q.Kept (q.releaseImageHold id) := by
  refine kept_onThread fun slot t ht => ?_
  have hsame : SameThread t { t with imageHeld := false } := ⟨rfl, rfl, rfl, rfl, rfl, fun h => h⟩
  by_cases hsel : ({ t with imageHeld := false } : Thread ι κ).selectable
  · simp only [hsel, if_true]
    refine ⟨tame_put ht hsame, fun hb => ?_, rfl⟩
    have := hb.put_setBit slot { t with imageHeld := false }
    rwa [hsel] at this
  · simp only [if_neg hsel]
    refine ⟨tame_put ht hsame, fun hb => hb.put ht ?_, rfl⟩
    -- releasing the hold can only make a thread selectable, never the reverse
    have hold : t.selectable = false := by
      cases hb : t.selectable with
      | false => rfl
      | true =>
        simp only [Thread.selectable, Thread.isSchedulingSuspended, Bool.and_eq_true,
          Bool.not_eq_true', Bool.or_eq_false_iff] at hb
        exact absurd (by simp [Thread.selectable, Thread.isSchedulingSuspended, hb]) hsel
    rw [hold, Bool.eq_false_iff.mpr hsel]

theorem kept_requeueCurrent (q : ThreadQueue ι κ) (current : Option Slot) :
    q.Kept (q.requeueCurrent current) := by
  unfold requeueCurrent
  cases current with
  | none => exact .refl
  | some slot =>
    dsimp only
    split
    · exact kept_setStateAtSlot q slot .ready
    · exact .refl

/-- A thread that is set to terminated is terminated afterwards, if it is in the queue at all. -/
theorem setState_terminated (hw : q.Wf) (ht : (q.setState id .terminated).1.threads slot = some t)
    (hid : t.id = id) : t.state = .terminated := by
  unfold setState at ht
  cases hfound : q.slotIndex id with
  | none =>
    rw [hfound] at ht
    exact absurd hid (slotIndex_eq_none.mp hfound slot t ht)
  | some found =>
    obtain ⟨u, hu, huid⟩ := slotIndex_eq_some hfound
    simp only [hfound, setStateAtSlot, hu, ne_eq, not_true_eq_false, and_false, if_false, setBit, put] at ht
    rcases of_update_eq ht with ⟨rfl, ⟨⟩⟩ | ⟨hs, ht⟩
    · rfl
    · exact absurd (hw.ids slot found t u ht hu (hid.trans huid.symm)) hs

/-! ## Selection -/

/-- What a successful selection has done: the thread in `slot` is claimed by `cpu` and running, and
    everything else is as a tame operation leaves it. -/
structure Selected (q q' : ThreadQueue ι κ) (cpu : ι) (id : ThreadId) (slot : Slot)
    (t t' : Thread ι κ) : Prop where
  before : q.threads slot = some t
  after : q'.threads slot = some t'
  id : t.id = id
  same : t'.id = t.id ∧ t'.processId = t.processId ∧ t'.context = t.context ∧ t'.kernelStack = t.kernelStack
  alive : t.state ≠ .terminated
  state : t'.state = .running
  owner : t.cpuAffinity = none ∨ t.cpuAffinity = some cpu
  claimed : t'.cpuAffinity = some cpu
  others : ∀ i, i ≠ slot → Option.Rel SameThread (q.threads i) (q'.threads i)

variable {cpu : ι}

theorem nextReadySlotForCpuAfter_some [DecidableEq ι] {scanned : ThreadQueue ι κ} {current : Option Slot}
    (h : q.nextReadySlotForCpuAfter current cpu = some (scanned, slot)) :
    scanned = { q with rrCursor := slot + 1 } ∧ q.readyBitmap slot = true ∧
      ∃ t, q.threads slot = some t ∧ (t.cpuAffinity = none ∨ t.cpuAffinity = some cpu) := by
  unfold nextReadySlotForCpuAfter at h
  dsimp only at h
  split at h
  · cases h
  rename_i found hfind
  cases h
  have hp := List.find?_some hfind
  rw [Bool.and_eq_true, Option.any_eq_true] at hp
  obtain ⟨hbit, t, ht, haff⟩ := hp
  refine ⟨rfl, hbit, t, ht, ?_⟩
  cases ha : t.cpuAffinity with
  | none => exact Or.inl rfl
  | some owner =>
    rw [ha] at haff
    right
    rw [of_decide_eq_true haff]

theorem setStateAtSlot_running (slot : Slot) (ht : q.threads slot = some t) (halive : t.state ≠ .terminated) :
    (q.setStateAtSlot slot .running).1 = (q.put slot { t with state := .running }).setBit slot false := by
  unfold setStateAtSlot
  rw [ht]
  dsimp only
  rw [if_neg (fun h => halive h.1)]
  simp [Thread.selectable]

theorem selectable_ready (h : t.selectable = true) : t.state = .ready := by
  simp only [Thread.selectable, Bool.and_eq_true, decide_eq_true_eq] at h
  exact h.1

variable {current : Option ThreadId}

/-- A selection that finds nothing has requeued the current thread. -/
theorem selectNextThread_eq_none [DecidableEq ι] (h : (q.selectNextThread cpu current).2 = none) :
    (q.selectNextThread cpu current).1 = q.requeueCurrent (current.bind q.slotIndex) := by
  unfold selectNextThread at h ⊢
  dsimp only at h ⊢
  split
  · rfl
  rename_i scanned slot hnext
  rw [hnext] at h
  dsimp only at h
  obtain ⟨rfl, _, t, ht, _⟩ := nextReadySlotForCpuAfter_some hnext
  simp only [ht] at h
  cases h

theorem selectNextThread_none [DecidableEq ι] (h : (q.selectNextThread cpu current).2 = none) :
    q.Safe (q.selectNextThread cpu current).1 := by
  rw [selectNextThread_eq_none h]
  exact (kept_requeueCurrent q _).safe

/-- A selection that finds a thread has requeued the current one, and then claimed and started the thread
    it found, which was selectable. -/
theorem selectNextThread_eq_some [DecidableEq ι] (hb : q.Bits)
    (h : (q.selectNextThread cpu current).2 = some (id, slot)) :
    ∃ t, (q.requeueCurrent (current.bind q.slotIndex)).threads slot = some t ∧ t.id = id ∧ t.state = .ready ∧
      t.selectable = true ∧ (t.cpuAffinity = none ∨ t.cpuAffinity = some cpu) ∧
      (q.selectNextThread cpu current).1 =
        (ThreadQueue.put { q.requeueCurrent (current.bind q.slotIndex) with rrCursor := slot + 1 } slot
          { t with cpuAffinity := some cpu, state := .running }).setBit slot false := by
  have hbits := (kept_requeueCurrent q (current.bind q.slotIndex)).bits hb
  generalize hr : q.requeueCurrent (current.bind q.slotIndex) = r at hbits ⊢
  unfold selectNextThread at h ⊢
  simp only [hr] at h ⊢
  cases hnext : r.nextReadySlotForCpuAfter (current.bind q.slotIndex) cpu with
  | none =>
    simp only [hnext] at h
    cases h
  | some found =>
    obtain ⟨scanned, slot'⟩ := found
    obtain ⟨rfl, hbit, t, ht, howner⟩ := nextReadySlotForCpuAfter_some hnext
    simp only [hnext, ht] at h ⊢
    cases h
    -- the ready bit says that the thread is selectable, hence alive
    have hsel : t.selectable = true := by
      have := hbits slot
      rw [hbit, ht] at this
      exact this.symm
    have hready := selectable_ready hsel
    refine ⟨t, ht, rfl, hready, hsel, howner, ?_⟩
    have hclaim : t.cpuAffinity.or (some cpu) = some cpu := by
      rcases howner with h0 | h0 <;> simp [h0]
    rw [hclaim, setStateAtSlot_running slot (t := { t with cpuAffinity := some cpu })
      (by simp [ThreadQueue.put])
      (by simp [hready])]
    simp [ThreadQueue.put, setBit]

/-- **Specification of selection.** -/
theorem selectNextThread_some [DecidableEq ι] (hw : q.Wf)
    (h : (q.selectNextThread cpu current).2 = some (id, slot)) :
    (∃ t t', Selected q (q.selectNextThread cpu current).1 cpu id slot t t') ∧
      (q.selectNextThread cpu current).1.Wf := by
  have hre := (kept_requeueCurrent q (current.bind q.slotIndex)).safe
  obtain ⟨t1, ht1, hid, hready, hsel, howner, hq⟩ := selectNextThread_eq_some hw.bits h
  rw [hq]
  generalize q.requeueCurrent (current.bind q.slotIndex) = r at hre ht1
  obtain ⟨t, ht, hsame⟩ := hre.tame.backward ht1
  have halive : t1.state ≠ .terminated := by rw [hready]; decide
  refine ⟨⟨t, { t1 with cpuAffinity := some cpu, state := .running }, ?_⟩, ?_⟩
  · refine ⟨ht, ?_, hsame.id.symm.trans hid, ⟨hsame.id, hsame.processId, hsame.context, hsame.kernelStack⟩,
      fun hd => halive (hsame.dead hd), rfl, hsame.cpuAffinity ▸ howner, rfl, ?_⟩
    · simp [ThreadQueue.put, setBit]
    · intro i hi
      simp only [ThreadQueue.put, setBit, update_of_ne hi]
      exact hre.tame i
  · have hw1 : ({ r with rrCursor := slot + 1 } : ThreadQueue ι κ).Wf := ⟨(hre.wf hw).ids, (hre.wf hw).bits⟩
    exact hw1.put_setBit ht1
      (rfl : ({ t1 with cpuAffinity := some cpu, state := .running } : Thread ι κ).id = t1.id)

/-- Requeueing the current thread leaves a selectable thread as it is. -/
theorem requeueCurrent_selectable (hb : q.Bits) (ht : q.threads slot = some t) (hsel : t.selectable = true)
    (current : Option Slot) :
    (q.requeueCurrent current).threads slot = some t ∧
    (q.requeueCurrent current).readyBitmap slot = true := by
  have hbit : q.readyBitmap slot = true := by rw [hb slot, ht]; exact hsel
  unfold requeueCurrent
  split
  · exact ⟨ht, hbit⟩
  · rename_i cur
    split
    · rename_i hrun
      have hne : slot ≠ cur := by
        rintro rfl
        rw [ht] at hrun
        simp [selectable_ready hsel] at hrun
      unfold setStateAtSlot
      split
      · exact ⟨ht, hbit⟩
      · split
        · exact ⟨ht, hbit⟩
        · simp only [put, setBit, update_of_ne hne]
          exact ⟨ht, hbit⟩
    · exact ⟨ht, hbit⟩

/-- Where the scan of `next_ready_slot_for_cpu_after` starts. -/
def scanStart (q : ThreadQueue ι κ) : Option Slot → Slot
  | some slot => slot + 1
  | none => q.rrCursor

theorem requeueCurrent_scanStart (q : ThreadQueue ι κ) (current : Option Slot) :
    (q.requeueCurrent current).scanStart current = q.scanStart current := by
  cases current with
  | none | some _ => rfl

/-- **Specification of the scan**: it finds a slot, and none after a slot that it may take. -/
theorem scanFrom_find {p : Slot → Bool} (hp : p slot = true) (start : Slot) :
    ∃ found, (scanFrom start).find? p = some found ∧ found - start ≤ slot - start := by
  cases hfind : (scanFrom start).find? p with
  | none =>
    -- the scan visits every slot
    refine absurd hp (List.find?_eq_none.mp hfind slot ?_)
    simp only [scanFrom, List.mem_map]
    exact ⟨slot - start, mem_slots _, add_sub_cancel start slot⟩
  | some found =>
    refine ⟨found, rfl, ?_⟩
    obtain ⟨_, i, hi, rfl, hbefore⟩ := List.find?_eq_some_iff_getElem.mp hfind
    simp only [scanFrom, slots, List.getElem_map, List.getElem_finRange] at hbefore ⊢
    by_contra hlt
    have hj : (slot - start).val < i := by simpa [Fin.lt_def] using hlt
    simpa [hp] using hbefore (slot - start).val hj

theorem nextReadySlotForCpuAfter_le [DecidableEq ι] (ht : q.threads slot = some t)
    (hbit : q.readyBitmap slot = true)
    (haff : t.cpuAffinity = none ∨ t.cpuAffinity = some cpu) (current : Option Slot) :
    ∃ found, q.nextReadySlotForCpuAfter current cpu = some ({ q with rrCursor := found + 1 }, found) ∧
      found - q.scanStart current ≤ slot - q.scanStart current := by
  let p : Slot → Bool := fun slot =>
    q.readyBitmap slot && (q.threads slot).any fun t => t.cpuAffinity.all fun owner => owner = cpu
  have hp : p slot = true := by
    rcases haff with h0 | h0 <;> simp [p, hbit, ht, h0]
  obtain ⟨found, hfind, hle⟩ := scanFrom_find hp (q.scanStart current)
  refine ⟨found, ?_, hle⟩
  unfold nextReadySlotForCpuAfter
  cases current with
  | none | some _ =>
    simp only [p, scanStart] at hfind
    simp only [hfind]

/-- **A thread that may run on the CPU makes selection succeed**, and the scan does not go past it. -/
theorem selectNextThread_le [DecidableEq ι] (hb : q.Bits) (ht : q.threads slot = some t)
    (hsel : t.selectable = true)
    (haff : t.cpuAffinity = none ∨ t.cpuAffinity = some cpu) (current : Option ThreadId) :
    ∃ id found, (q.selectNextThread cpu current).2 = some (id, found) ∧ (found = slot → id = t.id) ∧
      found - q.scanStart (current.bind q.slotIndex) ≤ slot - q.scanStart (current.bind q.slotIndex) := by
  obtain ⟨ht', hbit⟩ := requeueCurrent_selectable hb ht hsel (current.bind q.slotIndex)
  obtain ⟨found, hnext, hle⟩ := nextReadySlotForCpuAfter_le ht' hbit haff (current.bind q.slotIndex)
  rw [requeueCurrent_scanStart] at hle
  obtain ⟨-, -, u, hu, -⟩ := nextReadySlotForCpuAfter_some hnext
  refine ⟨u.id, found, ?_, ?_, hle⟩
  · unfold selectNextThread
    simp only [hnext, hu]
  · rintro rfl
    rw [ht'] at hu
    cases hu
    rfl

include hw ht in
theorem selectNextThread_isSome [DecidableEq ι] (hsel : t.selectable = true)
    (haff : t.cpuAffinity = none ∨ t.cpuAffinity = some cpu) : (q.selectNextThread cpu current).2.isSome := by
  obtain ⟨id, found, hfound, -⟩ := selectNextThread_le hw.bits ht hsel haff current
  simp [hfound]

/-! ## Push and removal -/

/-- **Specification of `push`**: the thread goes into a free slot, with the ready bit it should have. -/
theorem push_bits (h : q.push view thread = some q') :
    ∃ slot, q.threads slot = none ∧ q'.threads = update q.threads slot
        (some { thread with processObject := thread.processObject || view.isSome }) ∧
      q'.count = q.count + 1 ∧ (q.Bits → q'.Bits) := by
  unfold push at h
  split at h
  · cases h
  split at h
  · cases h
  split at h
  · cases h
  rename_i slot hfind
  cases h
  have hfree : q.threads slot = none := by simpa using List.find?_some hfind
  refine ⟨slot, hfree, rfl, rfl, fun hb i => ?_⟩
  have hbits := hb i
  by_cases hi : i = slot
  · subst hi
    rw [hfree] at hbits
    cases hsel : thread.selectable with
    | true =>
      simp only [if_true, update_self, Option.any_some]
      exact hsel.symm
    | false =>
      simp only [Bool.false_eq_true, if_false, update_self, Option.any_some]
      exact hbits.trans hsel.symm
  · cases thread.selectable with
    | true | false => simp [update_of_ne hi, hbits]

/-- With a fresh id the queue stays well formed. -/
theorem push_eq_some (h : q.push view thread = some q') :
    ∃ slot, q.threads slot = none ∧ q'.threads = update q.threads slot
        (some { thread with processObject := thread.processObject || view.isSome }) ∧
      (q.Wf → (∀ i t, q.threads i = some t → t.id ≠ thread.id) → q'.Wf) := by
  obtain ⟨slot, hfree, hthreads, -, hbits⟩ := push_bits h
  refine ⟨slot, hfree, hthreads, fun hw hfresh => ⟨?_, hbits hw.bits⟩⟩
  intro i j a b ha hb hab
  simp only [hthreads, update_apply] at ha hb
  split at ha <;> split at hb
  · rw [‹i = slot›, ‹j = slot›]
  · cases ha
    exact absurd hab.symm (hfresh j b hb)
  · cases hb
    exact absurd hab (hfresh i a ha)
  · exact hw.ids i j a b ha hb hab

/-- Removal empties the slot and clears its ready bit. -/
theorem remove_bits (h : q.slotIndex id = some slot) : (q.remove id).1.threads = update q.threads slot none ∧
    (q.remove id).1.count = q.count - 1 ∧ (q.Bits → (q.remove id).1.Bits) := by
  unfold remove
  rw [h]
  refine ⟨rfl, rfl, fun hb i => ?_⟩
  by_cases hi : i = slot
  · subst hi
    simp
  · simp only [update_of_ne hi]
    exact hb i

theorem remove_eq_none (h : (q.remove id).2 = none) :
    (q.remove id).1 = q ∧ ∀ slot t, q.threads slot = some t → t.id ≠ id := by
  unfold remove at h ⊢
  cases hslot : q.slotIndex id with
  | none => exact ⟨rfl, slotIndex_eq_none.mp hslot⟩
  | some slot =>
    obtain ⟨t, ht, _⟩ := slotIndex_eq_some hslot
    simp [hslot, ht] at h

/-- **Specification of `remove`**: the slot of the thread is emptied. -/
theorem remove_eq_some (h : (q.remove id).2 = some t) : ∃ slot, q.threads slot = some t ∧ t.id = id ∧
      (q.remove id).1.threads = update q.threads slot none ∧ (q.Wf → (q.remove id).1.Wf) := by
  cases hslot : q.slotIndex id with
  | none => simp [remove, hslot] at h
  | some slot =>
    obtain ⟨t', ht', hid⟩ := slotIndex_eq_some hslot
    obtain ⟨hthreads, -, hbits⟩ := remove_bits hslot
    simp only [remove, hslot, ht'] at h
    cases h
    refine ⟨slot, ht', hid, hthreads, fun hw => ⟨?_, hbits hw.bits⟩⟩
    intro i j a b ha hb hab
    simp only [hthreads, update_apply] at ha hb
    split at ha
    · cases ha
    split at hb
    · cases hb
    · exact hw.ids i j a b ha hb hab

/-- After a removal no thread has the removed id, and every other thread is where it was. -/
theorem remove_threads (hw : q.Wf) (id : ThreadId) :
    (q.remove id).1.threads slot = some t ↔ q.threads slot = some t ∧ t.id ≠ id := by
  cases hr : (q.remove id).2 with
  | none =>
    obtain ⟨hq, hno⟩ := remove_eq_none hr
    rw [hq]
    exact ⟨fun ht => ⟨ht, hno slot t ht⟩, fun ht => ht.1⟩
  | some gone =>
    obtain ⟨slot', hgone, hid, hthreads, _⟩ := remove_eq_some hr
    rw [hthreads]
    by_cases hs : slot = slot'
    · subst hs
      simp only [update_self, reduceCtorEq, false_iff, not_and, not_not]
      intro ht
      rw [hgone] at ht
      cases ht
      exact hid
    · rw [update_of_ne hs]
      refine ⟨fun ht => ⟨ht, fun heq => hs ?_⟩, fun ht => ht.1⟩
      exact hw.ids slot slot' t gone ht hgone (heq.trans hid.symm)

theorem remove_wf (hw : q.Wf) (id : ThreadId) : (q.remove id).1.Wf := by
  cases hr : (q.remove id).2 with
  | none => rw [(remove_eq_none hr).1]; exact hw
  | some gone =>
    obtain ⟨_, _, _, _, hwf⟩ := remove_eq_some hr
    exact hwf hw

end ThreadQueue

end Mnu.Task
