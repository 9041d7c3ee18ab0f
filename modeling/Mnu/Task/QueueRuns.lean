import Mnu.Lib.Run
import Mnu.Lib.Total
import Mnu.Task.QueueInv

/-!
# `Mnu.Task.QueueRuns` — the thread queue over whole runs

Two results about `ThreadQueue` taken by itself, whoever calls it and with whatever arguments.

* After any sequence of operations the ready bitmap and the count say what the slots hold, and no operation
  revives a terminated thread. Nothing is assumed of the callers: `push` may be given an id that is already in
  the queue, or a thread in any state.
* Round robin is fair. Each selection that passes over a waiting thread brings the start of the scan closer
  to it (`selectNextThread_closer`), so it is passed over at most 63 times.
-/

namespace Mnu.Task

open Lib Function ThreadQueue

variable {ι κ : Type}

/-! ## Runs of operations -/

/-- The operations on a queue, with their arguments. -/
inductive QueueOp (ι κ : Type) where
  | push (view : Option ProcessView) (thread : Thread ι κ)
  | remove (id : ThreadId)
  | setState (id : ThreadId) (state : ThreadState)
  | setStateAtSlot (slot : Slot) (state : ThreadState)
  | suspendProcess (pid : ProcessId)
  | resumeProcess (pid : ProcessId)
  | holdImageSiblings (pid : ProcessId) (owner : ThreadId)
  | releaseImageHold (id : ThreadId)

/-- The queue after an operation. -/
def QueueOp.apply (q : ThreadQueue ι κ) : QueueOp ι κ → ThreadQueue ι κ
  | push view thread => (q.push view thread).getD q  -- a refusal leaves the queue alone
  | remove id => (q.remove id).1
  | setState id state => (q.setState id state).1
  | setStateAtSlot slot state => (q.setStateAtSlot slot state).1
  | suspendProcess pid => q.suspendProcess pid
  | resumeProcess pid => q.resumeProcess pid
  | holdImageSiblings pid owner => q.holdImageSiblings pid owner
  | releaseImageHold id => q.releaseImageHold id

/-- All sequences of operations on a new queue. -/
def queueRuns (ι κ : Type) : System (ThreadQueue ι κ) (QueueOp ι κ) where
  init q := q = ThreadQueue.new
  step q op := some (op.apply q)

namespace ThreadQueue

/-- The number of slots that hold a thread. -/
def occupied (q : ThreadQueue ι κ) : Nat := (Finset.univ.filter fun slot => (q.threads slot).isSome).card

theorem occupied_eq_total (q : ThreadQueue ι κ) :
    q.occupied = total (fun x => if x.isSome then 1 else 0) q.threads := Finset.card_filter _ _

variable {q q' : ThreadQueue ι κ} {slot : Slot}

theorem Tame.occupied (h : q.Tame q') : q'.occupied = q.occupied := by
  have hsome (slot : Slot) : (q'.threads slot).isSome = (q.threads slot).isSome := by
    have hs := h slot
    generalize q.threads slot = x at hs ⊢
    generalize q'.threads slot = y at hs ⊢
    cases hs with
    | none | some _ => rfl
  simp only [ThreadQueue.occupied, hsome]

/-- What one operation does to a queue: it leaves every thread in its slot, or fills a free slot, or
    empties one. -/
inductive Turns (q q' : ThreadQueue ι κ) : Prop where
  | kept (h : q.Kept q')
  | pushed (slot : Slot) (t : Thread ι κ) (hfree : q.threads slot = none)
      (hthreads : q'.threads = update q.threads slot (some t)) (hcount : q'.count = q.count + 1)
      (hbits : q.Bits → q'.Bits)
  | removed (slot : Slot) (t : Thread ι κ) (ht : q.threads slot = some t)
      (hthreads : q'.threads = update q.threads slot none) (hcount : q'.count = q.count - 1)
      (hbits : q.Bits → q'.Bits)

theorem turns_apply (q : ThreadQueue ι κ) (op : QueueOp ι κ) : q.Turns (op.apply q) := by
  cases op with dsimp only [QueueOp.apply]
  | push view thread =>
    cases hpush : q.push view thread with
    | none => exact .kept .refl
    | some q' =>
      obtain ⟨slot, hfree, hthreads, hcount, hbits⟩ := push_bits hpush
      exact .pushed slot _ hfree hthreads hcount hbits
  | remove id =>
    cases hslot : q.slotIndex id with
    | none =>
      simp only [ThreadQueue.remove, hslot]
      exact .kept .refl
    | some slot =>
      obtain ⟨t, ht, _⟩ := slotIndex_eq_some hslot
      obtain ⟨hthreads, hcount, hbits⟩ := remove_bits hslot
      exact .removed slot t ht hthreads hcount hbits
  | setState id state => exact .kept (kept_setState q id state)
  | setStateAtSlot slot state => exact .kept (kept_setStateAtSlot q slot state)
  | suspendProcess pid => exact .kept (kept_suspendProcess q pid)
  | resumeProcess pid => exact .kept (kept_resumeProcess q pid)
  | holdImageSiblings pid owner => exact .kept (kept_holdImageSiblings q pid owner)
  | releaseImageHold id => exact .kept (kept_releaseImageHold q id)

/-- The bitmap and the count say what the slots hold. -/
structure Consistent (q : ThreadQueue ι κ) : Prop where
  bits : q.Bits
  count : q.count = q.occupied

theorem Turns.consistent (h : q.Turns q') (hq : q.Consistent) : q'.Consistent := by
  have hcount := hq.count
  rw [occupied_eq_total] at hcount
  cases h with
  | kept h => exact ⟨h.bits hq.bits, by rw [h.count, hq.count, h.tame.occupied]⟩
  | pushed slot t hfree hthreads hcount' hbits =>
    refine ⟨hbits hq.bits, ?_⟩
    have htotal :=
      total_update (fun x : Option (Thread ι κ) => if x.isSome then 1 else 0) q.threads slot (some t)
    simp only [hfree, Option.isSome_none, Option.isSome_some, Bool.false_eq_true, if_true, if_false] at htotal
    rw [occupied_eq_total, hthreads, hcount', hcount, ← htotal, Nat.add_zero]
  | removed slot t ht hthreads hcount' hbits =>
    refine ⟨hbits hq.bits, ?_⟩
    have htotal := total_update (fun x : Option (Thread ι κ) => if x.isSome then 1 else 0) q.threads slot none
    simp only [ht, Option.isSome_none, Option.isSome_some, Bool.false_eq_true, if_true, if_false] at htotal
    rw [occupied_eq_total, hthreads, hcount', hcount, ← Nat.add_zero (total _ q.threads), ← htotal,
      Nat.add_sub_cancel]

/-- A terminated thread stays as it is or leaves the queue. -/
theorem Turns.terminated (h : q.Turns q') {t : Thread ι κ} (ht : q.threads slot = some t)
    (hdead : t.state = .terminated) :
    q'.threads slot = none ∨ ∃ t', q'.threads slot = some t' ∧ t'.id = t.id ∧ t'.state = .terminated := by
  cases h with
  | kept h =>
    obtain ⟨t', ht', hsame⟩ := h.tame.forward ht
    exact .inr ⟨t', ht', hsame.id, hsame.dead hdead⟩
  | pushed free _ hfree hthreads =>
    have hne : slot ≠ free := by
      rintro rfl
      rw [hfree] at ht
      cases ht
    rw [hthreads, update_of_ne hne]
    exact .inr ⟨t, ht, rfl, hdead⟩
  | removed gone _ _ hthreads =>
    rw [hthreads]
    by_cases hs : slot = gone
    · simp [hs]
    · rw [update_of_ne hs]
      exact .inr ⟨t, ht, rfl, hdead⟩

theorem consistent_of_reachable {q : ThreadQueue ι κ} (h : (queueRuns ι κ).Reachable q) : q.Consistent := by
  refine System.Reach.invariant (fun q h0 => ?_) (fun q op q' hq _ hs => ?_) h
  · subst h0
    exact ⟨fun _ => rfl, by simp [occupied, ThreadQueue.new]⟩
  · cases hs
    exact (turns_apply q op).consistent hq

/-- **The queue over every sequence of operations**: a ready bit is set exactly when its slot holds a thread
    that is ready and neither suspended nor held, the count is the number of occupied slots, and whatever
    operation comes next, a terminated thread is still terminated after it or has left the queue. -/
theorem reachable_queue_consistent {q : ThreadQueue ι κ} (h : (queueRuns ι κ).Reachable q) :
    (∀ slot, q.readyBitmap slot = true ↔ ∃ t, q.threads slot = some t ∧ t.state = .ready ∧
      t.schedulingSuspended = false ∧ t.imageHeld = false) ∧
    q.count = q.occupied ∧
    ∀ (op : QueueOp ι κ) slot t, q.threads slot = some t → t.state = .terminated →
      (op.apply q).threads slot = none ∨
        ∃ t', (op.apply q).threads slot = some t' ∧ t'.id = t.id ∧ t'.state = .terminated := by
  have hq := consistent_of_reachable h
  refine ⟨fun slot => ?_, hq.count, fun op slot t ht hdead => (turns_apply q op).terminated ht hdead⟩
  rw [hq.bits slot, Option.any_eq_true]
  simp [Thread.selectable, Thread.isSchedulingSuspended]

/-- A ready thread of process `pid`, not yet claimed by a CPU. -/
def fresh (id : ThreadId) (pid : ProcessId) : Thread (Fin 2) Unit :=
  ⟨id, pid, false, .ready, false, false, none, (), .outside, false⟩

/-- A thread is suspended and held, then resumed but not released; another is terminated and woken. -/
theorem reachable_queue_consistent_of_held : ∃ q : ThreadQueue (Fin 2) Unit,
    (queueRuns (Fin 2) Unit).Reachable q ∧ q.readyBitmap 0 = false ∧ q.readyBitmap 1 = false ∧ q.count = 2 ∧
      q.occupied = 2 := by
  obtain ⟨q, hreach, hfirst, hsecond, hq⟩ := System.reachable_of_exec (queueRuns (Fin 2) Unit) ThreadQueue.new
    [.push none (fresh 7 1), .push none (fresh 8 2), .suspendProcess 1,
      .holdImageSiblings 1 0, .resumeProcess 1, .setState 8 .terminated, .setState 8 .ready]
    (fun q => q.readyBitmap 0 = false ∧ q.readyBitmap 1 = false ∧ q.count = 2) rfl (by decide +kernel)
  obtain ⟨-, hcount, -⟩ := reachable_queue_consistent hreach
  exact ⟨q, hreach, hfirst, hsecond, hq, hcount.symm.trans hq⟩

/-! ## Round robin -/

/-- The thread with this id is in `slot`, ready, not suspended, and may run on `cpu`. -/
def Waits (q : ThreadQueue ι κ) (cpu : ι) (id : ThreadId) (slot : Slot) : Prop :=
  ∃ t, q.threads slot = some t ∧ t.id = id ∧ t.state = .ready ∧ t.isSchedulingSuspended = false ∧
    (t.cpuAffinity = none ∨ t.cpuAffinity = some cpu)

/-- Going on from a slot strictly before the target shortens the way around the ring. -/
theorem sub_succ_lt {start found : Slot} (hle : found - start ≤ slot - start) (hne : found ≠ slot) :
    slot - (found + 1) < slot - start := by
  have hlt : found - start < slot - start :=
    lt_of_le_of_ne hle fun h => hne (sub_left_injective h)
  have hrest : slot - (found + 1) = slot - start - (found - start) - 1 := by abel
  have hgap := Fin.sub_val_of_le hle
  rw [Fin.lt_def] at hlt ⊢
  have hone : (1 : Slot) ≤ slot - start - (found - start) := by
    rw [Fin.le_def, hgap, Fin.val_one]
    omega
  rw [hrest, Fin.sub_val_of_le hone, hgap, Fin.val_one]
  omega

/-- **One selection** takes the waiting thread, or the next scan starts closer to it. -/
theorem selectNextThread_closer [DecidableEq ι] {cpu : ι} {id : ThreadId} (hb : q.Bits)
    (hw : q.Waits cpu id slot) (current : Option ThreadId) :
    (q.selectNextThread cpu current).2 = some (id, slot) ∨
      ∃ other found, (q.selectNextThread cpu current).2 = some (other, found) ∧
        slot - (found + 1) < slot - q.scanStart (current.bind q.slotIndex) := by
  obtain ⟨t, ht, rfl, hready, hfree, haff⟩ := hw
  have hsel : t.selectable = true := by simp [Thread.selectable, hready, hfree]
  obtain ⟨other, found, hfound, hid, hle⟩ := selectNextThread_le hb ht hsel haff current
  by_cases hne : found = slot
  · left
    rw [hfound, hid hne, hne]
  · exact .inr ⟨other, found, hfound, sub_succ_lt hle hne⟩

end ThreadQueue

/-- A run of selections on `cpu`: the queue that each one finds, and the thread the CPU is running then. What
    happens to the queue between two selections is arbitrary, but for the bitmap, which every operation keeps
    right; each scan starts after the slot that was selected last. -/
structure Selections (κ : Type) [DecidableEq ι] (cpu : ι) where
  queue : Nat → ThreadQueue ι κ
  current : Nat → Option ThreadId
  bits : ∀ n, (queue n).Bits
  follows : ∀ n id slot, ((queue n).selectNextThread cpu (current n)).2 = some (id, slot) →
    (queue (n + 1)).scanStart ((current (n + 1)).bind (queue (n + 1)).slotIndex) = slot + 1

namespace Selections

variable [DecidableEq ι] {cpu : ι}

/-- What the `n`-th selection answers. -/
def selected (run : Selections κ cpu) (n : Nat) : Option (ThreadId × Slot) :=
  ((run.queue n).selectNextThread cpu (run.current n)).2

/-- **Bounded fairness.** A thread that waits at each selection until one takes it is taken by one of the
    first 64, however the other threads come and go. -/
theorem selected_of_waits (run : Selections κ cpu) {id : ThreadId} {slot : Slot}
    (h : ∀ n, (∀ m < n, run.selected m ≠ some (id, slot)) → (run.queue n).Waits cpu id slot) :
    ∃ n < 64, run.selected n = some (id, slot) := by
  by_contra hnever
  push Not at hnever
  -- each selection that passes the thread over brings the scan at least one slot closer
  have hcloser (n : Nat) : n ≤ 64 →
      (slot - (run.queue n).scanStart ((run.current n).bind (run.queue n).slotIndex)).val + n < 64 := by
    induction n with
    | zero =>
      intro _
      exact Fin.isLt _
    | succ n ih =>
      intro hn
      have hw := h n fun m hm => hnever m (by omega)
      rcases selectNextThread_closer (run.bits n) hw (run.current n) with htaken | ⟨other, found, hfound, hlt⟩
      · exact absurd htaken (hnever n (by omega))
      rw [run.follows n other found hfound]
      have := ih (by omega)
      rw [Fin.lt_def] at hlt
      omega
  have := hcloser 64 (Nat.le_refl 64)
  omega

/-- Two ready threads. -/
def pair : ThreadQueue (Fin 2) Unit where
  threads slot := if slot = 0 then some (fresh 7 1) else if slot = 1 then some (fresh 8 1) else none
  readyBitmap slot := slot = 0 || slot = 1
  rrCursor := 0
  count := 2

/-- They take turns on a CPU. -/
def turns : Selections Unit (0 : Fin 2) where
  queue _ := pair
  current n := some (bif n.bodd then 8 else 7)
  bits _ := by
    unfold ThreadQueue.Bits
    decide
  follows n id slot h := by
    have h7 : (pair.selectNextThread 0 (some 7)).2 = some (8, 1) := by decide +kernel
    have h8 : (pair.selectNextThread 0 (some 8)).2 = some (7, 0) := by decide +kernel
    cases hn : n.bodd with
    | false =>
      simp only [hn, cond_false, h7] at h
      cases h
      simp only [Nat.bodd_succ, hn]
      decide +kernel
    | true =>
      simp only [hn, cond_true, h8] at h
      cases h
      simp only [Nat.bodd_succ, hn]
      decide +kernel

theorem selected_of_waits_turns : ∃ n < 64, turns.selected n = some (8, 1) :=
  turns.selected_of_waits fun _ _ => ⟨fresh 8 1, rfl, rfl, rfl, rfl, .inl rfl⟩

end Selections

end Mnu.Task
