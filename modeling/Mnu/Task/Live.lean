import Mnu.Task.QueueMaps
import Mnu.Task.Steps

/-!
# `Mnu.Task.Live` — which steps end a thread

A live thread is one that is in the queue and not terminated. Very few steps of the machine can end one:
`terminate_thread`, by marking it, and the thread itself at the beginning of its exit. Everything else
either leaves the states alone or removes a thread that was already dead. `Spares` is that statement for one
operation on the queue, with the victim it may have; `Consistent.spares` is it for a step of the machine.
-/

namespace Mnu.Task

open Lib Function

namespace ThreadQueue

variable {ι κ : Type} {q q' : ThreadQueue ι κ} {victim : Option ThreadId} {id : ThreadId}
  {g : Thread ι κ → Thread ι κ}

/-- The thread is in the queue and not terminated. -/
def Live (q : ThreadQueue ι κ) (id : ThreadId) : Prop :=
  ∃ slot t, q.threads slot = some t ∧ t.id = id ∧ t.state ≠ .terminated

/-- Every live thread but the victim stays where it is, and alive. -/
def Spares (victim : Option ThreadId) (q q' : ThreadQueue ι κ) : Prop :=
  ∀ slot t, q.threads slot = some t → t.state ≠ .terminated → victim ≠ some t.id →
    ∃ t', q'.threads slot = some t' ∧ t'.id = t.id ∧ t'.state ≠ .terminated

theorem Spares.live (h : Spares victim q q') (hlive : q.Live id) (hne : victim ≠ some id) : q'.Live id := by
  obtain ⟨slot, t, ht, rfl, halive⟩ := hlive
  obtain ⟨t', ht', hid, halive'⟩ := h slot t ht halive hne
  exact ⟨slot, t', ht', hid, halive'⟩

theorem Spares.refl {victim : Option ThreadId} {q : ThreadQueue ι κ} : Spares victim q q :=
  fun _ t ht halive _ => ⟨t, ht, rfl, halive⟩

/-- Rewriting a thread that stays alive. -/
theorem spares_put {slot : Slot} {t t' : Thread ι κ} (ht : q.threads slot = some t) (hid : t'.id = t.id)
    (halive : t.state ≠ .terminated → victim ≠ some t.id → t'.state ≠ .terminated) :
    Spares victim q (q.put slot t') := by
  intro i u hu hualive hne
  by_cases hi : i = slot
  · subst hi
    rw [ht] at hu
    cases hu
    exact ⟨t', update_self _ _ _, hid, halive hualive hne⟩
  · exact ⟨u, (update_of_ne hi _ _).trans hu, rfl, hualive⟩

/-- Rewriting all threads, each of which stays alive. -/
theorem Maps.spares (h : q.Maps q' g) (hid : ∀ t, (g t).id = t.id)
    (halive : ∀ t, t.state ≠ .terminated → victim ≠ some t.id → (g t).state ≠ .terminated) :
    Spares victim q q' :=
  fun _ t ht hlive hne => ⟨g t, h.forward ht, hid t, halive t hlive hne⟩

/-- Rewriting one thread. -/
theorem Maps.spares_only (h : q.Maps q' (only id g)) (hid : ∀ t, (g t).id = t.id)
    (halive : ∀ t, t.state ≠ .terminated → victim ≠ some id → (g t).state ≠ .terminated) :
    Spares victim q q' := by
  refine h.spares (fun t => ?_) fun t hlive hne => ?_
  · unfold only
    split
    · exact hid t
    · rfl
  · unfold only
    split
    · rename_i heq
      exact halive t hlive (heq ▸ hne)
    · exact hlive

theorem spares_setState (hw : q.Wf) {state : ThreadState}
    (h : state ≠ .terminated ∨ victim = some id) : Spares victim q (q.setState id state).1 := by
  refine (setState_maps hw id state).spares_only (fun t => ?_) fun t hlive hne => ?_
  · unfold withState
    split <;> rfl
  · rw [withState_of_alive hlive]
    exact h.resolve_right hne

/-- None of the operations of the rest of the kernel ends a thread. -/
theorem spares_asyncOp (hw : q.Wf) (op : AsyncOp) : Spares none q (op.apply q) := by
  cases op with
  | wake id latchRunning =>
    exact (wakeWaiter_maps hw id latchRunning).spares_only (fun t => (woken_fields latchRunning t).1)
      fun t hlive _ => woken_alive hlive
  | takePending id => exact (takePendingWakeup_maps hw id).spares_only (fun _ => rfl) fun _ hlive _ => hlive
  | setState id state => exact spares_setState hw (.inl (by cases state <;> nofun))
  | suspend pid =>
    exact (suspendProcess_maps q pid).spares (fun t => (suspend_fields pid t).1)
      fun t hlive _ => (suspend_fields pid t).2.1 ▸ hlive
  | resume pid =>
    exact (resumeProcess_maps q pid).spares (fun t => (resume_fields pid t).1)
      fun t hlive _ => (resume_fields pid t).2.1 ▸ hlive
  | holdImage pid owner =>
    exact (holdImageSiblings_maps q pid owner).spares (fun t => (hold_fields pid owner t).1)
      fun t hlive _ => (hold_fields pid owner t).2.1 ▸ hlive
  | releaseHold id => exact (releaseImageHold_maps hw id).spares_only (fun _ => rfl) fun _ hlive _ => hlive

theorem spares_selectNextThread [DecidableEq ι] (hw : q.Wf) (cpu : ι)
    (current : Option ThreadId) : Spares none q (q.selectNextThread cpu current).1 := by
  have hrequeued (t : Thread ι κ) : (requeued current t).id = t.id ∧
      (t.state ≠ .terminated → (requeued current t).state ≠ .terminated) := by
    unfold requeued
    split
    · exact ⟨rfl, nofun⟩
    · exact ⟨rfl, fun hlive => hlive⟩
  cases hsel : (q.selectNextThread cpu current).2 with
  | none =>
    exact (selectNextThread_none_maps hw hsel).spares (fun t => (hrequeued t).1) fun t hlive _ =>
      (hrequeued t).2 hlive
  | some found =>
    refine (selectNextThread_maps hw hsel).1.spares (fun t => ?_) fun t hlive _ => ?_
    · unfold switched
      split
      · rfl
      · exact (hrequeued t).1
    · unfold switched
      split
      · exact nofun
      · exact (hrequeued t).2 hlive

theorem spares_push {view : Option ProcessView} {thread : Thread ι κ} (h : q.push view thread = some q') :
    Spares victim q q' := by
  obtain ⟨free, hfree, hthreads, -⟩ := push_eq_some h
  intro slot t ht halive _
  have hne : slot ≠ free := by
    rintro rfl
    rw [hfree] at ht
    cases ht
  exact ⟨t, by rw [hthreads, update_of_ne hne]; exact ht, rfl, halive⟩

/-- Removing a dead thread. -/
theorem spares_remove (hw : q.Wf)
    (hdead : ∀ slot t, q.threads slot = some t → t.id = id → t.state = .terminated) :
    Spares victim q (q.remove id).1 := by
  intro slot t ht halive _
  exact ⟨t, (remove_threads hw id).mpr ⟨ht, fun hid => halive (hdead slot t ht hid)⟩, rfl, halive⟩

end ThreadQueue

end Mnu.Task
