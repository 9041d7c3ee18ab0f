import Mnu.Task.QueueInv

/-!
# `Mnu.Task.QueueMaps` — queue operations as rewritings of every thread

`Tame` says what an operation leaves alone; this module says what it does. Every operation on the queue but
push and removal is the same rewriting of every slot (`ThreadQueue.Maps`): `set_state`, the wake latch,
suspension, and also selection (`selectNextThread_maps`), which rewrites the thread it leaves and the one it
takes up. An invariant that speaks of one thread at a time is then one obligation per operation.
-/

namespace Mnu.Task

open Function

variable {ι κ : Type} {cpu : ι}

namespace ThreadQueue

/-- Each thread is rewritten in its slot. -/
def Maps (q q' : ThreadQueue ι κ) (g : Thread ι κ → Thread ι κ) : Prop :=
  ∀ slot, q'.threads slot = (q.threads slot).map g

/-- Rewrite one thread only. -/
def only (id : ThreadId) (g : Thread ι κ → Thread ι κ) (t : Thread ι κ) : Thread ι κ :=
  if t.id = id then g t else t

variable {q q' : ThreadQueue ι κ} {g : Thread ι κ → Thread ι κ} {slot : Slot} {t t' : Thread ι κ}
  {current : Option ThreadId} {id : ThreadId} (hw : q.Wf) (ht : q.threads slot = some t)

/-- A thread of the queue before is there after. -/
theorem Maps.forward (h : q.Maps q' g) (ht : q.threads slot = some t) : q'.threads slot = some (g t) := by
  rw [h slot, ht]
  rfl

theorem Maps.backward (h : q.Maps q' g)
    (ht' : q'.threads slot = some t') : ∃ t, q.threads slot = some t ∧ g t = t' := by
  rw [h slot] at ht'
  exact Option.map_eq_some_iff.mp ht'

include hw ht in
/-- An id belongs to one thread. -/
theorem Wf.unique {slot' : Slot} (ht' : q.threads slot' = some t') (hid : t.id = t'.id) : t = t' := by
  have hget := hw.get ht
  rw [hid, hw.get ht'] at hget
  exact (Option.some.inj hget).symm

include hw ht in
/-- Overwriting the one slot that holds a thread is rewriting that thread only. -/
theorem maps_update
    (h : q'.threads = update q.threads slot (some (g t))) : q.Maps q' (only t.id g) := by
  intro i
  rw [h, update_apply]
  split
  · rename_i hi
    rw [hi, ht]
    simp [only]
  · rename_i hi
    cases hq : q.threads i with
    | none => rfl
    | some u =>
      have hne : u.id ≠ t.id := fun hid => hi (hw.ids i slot u t hq ht hid)
      simp [only, hne]

/-- Rewriting a thread that is not there changes nothing. -/
theorem maps_absent (h : q.slotIndex id = none) (g : Thread ι κ → Thread ι κ) : q.Maps q (only id g) := by
  intro slot
  cases hq : q.threads slot with
  | none => rfl
  | some t => simp [only, slotIndex_eq_none.mp h slot t hq]

theorem maps_same (q : ThreadQueue ι κ) (id : ThreadId) : q.Maps q (only id fun t => t) := by
  intro slot
  cases hq : q.threads slot with
  | none => rfl
  | some t => simp [only]

theorem onThread_maps (hw : q.Wf) (id : ThreadId) {f : Slot → Thread ι κ → ThreadQueue ι κ}
    (hf : ∀ slot t, q.threads slot = some t → (f slot t).threads = update q.threads slot (some (g t))) :
    q.Maps (q.onThread id f) (only id g) := by
  unfold onThread
  cases hslot : q.slotIndex id with
  | none => exact maps_absent hslot g
  | some slot =>
    obtain ⟨t, ht, rfl⟩ := slotIndex_eq_some hslot
    simp only [ht]
    exact maps_update hw ht (hf slot t ht)

/-- `set_state` on one thread: the dead stay dead. -/
def withState (state : ThreadState) (t : Thread ι κ) : Thread ι κ :=
  if t.state = .terminated ∧ state ≠ .terminated then t else { t with state := state }

theorem withState_of_alive {state : ThreadState} (h : t.state ≠ .terminated) :
    withState state t = { t with state := state } := by
  simp [withState, h]

theorem setStateAtSlot_threads (ht : q.threads slot = some t) (state : ThreadState) :
    (q.setStateAtSlot slot state).1.threads = update q.threads slot (some (withState state t)) := by
  unfold setStateAtSlot withState
  simp only [ht]
  split
  · exact (update_eq_self_iff.mpr ht.symm).symm
  · rfl

/-- `set_state` is a map over threads. -/
theorem setState_maps (hw : q.Wf) (id : ThreadId) (state : ThreadState) :
    q.Maps (q.setState id state).1 (only id (withState state)) := by
  unfold setState
  cases hslot : q.slotIndex id with
  | none => exact maps_absent hslot _
  | some slot =>
    obtain ⟨t, ht, rfl⟩ := slotIndex_eq_some hslot
    exact maps_update hw ht (setStateAtSlot_threads ht state)

/-- `wake_waiter` on one thread. -/
def woken (latchRunning : Bool) (t : Thread ι κ) : Thread ι κ :=
  match t.state with
  | .sleeping | .blocked => { t with state := .ready }
  | .ready => { t with pendingWakeup := true }
  | .running => if latchRunning then { t with pendingWakeup := true } else t
  | .terminated => t

theorem woken_fields (latch : Bool) (t : Thread ι κ) : (woken latch t).id = t.id ∧
    (woken latch t).isSchedulingSuspended = t.isSchedulingSuspended := by
  unfold woken
  split
  · exact ⟨rfl, rfl⟩
  · exact ⟨rfl, rfl⟩
  · exact ⟨rfl, rfl⟩
  · split <;> exact ⟨rfl, rfl⟩
  · exact ⟨rfl, rfl⟩

theorem woken_alive {latch : Bool} (h : t.state ≠ .terminated) : (woken latch t).state ≠ .terminated := by
  cases hstate : t.state with
  | ready | blocked | sleeping => simp [woken, hstate]
  | running => cases latch <;> simp [woken, hstate]
  | terminated => exact absurd hstate h

/-- So is `wake_waiter`. -/
theorem wakeWaiter_maps (hw : q.Wf) (id : ThreadId) (latchRunning : Bool) :
    q.Maps (q.wakeWaiter id latchRunning) (only id (woken latchRunning)) := by
  refine onThread_maps hw id fun slot t ht => ?_
  have hself : update q.threads slot (some t) = q.threads := update_eq_self_iff.mpr ht.symm
  cases hstate : t.state with simp only [woken, hstate]
  | sleeping | blocked =>
    rw [setStateAtSlot_threads ht]
    simp [withState, hstate]
  | ready =>
    rfl
  | running =>
    split
    · rfl
    · exact hself.symm
  | terminated =>
    exact hself.symm

/-- `take_pending_wakeup` on one thread. -/
def unlatched (t : Thread ι κ) : Thread ι κ := { t with pendingWakeup := false }

theorem takePendingWakeup_maps (hw : q.Wf) (id : ThreadId) :
    q.Maps (q.takePendingWakeup id).1 (only id unlatched) :=
  onThread_maps hw id fun _ _ _ => rfl

include hw ht in
theorem takePendingWakeup_result
    : (q.takePendingWakeup t.id).2 = t.pendingWakeup := by
  simp [takePendingWakeup, hw.get ht]

/-- `suspend_process`, `resume_process`, `hold_image_siblings` and `release_image_hold` on one thread. -/
def suspended (pid : ProcessId) (t : Thread ι κ) : Thread ι κ :=
  (if t.processId = pid then t.suspend else none).getD t

/-- What `resume_process` makes of a thread. -/
def resumed (pid : ProcessId) (t : Thread ι κ) : Thread ι κ :=
  (if t.processId = pid then t.resume else none).getD t

/-- What `hold_image_siblings` makes of a thread. -/
def held (pid : ProcessId) (owner : ThreadId) (t : Thread ι κ) : Thread ι κ :=
  (if t.processId = pid ∧ t.id ≠ owner then some { t with imageHeld := true } else none).getD t

/-- What `release_image_hold` makes of a thread. -/
def released (t : Thread ι κ) : Thread ι κ := { t with imageHeld := false }

theorem suspend_fields (pid : ProcessId) (t : Thread ι κ) :
    (suspended pid t).id = t.id ∧ (suspended pid t).state = t.state ∧
      (suspended pid t).pendingWakeup = t.pendingWakeup := by
  unfold suspended Thread.suspend
  split
  · split <;> exact ⟨rfl, rfl, rfl⟩
  · exact ⟨rfl, rfl, rfl⟩

theorem resume_fields (pid : ProcessId) (t : Thread ι κ) :
    (resumed pid t).id = t.id ∧ (resumed pid t).state = t.state ∧
      (resumed pid t).pendingWakeup = t.pendingWakeup := by
  unfold resumed Thread.resume
  split
  · split <;> exact ⟨rfl, rfl, rfl⟩
  · exact ⟨rfl, rfl, rfl⟩

theorem hold_fields (pid : ProcessId) (owner : ThreadId) (t : Thread ι κ) :
    (held pid owner t).id = t.id ∧ (held pid owner t).state = t.state ∧
      (held pid owner t).pendingWakeup = t.pendingWakeup := by
  unfold held
  split <;> exact ⟨rfl, rfl, rfl⟩

theorem release_fields (id : ThreadId) (t : Thread ι κ) : (only id released t).id = t.id ∧
      (only id released t).state = t.state ∧ (only id released t).pendingWakeup = t.pendingWakeup := by
  unfold only
  split <;> exact ⟨rfl, rfl, rfl⟩

theorem suspendProcess_maps (q : ThreadQueue ι κ) (pid : ProcessId) :
    q.Maps (q.suspendProcess pid) (suspended pid) := fun _ => rfl

theorem resumeProcess_maps (q : ThreadQueue ι κ) (pid : ProcessId) :
    q.Maps (q.resumeProcess pid) (resumed pid) := fun _ => rfl

theorem holdImageSiblings_maps (q : ThreadQueue ι κ) (pid : ProcessId) (owner : ThreadId) :
    q.Maps (q.holdImageSiblings pid owner) (held pid owner) := fun _ => rfl

theorem releaseImageHold_maps (hw : q.Wf) (id : ThreadId) : q.Maps (q.releaseImageHold id)
    (only id released) := by
  refine onThread_maps hw id fun slot t _ => ?_
  dsimp only
  split <;> rfl

/-- The current thread is requeued if it runs. -/
def requeued (current : Option ThreadId) (t : Thread ι κ) : Thread ι κ :=
  if current = some t.id ∧ t.state = .running then { t with state := .ready } else t

theorem requeueCurrent_maps (hw : q.Wf) (current : Option ThreadId) :
    q.Maps (q.requeueCurrent (current.bind q.slotIndex)) (requeued current) := by
  cases current with
  | none =>
    intro slot
    cases hq : q.threads slot with
    | none => simp [requeueCurrent, hq]
    | some t => simp [requeueCurrent, requeued, hq]
  | some id =>
    cases hslot : q.slotIndex id with
    | none =>
      intro slot
      cases hq : q.threads slot with
      | none => simp [requeueCurrent, hslot, hq]
      | some t =>
        have hne : ¬ id = t.id := fun h => slotIndex_eq_none.mp hslot slot t hq h.symm
        simp [requeueCurrent, requeued, hslot, hq, hne]
    | some slot =>
      obtain ⟨t, ht, rfl⟩ := slotIndex_eq_some hslot
      have hmap : q.Maps (q.requeueCurrent (some slot))
          (only t.id fun u => if u.state = .running then { u with state := .ready } else u) := by
        refine maps_update hw ht ?_
        unfold requeueCurrent
        simp only [ht, Option.any_some]
        by_cases hrun : t.state = .running
        · simp only [hrun, decide_true, if_true]
          rw [setStateAtSlot_threads ht]
          simp [withState, hrun]
        · simp only [hrun, decide_false, if_false, Bool.false_eq_true]
          exact (update_eq_self_iff.mpr ht.symm).symm
      intro i
      simp only [Option.bind_some, hslot]
      rw [hmap i]
      cases hq : q.threads i with
      | none => rfl
      | some u =>
        by_cases hid : u.id = t.id
        · simp [only, requeued, hid]
        · have hid' : ¬ t.id = u.id := fun h => hid h.symm
          simp [only, requeued, hid, hid']

/-- A selection that finds nothing has requeued the current thread. -/
theorem selectNextThread_none_maps [DecidableEq ι] (hw : q.Wf)
    (h : (q.selectNextThread cpu current).2 = none) :
    q.Maps (q.selectNextThread cpu current).1 (requeued current) := by
  rw [selectNextThread_eq_none h]
  exact requeueCurrent_maps hw current

/-- The selected thread is claimed and runs, the previous one is requeued. -/
def switched (cpu : ι) (current : Option ThreadId) (id : ThreadId) (t : Thread ι κ) : Thread ι κ :=
  if t.id = id then { t with cpuAffinity := some cpu, state := .running } else requeued current t

/-- **Selection rewrites two threads**: it finds one that is ready once the current one is requeued. -/
theorem selectNextThread_maps [DecidableEq ι]
    (hw : q.Wf) (h : (q.selectNextThread cpu current).2 = some (id, slot)) :
    q.Maps (q.selectNextThread cpu current).1 (switched cpu current id) ∧
      ∃ t, q.threads slot = some t ∧ t.id = id ∧ (requeued current t).selectable = true ∧
        (t.cpuAffinity = none ∨ t.cpuAffinity = some cpu) := by
  have hmap := requeueCurrent_maps hw current
  have hwr := (kept_requeueCurrent q (current.bind q.slotIndex)).safe.wf hw
  obtain ⟨u, hu, hid, hready, hsel, howner, hq⟩ := selectNextThread_eq_some hw.bits h
  rw [hq]
  generalize q.requeueCurrent (current.bind q.slotIndex) = r at hmap hwr hu
  obtain ⟨t, ht, rfl⟩ := hmap.backward hu
  have hid' : (requeued current t).id = t.id := by
    unfold requeued
    split <;> rfl
  have haff : (requeued current t).cpuAffinity = t.cpuAffinity := by
    unfold requeued
    split <;> rfl
  refine ⟨?_, t, ht, hid'.symm.trans hid, hsel, haff ▸ howner⟩
  -- seen from the requeued queue only the chosen thread changes
  have hclaimed : r.Maps ((ThreadQueue.put { r with rrCursor := slot + 1 } slot
        { requeued current t with cpuAffinity := some cpu, state := .running }).setBit slot false)
      (only (requeued current t).id fun v => { v with cpuAffinity := some cpu, state := .running }) :=
    maps_update hwr hu rfl
  intro i
  rw [hclaimed i, hmap i, Option.map_map]
  congr 1
  funext v
  have hvid : (requeued current v).id = v.id := by
    unfold requeued
    split <;> rfl
  simp only [comp, only, switched, hid, hvid]
  split
  · rename_i heq
    unfold requeued
    split <;> simp [heq]
  · rfl

end ThreadQueue

end Mnu.Task
