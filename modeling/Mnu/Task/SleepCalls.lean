import Mnu.Task.SleepWake

/-!
# `Mnu.Task.SleepCalls` — system calls that wait by sleeping

A family of system calls that wait in `sleep_thread_unless_woken` is given by the places a thread can be at
(`Places`): in user mode, about to call it, in it, or at a place where the thread may be off its CPU. A system
call runs with interrupts off, so its thread loses the CPU only where it yields by itself.

`Core` is what every such family can rely on, and each kind of step keeps it: a step of the scheduler
(`Core.sched`), a change of place (`Core.setProg`), and the steps of the sleep call itself (`Core.call`,
`Core.advance`, `Core.leave`). `Due` says that a thread has been notified since it last looked: it is
established by a wakeup, survives everything until the thread looks again, and a thread that is due does not
stay asleep (`Core.due_awake`).
-/

namespace Mnu.Task.Sleep

open Function

variable {ι κ P : Type}

/-- How the places in a family of system calls behave. -/
structure Places (P : Type) where
  /-- In user mode. -/
  away : P → Bool
  /-- About to call `sleep_thread_unless_woken`. -/
  calling : P → Bool
  /-- In the sleep call, or in the yield after it. -/
  asleep : P → Bool
  /-- The thread may be off its CPU. -/
  parked : P → Bool
  parked_of_away : ∀ p, away p = true → parked p = true
  not_asleep_of_parked : ∀ p, parked p = true → asleep p = false
  of_calling : ∀ p, calling p = true → parked p = false ∧ asleep p = false

/-- The thread is there, and not terminated. -/
def Alive (s : State ι κ) (id : ThreadId) : Prop :=
  ∃ slot t, s.queue.threads slot = some t ∧ t.id = id ∧ t.state ≠ .terminated

/-- The invariant of threads in calls. -/
structure Core (idle : Idle ι) (K : Places P) (s : State ι κ) (prog : ThreadId → P) : Prop where
  sleep : Inv idle s
  outside : ∀ id, K.asleep (prog id) = false → s.pc id = .outside
  here : ∀ id, K.parked (prog id) = false → OnCpu s id
  alive : ∀ id, K.away (prog id) = false → Alive s id
  idle : ∀ c, K.away (prog (idle.thread c)) = true

/-- A thread has been notified since it last looked: it is owed a wakeup, and one that is about to sleep will
    find it in its latch. -/
def Due (K : Places P) (s : State ι κ) (prog : ThreadId → P) (id : ThreadId) : Prop :=
  s.owed id = true ∧ (K.calling (prog id) = true → latched s id = true)

section

variable {idle : Idle ι} {K : Places P} {s s' : State ι κ} {prog prog' : ThreadId → P} {id : ThreadId} {c : ι}
  {l : Label ι} {p : P}

theorem OnCpu.alive (h : Inv idle s) (hon : OnCpu s id) : Alive s id := by
  obtain ⟨c, hc⟩ := hon
  obtain ⟨slot, t, ht, hid, _, hd⟩ := h.placed c id hc
  exact ⟨slot, t, ht, hid, hd⟩

/-- Nobody is in a call. -/
theorem Core.start (h : Start idle s) (haway : ∀ id, K.away (prog id) = true) : Core idle K s prog := by
  refine ⟨inv_start h, fun id _ => h.outside id, fun id h0 => ?_, fun id h0 => ?_, fun c => haway _⟩
  · rw [K.parked_of_away _ (haway id)] at h0
    cases h0
  · rw [haway id] at h0
    cases h0

theorem latched_iff (hw : s.queue.Wf) : latched s id = true ↔
    ∃ slot t, s.queue.threads slot = some t ∧ t.id = id ∧ t.pendingWakeup = true := by
  constructor
  · intro h
    obtain ⟨t, ht, hp⟩ := (Option.any_eq_true _ _).mp h
    obtain ⟨slot, _, hslot, hid⟩ := ThreadQueue.get_eq_some ht
    exact ⟨slot, t, hslot, hid, hp⟩
  · rintro ⟨slot, t, ht, rfl, hp⟩
    simp [latched, hw.get ht, hp]

/-! ## Changing place -/

/-- What `Core` says of the thread `id` at the place `p`. -/
def Seat (K : Places P) (s : State ι κ) (id : ThreadId) (p : P) : Prop :=
  (K.asleep p = false → s.pc id = .outside) ∧ (K.parked p = false → OnCpu s id) ∧
    (K.away p = false → Alive s id)

/-- `Core` is about one thread at a time, and about the idle threads. -/
theorem Core.of_seats (hsleep : Inv idle s) (hself : Seat K s id p)
    (hother : ∀ k, k ≠ id → Seat K s k (prog k))
    (hold : ∀ c, K.away (prog (idle.thread c)) = true) (hidle : ∀ c, id = idle.thread c → K.away p = true) :
    Core idle K s (update prog id p) := by
  have hseat : ∀ k, Seat K s k (update prog id p k) := (forall_update_iff _ (Seat K s)).mpr ⟨hself, hother⟩
  refine ⟨hsleep, fun k => (hseat k).1, fun k => (hseat k).2.1, fun k => (hseat k).2.2, fun c => ?_⟩
  rw [update_apply]
  split
  · rename_i heq
    exact hidle c heq.symm
  · exact hold c

/-- The current thread goes on to another place. -/
theorem Core.setProg (h : Core idle K s prog) (hon : OnCpu s id)
    (hout : K.asleep p = false → s.pc id = .outside) (hidle : ∀ c, id = idle.thread c → K.away p = true) :
    Core idle K s (update prog id p) :=
  .of_seats h.sleep ⟨hout, fun _ => hon, fun _ => hon.alive h.sleep⟩
    (fun k _ => ⟨h.outside k, h.here k, h.alive k⟩) h.idle hidle

/-- A thread that is in a call is not an idle one. -/
theorem Core.not_idle (h : Core idle K s prog) (haway : K.away (prog id) = false) (c : ι) :
    id ≠ idle.thread c := by
  rintro rfl
  rw [h.idle c] at haway
  cases haway

/-! ## Steps of the sleep machine -/

variable [DecidableEq ι]

theorem step_alive (h : Inv idle s) (hs : step idle s l = some s') (ha : Alive s id) : Alive s' id := by
  obtain ⟨slot, t, ht, hid, hd⟩ := ha
  obtain ⟨g, hmap, hkeep⟩ := step_keeps h hs
  obtain ⟨hid', hd', _⟩ := hkeep t
  exact ⟨slot, g t, hmap.forward ht, hid'.trans hid, hd' hd⟩

theorem step_latched (h : Inv idle s) (h' : Inv idle s') (hs : step idle s l = some s')
    (hnot : ∀ c, l = .advance c → s.cpu c ≠ some id) (hl : latched s id = true) : latched s' id = true := by
  obtain ⟨slot, t, ht, rfl, hp⟩ := (latched_iff h.wf).mp hl
  obtain ⟨g, hmap, hkeep⟩ := step_keeps h hs
  obtain ⟨hid', _, hp'⟩ := hkeep t
  exact (latched_iff h'.wf).mpr ⟨slot, g t, hmap.forward ht, hid', hp' hp hnot⟩

/-- A thread keeps its CPU through every step but a selection there. -/
theorem step_onCpu (h : Inv idle s) (hs : step idle s l = some s') (hon : OnCpu s id)
    (hnot : ∀ c, l = .yield c ∨ l = .preempt c → s.cpu c ≠ some id) : OnCpu s' id := by
  obtain ⟨c, hc⟩ := hon
  refine ⟨c, ?_⟩
  rcases (step_frame h.wf hs).2 with heq | ⟨c', hl, heq⟩
  · rw [heq]
    exact hc
  · by_cases hcc : c = c'
    · subst hcc
      exact absurd hc (hnot c hl)
    · rw [heq c hcc]
      exact hc

/-- The sleep call takes over what the latch holds. -/
theorem Due.call (hdue : Due K s prog id) (hc : s.cpu c = some id) (hcalling : K.calling (prog id) = true)
    (hs : step idle s (.call c) = some s') (hp : K.calling p = false) : Due K s' (update prog id p) id := by
  have hl := hdue.2 hcalling
  simp only [step, hc] at hs
  split at hs
  · cases hs
  cases hs
  refine ⟨?_, fun h0 => ?_⟩
  · simp only [State.setPc, update_self]
    exact hl
  · rw [update_self, hp] at h0
    cases h0

variable (h : Core idle K s prog) (hs : step idle s l = some s')
include h

include hs

/-- A thread that does not act keeps its seat, if it does not lose its CPU where it must not. -/
theorem Core.seat {k : ThreadId} (hact : ¬ acts s k l)
    (hleave : ∀ c, l = .yield c ∨ l = .preempt c → s.cpu c = some k → K.parked (prog k) = true) :
    Seat K s' k (prog k) := by
  refine ⟨fun hk => ?_, fun hk => ?_, fun hk => step_alive h.sleep hs (h.alive k hk)⟩
  · rw [((step_frame h.sleep.wf hs).1 _ hact).1]
    exact h.outside k hk
  · refine step_onCpu h.sleep hs (h.here k hk) fun c hl hc => ?_
    rw [hleave c hl hc] at hk
    cases hk

/-- **A step of the sleep machine in which `id` may act**: all other threads keep what `Core` says of them, if
    none of them loses its CPU at a place where it must not. -/
theorem Core.others (hcalm : calm s l = true) (hact : ∀ k, k ≠ id → ¬ acts s k l)
    (hleave : ∀ c k, l = .yield c ∨ l = .preempt c → s.cpu c = some k → k ≠ id → K.parked (prog k) = true)
    (hout : K.asleep p = false → s'.pc id = .outside) (hhere : K.parked p = false → OnCpu s' id)
    (haway : K.away (prog id) = false) : Core idle K s' (update prog id p) :=
  .of_seats (inv_step h.sleep hcalm hs) ⟨hout, hhere, fun _ => step_alive h.sleep hs (h.alive id haway)⟩
    (fun k hne => h.seat hs (hact k hne) fun c hl hc => hleave c k hl hc hne) h.idle
    fun c hid => absurd hid (h.not_idle haway c)

/-- A step that is not one of a sleep call, and takes the CPU only from threads that may lose it. -/
theorem Core.sched (hquiet : ∀ k, ¬ acts s k l)
    (hleave : ∀ c k, l = .yield c ∨ l = .preempt c → s.cpu c = some k → K.parked (prog k) = true) :
    Core idle K s' prog := by
  have hcalm : calm s l = true := by
    cases l with
    | preempt c =>
      simp only [calm, Option.all_eq_true]
      intro k hk
      have hpc := h.outside k (K.not_asleep_of_parked _ (hleave c k (.inr rfl) hk))
      rw [hpc]
      rfl
    | _ => rfl
  have hseat : ∀ k, Seat K s' k (prog k) := fun k => h.seat hs (hquiet k) fun c => hleave c k
  exact ⟨inv_step h.sleep hcalm hs, fun k => (hseat k).1, fun k => (hseat k).2.1,
    fun k => (hseat k).2.2, h.idle⟩

omit hs

/-- A wakeup of any thread. -/
theorem Core.wake {thread : ThreadId} {latch : Bool}
    (hs : step idle s (.wake thread latch) = some s') : Core idle K s' prog :=
  h.sched hs (fun _ h0 => h0) fun _ _ hl => by rcases hl with hl | hl <;> cases hl

/-- The thread enters its sleep call, or goes on in it. -/
theorem Core.nap (hc : s.cpu c = some id) (hparked : K.parked (prog id) = false)
    (hl : l = .call c ∨ l = .advance c) (hs : step idle s l = some s') (hasleep : K.asleep p = true) :
    Core idle K s' (update prog id p) := by
  have haway : K.away (prog id) = false := by
    by_contra h0
    rw [K.parked_of_away _ (by simpa using h0)] at hparked
    cases hparked
  have hstays : ∀ c', ¬ (l = .yield c' ∨ l = .preempt c') := by
    rcases hl with rfl | rfl <;> exact nofun
  have hacts : ∀ k, acts s k l → s.cpu c = some k := by
    rcases hl with rfl | rfl <;> exact fun _ h0 => h0
  refine h.others hs (by rcases hl with rfl | rfl <;> rfl) ?_
    (fun c' _ hl' => absurd hl' (hstays c')) ?_ ?_ haway
  · intro k hne hact
    exact hne (Option.some.inj ((hacts k hact).symm.trans hc))
  · rw [hasleep]
    exact nofun
  · intro _
    exact step_onCpu h.sleep hs ⟨c, hc⟩ fun c' hl' => absurd hl' (hstays c')

theorem Core.call (hc : s.cpu c = some id) (hcalling : K.calling (prog id) = true)
    (hs : step idle s (.call c) = some s') (hasleep : K.asleep p = true) :
    Core idle K s' (update prog id p) :=
  h.nap hc (K.of_calling _ hcalling).1 (.inl rfl) hs hasleep

theorem Core.advance (hc : s.cpu c = some id) (hasleep : K.asleep (prog id) = true)
    (hs : step idle s (.advance c) = some s') : Core idle K s' prog := by
  have hparked : K.parked (prog id) = false := by
    by_contra h0
    rw [K.not_asleep_of_parked _ (by simpa using h0)] at hasleep
    cases hasleep
  have hcore := h.nap hc hparked (.inr rfl) hs hasleep
  rwa [update_eq_self] at hcore

/-- The thread yields after its sleep call, whether it did sleep or not. -/
theorem Core.leave (hc : s.cpu c = some id) (haway : K.away (prog id) = false)
    (hl : l = .yield c ∨ l = .preempt c ∧ s.pc id = .outside) (hs : step idle s l = some s')
    (hparked : K.parked p = true) : Core idle K s' (update prog id p) := by
  have honly : ∀ k, s.cpu c = some k → k = id := fun k hk => Option.some.inj (hk.symm.trans hc)
  have hcalm : calm s l = true := by
    rcases hl with rfl | ⟨rfl, hpc⟩
    · rfl
    · simp [calm, hc, hpc]
  refine h.others hs hcalm ?_ ?_ ?_ ?_ haway
  · intro k hne hact
    rcases hl with rfl | ⟨rfl, _⟩
    · exact hne (honly k hact)
    · exact hact
  · intro c' k hl' hk hne
    have hcc : c' = c := by
      rcases hl with rfl | ⟨rfl, _⟩ <;> rcases hl' with h0 | h0 <;> cases h0 <;> rfl
    subst hcc
    exact absurd (honly k hk) hne
  · intro _
    rcases hl with rfl | ⟨rfl, hpc⟩
    · simp only [step, hc] at hs
      split at hs
      · cases hs
        exact update_self _ _ _
      · cases hs
    · rw [((step_frame h.sleep.wf hs).1 _ (fun h0 => h0)).1]
      exact hpc
  · rw [hparked]
    rintro ⟨⟩

/-! ## Notified threads -/

/-- What is due stays due while the thread does not act and its place does not change. -/
theorem Due.frame (h' : Inv idle s') (hs : step idle s l = some s')
    (hnot : ¬ acts s id l) (hdue : Due K s prog id) (hprog : prog' id = prog id) : Due K s' prog' id := by
  refine ⟨((step_frame h.sleep.wf hs).1 _ hnot).2 hdue.1, fun hcalling => ?_⟩
  rw [hprog] at hcalling
  refine step_latched h.sleep h' hs ?_ (hdue.2 hcalling)
  rintro c rfl hc
  exact hnot hc

/-- **A registered wakeup makes its thread due**: one that is about to sleep runs, so the wakeup goes to its
    latch. -/
theorem Core.due_wake (hs : step idle s (.wake id true) = some s') : Due K s' prog id := by
  have h' := (h.wake hs).sleep
  cases hs
  refine ⟨update_self _ _ _, fun hcalling => ?_⟩
  obtain ⟨hparked, hasleep⟩ := K.of_calling _ hcalling
  have hon := h.here id hparked
  obtain ⟨slot, t, ht, rfl, _⟩ := hon.alive h.sleep
  have hlive := (h.sleep.sound slot t ht).current (h.outside _ hasleep) hon
  refine (latched_iff h'.wf).mpr ⟨slot, ThreadQueue.woken true t, ?_, (ThreadQueue.woken_fields true t).1,
    (woken_eq_of_lively true hlive).2.1 rfl⟩
  rw [(ThreadQueue.wakeWaiter_maps h.sleep.wf t.id true).forward ht, ThreadQueue.only, if_pos rfl]

/-- The other steps of the thread itself keep what it is owed. -/
theorem Due.own (hdue : s.owed id = true) (hc : s.cpu c = some id)
    (hl : l = .advance c ∨ l = .yield c ∨ l = .preempt c) (hs : step idle s l = some s')
    (hp : K.calling p = false) : Due K s' (update prog id p) id := by
  refine ⟨?_, fun h0 => ?_⟩
  · rcases hl with rfl | rfl | rfl
    · obtain ⟨k, _, hadv⟩ := Option.bind_eq_some_iff.mp hs
      obtain ⟨_, _, _, rfl, _⟩ := advance_cases h.sleep.wf hadv
      exact hdue
    · simp only [step, hc] at hs
      split at hs
      · cases hs
        show (select s c).owed id = true
        rw [(select_pc s c).2.1]
        exact hdue
      · cases hs
    · cases hs
      rw [(select_pc s c).2.1]
      exact hdue
  · rw [update_self, hp] at h0
    cases h0

/-- **A thread that is due does not stay asleep.** -/
theorem Core.due_awake (hdue : Due K s prog id) (haway : K.away (prog id) = false) :
    ∃ slot t, s.queue.threads slot = some t ∧ t.id = id ∧ Awake idle s slot t := by
  obtain ⟨slot, t, ht, rfl, hd⟩ := h.alive id haway
  exact ⟨slot, t, ht, rfl, h.sleep.awake_of_owed ht hdue.1 hd⟩

end

end Mnu.Task.Sleep
