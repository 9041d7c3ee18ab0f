import Mnu.Task.SleepCalls

/-!
# `Mnu.Task.SleepWatch` — waiting for something to happen

A family of system calls in which threads wait for conditions and others notify them. A thread subscribes,
looks once more, and then sleeps; a notifier takes a list of subscribed threads and wakes them one by one.
`Calls` says at which places a thread counts on being notified (`waits`), and whom the thread at a place is
still going to wake (`list`).

`Watch` is the invariant of all such families: for each waiting thread, nothing has happened yet that it waits
for (`pending`, which each family says for itself), or somebody is going to wake it, or it is due a wakeup.
Each kind of step has its rule. What a family has to show is that its own steps turn `pending` off only for
threads that they put on a list (`Watch.act`); then no waiting thread stays asleep for which something has
happened (`Watch.awake`).
-/

namespace Mnu.Task.Sleep

open Function

variable {ι κ P : Type}

/-- How the places of a family behave in which threads wait and wake each other. -/
structure Calls (P : Type) extends Places P where
  /-- The thread has subscribed and counts on being notified. -/
  waits : P → Bool
  /-- Whom the thread is still going to wake. -/
  list : P → List ThreadId
  not_away_of_waits : ∀ p, waits p = true → away p = false
  list_of_waits : ∀ p, waits p = true → list p = []

/-- The thread is on somebody's list. -/
def ToBeWoken (K : Calls P) (prog : ThreadId → P) (id : ThreadId) : Prop := ∃ k, id ∈ K.list (prog k)

/-- The invariant of those who wait. -/
structure Watch (idle : Idle ι) (K : Calls P) (s : State ι κ) (prog : ThreadId → P)
    (pending : ThreadId → Prop) : Prop where
  core : Core idle K.toPlaces s prog
  watch : ∀ id, K.waits (prog id) = true → pending id ∨ ToBeWoken K prog id ∨ Due K.toPlaces s prog id

section

variable {idle : Idle ι} {K : Calls P} {s s' : State ι κ} {prog : ThreadId → P}
  {pending pending' : ThreadId → Prop}
  {id k : ThreadId} {c : ι} {p p₀ : P} {l : Label ι}

theorem Watch.start (h : Start idle s) (haway : ∀ id, K.away (prog id) = true) :
    Watch idle K s prog pending := by
  refine ⟨Core.start h haway, fun id h0 => ?_⟩
  have hnot := K.not_away_of_waits _ h0
  rw [haway id] at hnot
  cases hnot

/-- A list that only grows leaves nobody out. -/
theorem ToBeWoken.update (h : ToBeWoken K prog k) (hlist : ∀ k ∈ K.list (prog id), k ∈ K.list p) :
    ToBeWoken K (Function.update prog id p) k := by
  obtain ⟨k₀, hmem⟩ := h
  by_cases hid : k₀ = id
  · subst hid
    refine ⟨k₀, ?_⟩
    rw [Function.update_self]
    exact hlist k hmem
  · refine ⟨k₀, ?_⟩
    rw [Function.update_of_ne hid]
    exact hmem

theorem toBeWoken_of_mem (h : k ∈ K.list p) : ToBeWoken K (update prog id p) k := by
  refine ⟨id, ?_⟩
  rw [update_self]
  exact h

/-- A thread that was in a call, or is not idle, may be anywhere next. -/
theorem Core.idle_of_next {Q : Places P} (h : Core idle Q s prog) (hc : s.cpu c = some id)
    (hidle : Q.away (prog id) = true → Q.away p = true ∨ id ≠ idle.thread c) (c' : ι)
    (hid : id = idle.thread c') : Q.away p = true := by
  by_cases haway : Q.away (prog id) = true
  · -- current on `c`, it could only be the idle thread of `c`
    refine (hidle haway).resolve_right fun hne => hne ?_
    rw [hid] at hc
    rw [h.sleep.idle_cpu hc, hid]
  · exact absurd hid (h.not_idle (by simpa using haway) c')

/-- **Rule for a critical section of the current thread.** It goes on to another place; whoever was waiting
    for what happens now is on its list. -/
theorem Watch.act (h : Watch idle K s prog pending) (hc : s.cpu c = some id) (hat : prog id = p₀)
    (hidle : K.away p₀ = true → K.away p = true ∨ id ≠ idle.thread c) (hasleep : K.asleep p₀ = false)
    (hlist : ∀ k ∈ K.list p₀, k ∈ K.list p)
    (hkeep : ∀ k, k ≠ id → K.waits (prog k) = true → pending k → pending' k ∨ k ∈ K.list p)
    (hself : K.waits p = true → pending' id ∨
      K.waits p₀ = true ∧ (pending id → pending' id) ∧ (K.calling p = true → K.calling p₀ = true)) :
    Watch idle K s (update prog id p) pending' := by
  subst hat
  refine ⟨h.core.setProg ⟨c, hc⟩ (fun _ => h.core.outside id hasleep) (h.core.idle_of_next hc hidle), ?_⟩
  intro k hk
  by_cases hid : k = id
  · subst hid
    rw [update_self] at hk
    rcases hself hk with h0 | ⟨hwaits, hpend, hcalling⟩
    · exact .inl h0
    · rcases h.watch k hwaits with h0 | h0 | h0
      · exact .inl (hpend h0)
      · exact .inr (.inl (h0.update hlist))
      · refine .inr (.inr ⟨h0.1, fun h1 => h0.2 ?_⟩)
        rw [update_self] at h1
        exact hcalling h1
  · rw [update_of_ne hid] at hk
    rcases h.watch k hk with h0 | h0 | h0
    · rcases hkeep k hid hk h0 with h1 | h1
      · exact .inl h1
      · exact .inr (.inl (toBeWoken_of_mem h1))
    · exact .inr (.inl (h0.update hlist))
    · refine .inr (.inr ⟨h0.1, fun h1 => h0.2 ?_⟩)
      rw [update_of_ne hid] at h1
      exact h1

theorem onlyActs (hc : s.cpu c = some id) (hl : ∀ k, acts s k l → s.cpu c = some k) (k : ThreadId)
    (hne : k ≠ id) : ¬ acts s k l := by
  intro hact
  exact hne (Option.some.inj ((hl k hact).symm.trans hc))

variable [DecidableEq ι]

variable (h : Watch idle K s prog pending) (hc : s.cpu c = some id) (hat : prog id = p₀)
include h

/-- **No waiting thread stays asleep for which something has happened.** -/
theorem Watch.awake (hwaits : K.waits (prog id) = true) (hnot : ¬ pending id) :
    ToBeWoken K prog id ∨ ∃ slot t, s.queue.threads slot = some t ∧ t.id = id ∧ Awake idle s slot t := by
  rcases h.watch id hwaits with h0 | h0 | h0
  · exact absurd h0 hnot
  · exact .inl h0
  · exact .inr (h.core.due_awake h0 (K.not_away_of_waits _ hwaits))

/-! ## Steps of the sleep machine -/

/-- **Rule for a step of the sleep machine** in which at most `id` acts: all others keep what is due to them.
    -/
theorem Watch.sleepStep (id : ThreadId) {p : P}
    (hs : step idle s l = some s') (hcore : Core idle K.toPlaces s' (update prog id p))
    (hact : ∀ k, k ≠ id → ¬ acts s k l) (hlist : ∀ k ∈ K.list (prog id), K.waits (prog k) = true →
      k ∈ K.list p ∨ Due K.toPlaces s' (update prog id p) k)
    (hpend : ∀ k, k ≠ id → K.waits (prog k) = true → pending k → pending' k)
    (hself : K.waits p = true → pending' id ∨ ToBeWoken K (update prog id p) id ∨
      Due K.toPlaces s' (update prog id p) id) : Watch idle K s' (update prog id p) pending' := by
  refine ⟨hcore, fun k hk => ?_⟩
  by_cases hid : k = id
  · subst hid
    rw [update_self] at hk
    exact hself hk
  · rw [update_of_ne hid] at hk
    rcases h.watch k hk with h0 | ⟨k₀, hmem⟩ | h0
    · exact .inl (hpend k hid hk h0)
    · by_cases hk₀ : k₀ = id
      · subst hk₀
        rcases hlist k hmem hk with h1 | h1
        · exact .inr (.inl (toBeWoken_of_mem h1))
        · exact .inr (.inr h1)
      · refine .inr (.inl ⟨k₀, ?_⟩)
        rw [update_of_ne hk₀]
        exact hmem
    · exact .inr (.inr (h0.frame h.core hcore.sleep hs (hact k hid) (update_of_ne hid _ _)))

include hc hat

/-- The thread enters its sleep call. -/
theorem Watch.call (hcalling : K.calling p₀ = true)
    (hs : step idle s (.call c) = some s') (hasleep : K.asleep p = true) (hp : K.calling p = false)
    (hwaits : K.waits p₀ = true) (hpend : ∀ k, pending k → pending' k) :
    Watch idle K s' (update prog id p) pending' := by
  subst hat
  have hnil : ∀ k ∈ K.list (prog id), k ∈ K.list p := by
    rw [K.list_of_waits _ hwaits]
    exact nofun
  refine h.sleepStep id hs (h.core.call hc hcalling hs hasleep) (onlyActs hc fun _ h0 => h0)
    (fun k hk _ => .inl (hnil k hk)) (fun k _ _ => hpend k) fun _ => ?_
  rcases h.watch id hwaits with h0 | h0 | h0
  · exact .inl (hpend id h0)
  · exact .inr (.inl (h0.update hnil))
  · exact .inr (.inr (h0.call hc hcalling hs hp))

/-- The thread goes on in its sleep call. -/
theorem Watch.advance (hasleep : K.asleep p₀ = true)
    (hp : K.calling p₀ = false) (hs : step idle s (.advance c) = some s') : Watch idle K s' prog pending := by
  subst hat
  have hupdate : update prog id (prog id) = prog := update_eq_self _ _
  have hcore : Core idle K.toPlaces s' (update prog id (prog id)) := by
    rw [hupdate]
    exact h.core.advance hc hasleep hs
  rw [← hupdate]
  refine h.sleepStep id hs hcore (onlyActs hc fun _ h0 => h0) (fun k hk _ => .inl hk)
    (fun _ _ _ h0 => h0) fun hk => ?_
  rcases h.watch id hk with h0 | h0 | h0
  · exact .inl h0
  · rw [hupdate]
    exact .inr (.inl h0)
  · exact .inr (.inr (Due.own h.core h0.1 hc (.inl rfl) hs hp))

/-- The thread yields after its sleep call. There it stays until it is selected again. -/
theorem Watch.leave (hwaits : K.waits p₀ = true)
    (hl : l = .yield c ∨ l = .preempt c ∧ s.pc id = .outside) (hs : step idle s l = some s')
    (hparked : K.parked p = true) (hp : K.calling p = false) (hpend : ∀ k, pending k → pending' k) :
    Watch idle K s' (update prog id p) pending' := by
  subst hat
  have hnil : ∀ k ∈ K.list (prog id), k ∈ K.list p := by
    rw [K.list_of_waits _ hwaits]
    exact nofun
  have hacts : ∀ k, acts s k l → s.cpu c = some k := by
    rcases hl with rfl | ⟨rfl, -⟩
    · exact fun _ h0 => h0
    · exact nofun
  refine h.sleepStep id hs (h.core.leave hc (K.not_away_of_waits _ hwaits) hl hs hparked)
    (onlyActs hc hacts) (fun k hk _ => .inl (hnil k hk)) (fun k _ _ => hpend k) fun _ => ?_
  rcases h.watch id hwaits with h0 | h0 | h0
  · exact .inl (hpend id h0)
  · exact .inr (.inl (h0.update hnil))
  · exact .inr (.inr (Due.own h.core h0.1 hc (.inr (hl.imp_right And.left)) hs hp))

/-- The thread wakes the next one of its list: with the latch, or when that thread does not count on it. -/
theorem Watch.wake {thread : ThreadId} {latch : Bool} (haway : K.away p₀ = false)
    (hasleep : K.asleep p₀ = false)
    (hs : step idle s (.wake thread latch) = some s') (hlatch : latch = true ∨ K.waits (prog thread) = false)
    (hlist : ∀ k ∈ K.list p₀, k = thread ∨ k ∈ K.list p)
    (hwaits : K.waits p = false) (hcalling : K.calling p = false)
    (hpend : ∀ k, k ≠ id → pending k → pending' k) : Watch idle K s' (update prog id p) pending' := by
  subst hat
  have hcore := h.core.wake hs
  have hcpu : s'.cpu c = some id := by
    rcases (step_frame h.core.sleep.wf hs).2 with heq | ⟨_, hl, _⟩
    · rw [heq]
      exact hc
    · rcases hl with hl | hl <;> cases hl
  refine h.sleepStep id hs (hcore.setProg ⟨c, hcpu⟩ (fun _ => hcore.outside id hasleep) ?_)
    (fun _ _ h0 => h0) ?_ (fun k hne _ => hpend k hne) ?_
  · intro c' hid
    exact absurd hid (h.core.not_idle haway c')
  · intro k hk hwait
    rcases hlist k hk with rfl | h0
    · have htrue : latch = true := hlatch.resolve_right fun h0 => by
        rw [hwait] at h0
        cases h0
      subst htrue
      have hdue := h.core.due_wake hs
      refine .inr ⟨hdue.1, fun h1 => hdue.2 ?_⟩
      by_cases hid : k = id
      · rw [hid, update_self, hcalling] at h1
        cases h1
      · rw [update_of_ne hid] at h1
        exact h1
    · exact .inl h0
  · rw [hwaits]
    intro h0
    cases h0

omit hc hat

/-- Scheduling and wakeups from elsewhere. -/
theorem Watch.sched (hs : step idle s l = some s') (hquiet : ∀ k, ¬ acts s k l)
    (hleave : ∀ c k, l = .yield c ∨ l = .preempt c → s.cpu c = some k → K.parked (prog k) = true) :
    Watch idle K s' prog pending := by
  have hcore := h.core.sched hs hquiet hleave
  refine ⟨hcore, fun k hk => ?_⟩
  exact (h.watch k hk).imp_right (Or.imp_right fun h0 => h0.frame h.core hcore.sleep hs (hquiet k) rfl)

end

end Mnu.Task.Sleep
