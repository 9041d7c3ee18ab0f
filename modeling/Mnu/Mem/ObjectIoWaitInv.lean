import Mnu.Mem.ObjectIoWait

/-!
# `Mnu.Mem.ObjectIoWaitInv` — what holds at an I/O gate

One inversion lemma (`step_cases`) says what a step of the system does: an operation of the current thread
(`Act`), a step of its sleep call or of its wake loop (`Nap`), a look that misses what has happened
(`Misled`), or scheduling. Two invariants follow from it.

* `Sound`: the queue is the tickets of the live intents in the order of their creation, and the lock is held
  by one guard or reservation or is free.
* `Sleep.Watch` with `Pending`, as long as no thread is misled: a thread that waits for an intent and for
  which something has happened is on the list of a thread that wakes it, or due a wakeup; or the lock has just
  been marked and the notification is to come.
-/

namespace Mnu.Mem.ObjectIo

open Mnu.Lib Mnu.Task Function

variable {ι κ : Type} {gate g : Gate} {id : ThreadId} {l : Label ι}

/-! ## What a step can do -/

/-- The steps that change nothing but the place of their thread. -/
inductive Next (s : State ι κ) (id : ThreadId) : Prog → Prop where
  | tries : s.prog id = .user → Next s id .tryEnter
  | missed : s.prog id = .tryEnter → Next s id (.tryCheck false)
  | failed : s.prog id = .tryCheck false → Next s id .user
  | done : s.prog id = .waking [] → Next s id .user
  | waits {name} : s.prog id = .user → Next s id (.clear name)
  | gone {name} : s.prog id = .clear name → Next s id (.look name)
  | returns {name} : s.prog id = .look name → Next s id .user
  | registers {name} : s.prog id = .look name → Next s id (.register name)
  | refused {name} : s.prog id = .register name → Next s id .user
  | again {name} : s.prog id = .recheck name → Next s id (.clear name)
  | resumes {name} : s.prog id = .yielded name → Next s id (.clear name)
  | sleeps {name} : s.prog id = .recheck name → s.answered name = false → Next s id (.calling name)

/-- Which guard a thread drops next. -/
inductive Releases (s : State ι κ) (id : ThreadId) : Holder → Prop where
  | guard {name} : s.prog id = .user → .guard name ∈ s.holders → Releases s id (.guard name)
  | trial : s.prog id = .tryCheck true → s.gate.unavailable = true → Releases s id (.trial id)
  | dropping : s.prog id = .unlock → Releases s id (.dropping id)

/-- The operations of the current thread. -/
inductive Act (s : State ι κ) (id : ThreadId) : State ι κ → Prop where
  | stay : s.prog id = .user → Act s id s
  | move {p} : Next s id p → Act s id (s.setProg id p)
  | create {room gate ticket} : s.prog id = .user → s.gate.intent room = .ok (gate, ticket) →
      Act s id (s.create gate ticket)
  | enter : s.prog id = .tryEnter → s.gate.locked = false → s.gate.waiting = [] → Act s id ({ s with
        gate := { s.gate with locked := true }
        holders := s.holders ++ [Holder.trial id] }.setProg id (.tryCheck true))
  | confirm : s.prog id = .tryCheck true → s.gate.unavailable = false → Act s id ({ s with
        holders := exchange s.holders (.trial id) (.guard s.made)
        made := s.made + 1 }.setProg id .user)
  | release {holder} : Releases s id holder → Act s id (s.release id holder)
  | acquire {name i ticket} : s.prog id = .user → s.find name = some i → i.ticket = some ticket →
      s.gate.unavailable = false → s.gate.locked = false → s.gate.waiting.head? = some ticket →
      Act s id (s.acquire id name
        { s.gate with waiting := s.gate.waiting.tail, locked := true, waiters := [] } s.gate.waiters)
  | dropIntent {name i} : s.prog id = .user → s.find name = some i → Act s id (s.dropIntent id i)
  | reserve {name} : s.prog id = .user → .guard name ∈ s.holders → Act s id (s.reserve name)
  | unreserve {name} : s.prog id = .user → .reservation name ∈ s.holders → Act s id (s.unreserve id name)
  | latch {name} : s.prog id = .user → .reservation name ∈ s.holders →
      Act s id ({ s with gate := s.gate.latchUnavailable }.setProg id .notify)
  | notify : s.prog id = .notify →
      Act s id ({ s with gate := s.gate.notify.1 }.setProg id (.waking s.gate.notify.2))
  | clear {name} : s.prog id = .clear name →
      Act s id ({ s with gate := s.gate.removeWaiter id }.setProg id (.look name))
  | register {name room gate} : s.prog id = .register name → s.gate.registerWaiter id 64 room = .ok gate →
      Act s id ({ s with gate := gate }.setProg id (.recheck name))

/-- The steps of the current thread of `c` in its sleep call, and in its wake loop. -/
inductive Nap [DecidableEq ι] (idle : Sleep.Idle ι) (s : State ι κ) (c : ι) (id : ThreadId) :
    State ι κ → Prop where
  | call {name sleep} : s.prog id = .calling name → Sleep.step idle s.sleep (.call c) = some sleep →
      Nap idle s c id ({ s with sleep := sleep }.setProg id (.sleeping name))
  | advance {name sleep} : s.prog id = .sleeping name → Sleep.step idle s.sleep (.advance c) = some sleep →
      Nap idle s c id { s with sleep := sleep }
  | leave {name l sleep} : s.prog id = .sleeping name →
      (l = .yield c ∨ l = .preempt c ∧ s.sleep.pc id = .outside) →
      Sleep.step idle s.sleep l = some sleep →
        Nap idle s c id ({ s with sleep := sleep }.setProg id (.yielded name))
  | wake {thread rest sleep} : s.prog id = .waking (thread :: rest) →
      Sleep.step idle s.sleep (.wake thread true) = some sleep →
      Nap idle s c id ({ s with sleep := sleep }.setProg id (.waking rest))

/-- A second look that would have ended the wait finds the lock of the intent taken, and the thread goes on to
    sleep. -/
inductive Misled (s : State ι κ) : State ι κ → Prop where
  | sleeps {id name} : s.prog id = .recheck name → s.answered name = true →
      Misled s (s.setProg id (.calling name))

section Inversion

theorem enter_cases (g : Gate) : g.enter = (g, false) ∨
    g.locked = false ∧ g.waiting = [] ∧ g.enter = ({ g with locked := true }, true) := by
  unfold Gate.enter
  split
  · exact .inl rfl
  · rename_i hfree
    simp only [Bool.or_eq_true, Bool.not_eq_true', not_or, Bool.not_eq_true, Bool.not_eq_false] at hfree
    exact .inr ⟨hfree.1, List.isEmpty_iff.mp hfree.2, rfl⟩

variable [DecidableEq ι] {idle : Sleep.Idle ι} {s s' : State ι κ} {c : ι} {id : ThreadId} {hint : Hint}

theorem own_cases (h : own idle s c id hint = some s') : Act s id s' ∨ Nap idle s c id s' := by
  unfold own at h
  generalize hprog : s.prog id = p at h
  cases p with
  | user =>
    cases h
  | tryEnter =>
    dsimp only at h
    rcases enter_cases s.gate with henter | ⟨hfree, hempty, henter⟩
    · simp only [henter] at h
      cases h
      exact .inl (.move (.missed hprog))
    · simp only [henter] at h
      cases h
      exact .inl (.enter hprog hfree hempty)
  | tryCheck held =>
    dsimp only at h
    split at h
    · rename_i hun
      cases h
      cases held with
      | true => exact .inl (.release (.trial hprog hun))
      | false => exact .inl (.move (.failed hprog))
    · rename_i hun
      cases held with
      | true =>
        cases h
        exact .inl (.confirm hprog (by simpa using hun))
      | false =>
        cases h
        exact .inl (.move (.failed hprog))
  | unlock =>
    cases h
    exact .inl (.release (.dropping hprog))
  | notify =>
    cases h
    exact .inl (.notify hprog)
  | waking rest =>
    cases rest with
    | nil =>
      cases h
      exact .inl (.move (.done hprog))
    | cons thread rest =>
      obtain ⟨sleep, hs, rfl⟩ := of_map_map h
      exact .inr (.wake hprog hs)
  | clear name =>
    dsimp only at h
    split at h <;> cases h
    · exact .inl (.move (.gone hprog))
    · exact .inl (.clear hprog)
  | look name =>
    cases h
    refine .inl (.move ?_)
    split
    · exact .returns hprog
    · exact .registers hprog
  | register name =>
    dsimp only at h
    split at h
    · cases h
      exact .inl (.move (.refused hprog))
    · split at h
      · cases h
        exact .inl (.move (.refused hprog))
      · split at h <;> cases h
        · exact .inl (.move (.refused hprog))
        · exact .inl (.register hprog ‹_›)
  | recheck name =>
    cases h
    refine .inl (.move ?_)
    split
    · exact .again hprog
    · rename_i hans
      exact .sleeps hprog (by simpa using hans)
  | calling name =>
    obtain ⟨sleep, hs, rfl⟩ := of_map_map h
    exact .inr (.call hprog hs)
  | sleeping name =>
    dsimp only at h
    split at h
    · rename_i hpc
      obtain ⟨sleep, hs, rfl⟩ := of_map_map h
      exact .inr (.leave hprog (.inr ⟨rfl, hpc⟩) hs)
    · obtain ⟨sleep, hs, rfl⟩ := of_map_map h
      exact .inr (.leave hprog (.inl rfl) hs)
    · obtain ⟨sleep, hs, rfl⟩ := Option.map_eq_some_iff.mp h
      exact .inr (.advance hprog hs)
  | yielded name =>
    cases h
    exact .inl (.move (.resumes hprog))

omit [DecidableEq ι] in
/-- A look at an intent whose lock is taken finds nothing; that is an ordinary step unless there was
    something. -/
theorem busyLook_cases {k : ThreadId} (h : busyLook s id k = some s') :
    s.prog id ≠ .user ∧ (Act s id s' ∨ Misled s s' ∧ ∃ name, s.prog id = .recheck name ∧
      s.answered name = true) := by
  unfold busyLook at h
  split at h
  · rename_i name hp
    split at h <;> cases h
    exact ⟨by simp [hp], .inl (.move (.registers hp))⟩
  · rename_i name hp
    split at h <;> cases h
    refine ⟨by simp [hp], ?_⟩
    cases hans : s.answered name with
    | false => exact .inl (.move (.sleeps hp hans))
    | true => exact .inr ⟨.sleeps hp hans, name, hp, hans⟩
  · cases h

/-- **Inversion**: every step is an operation of a current thread, a step of its sleep call or wake loop, a
    look that misleads, or scheduling. -/
theorem step_cases (h : step idle s l = some s') :
    (∃ c id, s.sleep.cpu c = some id ∧ (s.prog id = .user → id ≠ idle.thread c) ∧
      (Act s id s' ∨ Nap idle s c id s')) ∨
      (Misled s s' ∧ truthful s l = false) ∨
      ∃ l sleep, admissible s l = true ∧ Sleep.step idle s.sleep l = some sleep ∧
        s' = { s with sleep := sleep } := by
  have hstart : ∀ c id, starting idle s c = some id → (s.prog id = .user → Act s id s') →
      ∃ c id, s.sleep.cpu c = some id ∧ (s.prog id = .user → id ≠ idle.thread c) ∧
        (Act s id s' ∨ Nap idle s c id s') := by
    intro c id hst hact
    obtain ⟨hc, hcalls⟩ := Option.filter_eq_some_iff.mp hst
    obtain ⟨hu, hne⟩ := of_decide_eq_true hcalls
    exact ⟨c, id, hc, fun _ => hne, .inl (hact hu)⟩
  cases l with
  | tryLock c =>
    obtain ⟨id, hst, rfl⟩ := Option.map_eq_some_iff.mp h
    refine .inl (hstart c id hst fun hu => ?_)
    split
    · exact .stay hu
    · exact .move (.tries hu)
  | intent c room =>
    obtain ⟨id, hst, rfl⟩ := Option.map_eq_some_iff.mp h
    refine .inl (hstart c id hst fun hu => ?_)
    split
    · exact .stay hu
    · exact .create hu ‹_›
  | acquire c name =>
    obtain ⟨id, hst, h⟩ := Option.bind_eq_some_iff.mp h
    obtain ⟨i, hfind, rfl⟩ := Option.map_eq_some_iff.mp h
    refine .inl (hstart c id hst fun hu => ?_)
    split
    · rename_i gate waiters hok
      cases hticket : i.ticket with rw [hticket] at hok
      | none =>
        cases hok
      | some ticket =>
        dsimp only [Gate.tryAcquire] at hok
        split at hok
        · cases hok
        rename_i hun
        split at hok
        · cases hok
        rename_i hfirst
        cases hok
        simp only [Bool.or_eq_true, bne_iff_ne, ne_eq, not_or, Bool.not_eq_true, not_not] at hfirst
        exact .acquire hu hfind hticket (by simpa using hun) hfirst.1 hfirst.2
    · exact .stay hu
  | dropIntent c name =>
    obtain ⟨id, hst, h⟩ := Option.bind_eq_some_iff.mp h
    obtain ⟨i, hfind, rfl⟩ := Option.map_eq_some_iff.mp h
    exact .inl (hstart c id hst fun hu => .dropIntent hu hfind)
  | dropGuard c name =>
    obtain ⟨id, hst, h⟩ := Option.bind_eq_some_iff.mp h
    split at h <;> cases h
    exact .inl (hstart c id hst fun hu => .release (.guard hu ‹_›))
  | reserve c name =>
    obtain ⟨id, hst, h⟩ := Option.bind_eq_some_iff.mp h
    split at h <;> cases h
    exact .inl (hstart c id hst fun hu => .reserve hu ‹_›)
  | dropReservation c name =>
    obtain ⟨id, hst, h⟩ := Option.bind_eq_some_iff.mp h
    split at h <;> cases h
    exact .inl (hstart c id hst fun hu => .unreserve hu ‹_›)
  | markUnavailable c name =>
    obtain ⟨id, hst, h⟩ := Option.bind_eq_some_iff.mp h
    split at h <;> cases h
    rename_i hmem
    refine .inl (hstart c id hst fun hu => ?_)
    split
    · exact .stay hu
    · exact .latch hu hmem
  | wait c name =>
    obtain ⟨id, hst, rfl⟩ := Option.map_eq_some_iff.mp h
    exact .inl (hstart c id hst fun hu => .move (.waits hu))
  | own c hint =>
    obtain ⟨id, hc, hown⟩ := Option.bind_eq_some_iff.mp h
    refine .inl ⟨c, id, hc, fun hu => ?_, own_cases hown⟩
    rw [own, hu] at hown
    cases hown
  | busy c other =>
    obtain ⟨id, hc, h⟩ := Option.bind_eq_some_iff.mp h
    obtain ⟨k, _, h⟩ := Option.bind_eq_some_iff.mp h
    obtain ⟨huser, hact | ⟨hmisled, name, hp, hans⟩⟩ := busyLook_cases h
    · exact .inl ⟨c, id, hc, fun hu => absurd hu huser, .inl hact⟩
    · exact .inr (.inl ⟨hmisled, by simp [truthful, hc, hp, hans]⟩)
  | sched l =>
    simp only [step] at h
    split at h
    · obtain ⟨sleep, hs, rfl⟩ := Option.map_eq_some_iff.mp h
      exact .inr (.inr ⟨l, sleep, ‹_›, hs, rfl⟩)
    · cases h

end Inversion

/-! ## The queue and the lock -/

/-- What holds of tickets, names and holders. -/
structure Sound (s : State ι κ) : Prop where
  queue : s.gate.waiting = s.intents.filterMap Intent.ticket
  names : (s.intents.map Intent.name).Pairwise (· < ·)
  made : ∀ i ∈ s.intents, i.name < s.made
  tickets : s.gate.waiting.Pairwise (· < ·)
  next : ∀ t ∈ s.gate.waiting, t < s.gate.next
  exclusive : s.holders.length ≤ 1
  locked : s.gate.locked = true ↔ s.holders ≠ []
  trial : ∀ k, s.prog k = .tryCheck true → .trial k ∈ s.holders
  dropping : ∀ k, s.prog k = .unlock → .dropping k ∈ s.holders
  marked : ∀ k, s.prog k = .notify → s.gate.unavailable = true

/-- The places that say nothing about the lock. -/
def Prog.plain : Prog → Bool
  | .tryCheck held => !held
  | .unlock => false
  | .notify => false
  | _ => true

section Soundness

variable {s s' : State ι κ} {id k : ThreadId} {prog : ThreadId → Prog} {p q : Prog}
  {i : Intent} {holder old : Holder}
  {name ticket : Nat} {room : Bool} {intents : List Intent}

/-- Who is at a place that is not plain has not moved. -/
theorem of_update_plain (hp : p.plain = true) (hq : q.plain = false)
    (hk : update prog id p k = q) : prog k = q := by
  rcases of_update_eq hk with ⟨-, rfl⟩ | ⟨-, hold⟩
  · rw [hp] at hq
    cases hq
  · exact hold

theorem intent_ok (h : g.intent room = .ok (gate, ticket)) :
    gate = { g with waiting := g.waiting ++ [g.next], next := g.next + 1 } ∧ ticket = g.next := by
  unfold Gate.intent at h
  split at h
  · cases h
  split at h
  · cases h
  split at h <;> cases h
  exact ⟨rfl, rfl⟩

theorem find_eq (h : s.find name = some i) : i ∈ s.intents ∧ i.name = name :=
  ⟨List.mem_of_find?_eq_some h, by simpa using List.find?_some h⟩

theorem find?_filter_name {other : Nat}
    (h : (intents.find? fun j => j.name = name) = some i) (hne : i.name ≠ other) :
    ((intents.filter fun j => j.name ≠ other).find? fun j => j.name = name) = some i := by
  have hname : i.name = name := by simpa using List.find?_some h
  rw [List.find?_filter, ← h]
  congr 1
  funext j
  by_cases hj : j.name = name
  · simp [hj, ← hname, hne]
  · simp [hj]

/-- Taking one intent out of the list takes its ticket out of the queue. -/
theorem filterMap_ticket_filter (hnames : (intents.map Intent.name).Pairwise (· < ·))
    (htickets : (intents.filterMap Intent.ticket).Nodup) (hi : i ∈ intents) :
    (intents.filter fun j => j.name ≠ i.name).filterMap Intent.ticket =
      match i.ticket with
      | none => intents.filterMap Intent.ticket
      | some ticket => (intents.filterMap Intent.ticket).erase ticket := by
  induction intents with
  | nil => cases hi
  | cons j rest ih =>
    obtain ⟨hlt, hrest⟩ := List.pairwise_cons.mp hnames
    by_cases hj : j.name = i.name
    · -- the names of the others are different
      have hself : i = j := by
        rcases List.mem_cons.mp hi with h0 | h0
        · exact h0
        · have := hlt i.name (List.mem_map_of_mem h0)
          omega
      subst hself
      have hkeep : rest.filter (fun k => k.name ≠ i.name) = rest := by
        refine List.filter_eq_self.mpr fun k hk => ?_
        have := hlt k.name (List.mem_map_of_mem hk)
        simp only [ne_eq, decide_eq_true_eq]
        omega
      rw [List.filter_cons_of_neg (by simp), hkeep]
      cases hticket : i.ticket with
      | none => rw [List.filterMap_cons_none hticket]
      | some ticket =>
        rw [List.filterMap_cons_some hticket]
        exact (List.erase_cons_head _ _).symm
    · have hmem : i ∈ rest := (List.mem_cons.mp hi).resolve_left fun h0 => hj (by rw [h0])
      rw [List.filter_cons_of_pos (by simpa using hj)]
      cases hticket : j.ticket with
      | none =>
        rw [List.filterMap_cons_none hticket] at htickets ⊢
        rw [List.filterMap_cons_none hticket]
        exact ih hrest htickets hmem
      | some u =>
        rw [List.filterMap_cons_some hticket] at htickets
        rw [List.filterMap_cons_some hticket, List.filterMap_cons_some hticket,
          ih hrest (List.nodup_cons.mp htickets).2 hmem]
        cases hi' : i.ticket with
        | none => rfl
        | some ticket =>
          have hne : u ≠ ticket := by
            rintro rfl
            exact (List.nodup_cons.mp htickets).1 (List.mem_filterMap.mpr ⟨i, hmem, hi'⟩)
          dsimp only
          rw [List.erase_cons_tail (by simpa using hne)]

theorem filterMap_ticket_consume (intents : List Intent) (name : Nat) :
    (consume intents name).filterMap Intent.ticket =
      (intents.filter fun j => j.name ≠ name).filterMap Intent.ticket := by
  induction intents with
  | nil => rfl
  | cons j rest ih =>
    rw [consume, List.map_cons, ← consume]
    by_cases hj : j.name = name
    · rw [if_pos hj, List.filterMap_cons_none rfl, List.filter_cons_of_neg (by simpa using hj), ih]
    · rw [if_neg hj, List.filter_cons_of_pos (by simpa using hj), List.filterMap_cons,
        List.filterMap_cons, ih]

theorem names_consume (intents : List Intent) (name : Nat) :
    (consume intents name).map Intent.name = intents.map Intent.name := by
  rw [consume, List.map_map]
  refine List.map_congr_left fun i _ => ?_
  rw [comp_apply]
  split <;> rfl

theorem Next.plain (h : Next s id p) : p.plain = true := by
  cases h <;> rfl

theorem Next.ne_notify (h : Next s id p) : s.prog id ≠ .notify := by
  cases h <;> simp [*]

theorem registerWaiter_fields {g' : Gate} {waiter maximum : Nat}
    (h : g.registerWaiter waiter maximum room = .ok g') :
    waiter ∈ g'.waiters ∧ (∀ k ∈ g.waiters, k ∈ g'.waiters) ∧ g'.locked = g.locked ∧ g'.waiting = g.waiting ∧
      g'.next = g.next ∧ g'.unavailable = g.unavailable := by
  unfold Gate.registerWaiter at h
  split at h
  · cases h
    exact ⟨‹_›, fun _ h0 => h0, rfl, rfl, rfl, rfl⟩
  · split at h
    · cases h
    · split at h
      · cases h
      · cases h
        exact ⟨by simp, fun k hk => List.mem_append_left _ hk, rfl, rfl, rfl, rfl⟩

variable (h : Sound s) (hwaiting : s'.gate.waiting = s.gate.waiting) (hnext : s'.gate.next = s.gate.next)
include h

theorem Sound.holders_eq (hmem : holder ∈ s.holders) : s.holders = [holder] := by
  obtain ⟨x, hx⟩ := List.length_eq_one_iff.mp (Nat.le_antisymm h.exclusive (List.length_pos_of_mem hmem))
  rw [hx, List.mem_singleton] at hmem
  rw [hx, hmem]

theorem Sound.holders_nil (hfree : s.gate.locked = false) : s.holders = [] := by
  by_contra hne
  rw [h.locked.mpr hne] at hfree
  cases hfree

include hwaiting hnext in
/-- **Rule for a change of holder**: the queue stays; afterwards the holders are `holders`, which are one at
    most, and every thread that has a guard in its hands is among them. -/
theorem Sound.hold
    (hintents : s'.intents = s.intents) (hmade : s.made ≤ s'.made)
    (hun : s.gate.unavailable = true → s'.gate.unavailable = true)
    (hone : s'.holders.length ≤ 1) (hlocked : s'.gate.locked = true ↔ s'.holders ≠ [])
    {p : Prog} (hprog : s'.prog = update s.prog id p)
    (hother : ∀ k, k ≠ id → (.trial k ∈ s.holders → .trial k ∈ s'.holders) ∧
      (.dropping k ∈ s.holders → .dropping k ∈ s'.holders))
    (htrial : p = .tryCheck true → .trial id ∈ s'.holders)
    (hdropping : p = .unlock → .dropping id ∈ s'.holders)
    (hnotify : p = .notify → s'.gate.unavailable = true) : Sound s' := by
  have hk : ∀ k q, s'.prog k = q → k = id ∧ p = q ∨ k ≠ id ∧ s.prog k = q := by
    intro k q hq
    rw [hprog] at hq
    exact of_update_eq hq
  constructor
  · rw [hwaiting, hintents]
    exact h.queue
  · rw [hintents]
    exact h.names
  · rw [hintents]
    exact fun i hi => Nat.lt_of_lt_of_le (h.made i hi) hmade
  · rw [hwaiting]
    exact h.tickets
  · rw [hwaiting, hnext]
    exact h.next
  · exact hone
  · exact hlocked
  · intro k hq
    rcases hk k _ hq with ⟨rfl, hp⟩ | ⟨hne, hold⟩
    · exact htrial hp
    · exact (hother k hne).1 (h.trial k hold)
  · intro k hq
    rcases hk k _ hq with ⟨rfl, hp⟩ | ⟨hne, hold⟩
    · exact hdropping hp
    · exact (hother k hne).2 (h.dropping k hold)
  · intro k hq
    rcases hk k _ hq with ⟨rfl, hp⟩ | ⟨_, hold⟩
    · exact hnotify hp
    · exact hun (h.marked k hold)

include hwaiting hnext in
/-- **Frame**: queue, intents and holders stay; a thread goes on to a plain place. -/
theorem Sound.frame
    (hlocked : s'.gate.locked = s.gate.locked) (hun : s'.gate.unavailable = s.gate.unavailable)
    (hintents : s'.intents = s.intents) (hholders : s'.holders = s.holders)
    (hmade : s'.made = s.made) {p : Prog}
    (hprog : s'.prog = update s.prog id p) (hp : p.plain = true) : Sound s' := by
  refine h.hold hwaiting hnext hintents hmade.ge (fun h0 => hun.trans h0) ?_ ?_ hprog ?_ ?_ ?_ ?_
  · rw [hholders]
    exact h.exclusive
  · rw [hlocked, hholders]
    exact h.locked
  · rw [hholders]
    exact fun _ _ => ⟨fun h0 => h0, fun h0 => h0⟩
  · rintro rfl
    cases hp
  · rintro rfl
    cases hp
  · rintro rfl
    cases hp

/-- The sleep calls are no part of it. -/
theorem Sound.sleep (sleep : Sleep.State ι κ) : Sound { s with sleep := sleep } :=
  ⟨h.queue, h.names, h.made, h.tickets, h.next, h.exclusive, h.locked, h.trial, h.dropping, h.marked⟩

/-- One holder takes the place of another. -/
theorem Sound.exchange {new : Holder} (hmem : old ∈ s.holders) :
    ObjectIo.exchange s.holders old new = [new] := by
  rw [h.holders_eq hmem]
  simp [ObjectIo.exchange]

theorem Sound.exchange_locked (hmem : old ∈ s.holders) (new : Holder) :
    s.gate.locked = true ↔ ObjectIo.exchange s.holders old new ≠ [] := by
  rw [h.exchange hmem, h.locked, h.holders_eq hmem]
  simp

theorem Sound.create (hok : s.gate.intent room = .ok (gate, ticket)) : Sound (s.create gate ticket) := by
  obtain ⟨rfl, rfl⟩ := intent_ok hok
  refine ⟨?_, ?_, ?_, ?_, ?_, h.exclusive, h.locked, h.trial, h.dropping, h.marked⟩
  · simp only [State.create, List.filterMap_append, h.queue]
    rfl
  · simp only [State.create, List.map_append, List.map_cons, List.map_nil]
    refine List.pairwise_append.mpr ⟨h.names, List.pairwise_singleton _ _, ?_⟩
    intro a ha b hb
    obtain ⟨i, hi, rfl⟩ := List.mem_map.mp ha
    rw [List.mem_singleton.mp hb]
    exact h.made i hi
  · intro i hi
    rcases List.mem_append.mp hi with hi | hi
    · exact Nat.lt_succ_of_lt (h.made i hi)
    · rw [List.mem_singleton.mp hi]
      exact Nat.lt_succ_self _
  · refine List.pairwise_append.mpr ⟨h.tickets, List.pairwise_singleton _ _, ?_⟩
    intro a ha b hb
    rw [List.mem_singleton.mp hb]
    exact h.next a ha
  · intro t ht
    rcases List.mem_append.mp ht with ht | ht
    · exact Nat.lt_succ_of_lt (h.next t ht)
    · rw [List.mem_singleton.mp ht]
      exact Nat.lt_succ_self _

theorem Sound.nodup : (s.intents.filterMap Intent.ticket).Nodup := by
  rw [← h.queue]
  exact h.tickets.imp fun hlt => Nat.ne_of_lt hlt

theorem Sound.acquire (hfind : s.find name = some i)
    (hticket : i.ticket = some ticket) (hfree : s.gate.locked = false)
    (hfirst : s.gate.waiting.head? = some ticket) :
    Sound (s.acquire id name { s.gate with waiting := s.gate.waiting.tail, locked := true, waiters := [] }
      s.gate.waiters) := by
  have hnil := h.holders_nil hfree
  obtain ⟨hmem, hname⟩ := find_eq hfind
  obtain ⟨rest, hrest⟩ := List.head?_eq_some_iff.mp hfirst
  have hqueue : rest = (consume s.intents name).filterMap Intent.ticket := by
    rw [filterMap_ticket_consume, ← hname, filterMap_ticket_filter h.names h.nodup hmem,
      hticket, ← h.queue, hrest]
    exact (List.erase_cons_head _ _).symm
  have hno : ∀ holder, holder ∉ s.holders := fun holder => by rw [hnil]; exact List.not_mem_nil
  refine ⟨?_, ?_, ?_, ?_, ?_, ?_, ?_, ?_, ?_, ?_⟩
  · show s.gate.waiting.tail = (consume s.intents name).filterMap Intent.ticket
    rw [hrest]
    exact hqueue
  · show ((consume s.intents name).map Intent.name).Pairwise (· < ·)
    rw [names_consume]
    exact h.names
  · intro j hj
    have : j.name ∈ (consume s.intents name).map Intent.name := List.mem_map_of_mem hj
    rw [names_consume] at this
    obtain ⟨j', hj', heq⟩ := List.mem_map.mp this
    rw [← heq]
    exact Nat.lt_succ_of_lt (h.made j' hj')
  · exact h.tickets.tail
  · exact fun t ht => h.next t (List.mem_of_mem_tail ht)
  · show (s.holders ++ [Holder.guard s.made]).length ≤ 1
    rw [hnil]
    exact Nat.le_refl _
  · exact ⟨fun _ => by simp [State.acquire, State.setProg], fun _ => rfl⟩
  · exact fun k hk => absurd (h.trial k (of_update_plain rfl rfl hk)) (hno _)
  · exact fun k hk => absurd (h.dropping k (of_update_plain rfl rfl hk)) (hno _)
  · exact fun k hk => h.marked k (of_update_plain rfl rfl hk)

theorem Sound.dropIntent (hfind : s.find name = some i) : Sound (s.dropIntent id i) := by
  obtain ⟨hmem, _⟩ := find_eq hfind
  have hgate : (s.gate.dropIntent i.ticket).1.waiting =
    (s.intents.filter fun j => j.name ≠ i.name).filterMap Intent.ticket ∧
      (s.gate.dropIntent i.ticket).1.waiting.Sublist s.gate.waiting ∧
      (s.gate.dropIntent i.ticket).1.next = s.gate.next ∧
        (s.gate.dropIntent i.ticket).1.locked = s.gate.locked ∧
      (s.gate.dropIntent i.ticket).1.unavailable = s.gate.unavailable := by
    rw [filterMap_ticket_filter h.names h.nodup hmem, ← h.queue]
    cases i.ticket with
    | none => exact ⟨rfl, List.Sublist.refl _, rfl, rfl, rfl⟩
    | some ticket => exact ⟨rfl, List.erase_sublist, rfl, rfl, rfl⟩
  obtain ⟨hqueue, hsub, hnext, hlocked, hun⟩ := hgate
  refine ⟨hqueue, ?_, ?_, ?_, ?_, h.exclusive, ?_, ?_, ?_, ?_⟩
  · exact h.names.sublist (List.filter_sublist.map Intent.name)
  · exact fun j hj => h.made j (List.mem_filter.mp hj).1
  · exact h.tickets.sublist hsub
  · intro t ht
    rw [show (s.dropIntent id i).gate.next = s.gate.next from hnext]
    exact h.next t (hsub.subset ht)
  · rw [show (s.dropIntent id i).gate.locked = s.gate.locked from hlocked]
    exact h.locked
  · exact fun k hk => h.trial k (of_update_plain rfl rfl hk)
  · exact fun k hk => h.dropping k (of_update_plain rfl rfl hk)
  · intro k hk
    rw [show (s.dropIntent id i).gate.unavailable = s.gate.unavailable from hun]
    exact h.marked k (of_update_plain rfl rfl hk)

/-- The lock is released. -/
theorem Sound.release (hmem : holder ∈ s.holders)
    (hown : ∀ k, k ≠ id → holder ≠ .trial k ∧ holder ≠ .dropping k) : Sound (s.release id holder) := by
  have hsingle := h.holders_eq hmem
  have hnil : (s.release id holder).holders = [] := by
    show s.holders.erase holder = []
    rw [hsingle]
    simp
  refine h.hold (p := .waking s.gate.waiters) rfl rfl rfl (Nat.le_refl _) (fun h0 => h0) ?_ ?_ rfl ?_
    nofun nofun nofun
  · rw [hnil]
    exact Nat.zero_le _
  · rw [hnil]
    exact ⟨nofun, fun h0 => absurd rfl h0⟩
  · intro k hne
    rw [hsingle]
    refine ⟨fun h0 => ?_, fun h0 => ?_⟩
    · exact absurd (List.mem_singleton.mp h0).symm (hown k hne).1
    · exact absurd (List.mem_singleton.mp h0).symm (hown k hne).2

theorem Releases.mem (hr : Releases s id holder) :
    holder ∈ s.holders ∧ ∀ k, k ≠ id → holder ≠ .trial k ∧ holder ≠ .dropping k := by
  cases hr with
  | guard _ hmem => exact ⟨hmem, fun _ _ => ⟨nofun, nofun⟩⟩
  | trial hp _ =>
    refine ⟨h.trial id hp, fun k hne => ⟨fun h0 => hne ?_, nofun⟩⟩
    cases h0
    rfl
  | dropping hp =>
    refine ⟨h.dropping id hp, fun k hne => ⟨nofun, fun h0 => hne ?_⟩⟩
    cases h0
    rfl

/-- **The operations keep the queue and the lock sound.** -/
theorem sound_act (hact : Act s id s') : Sound s' := by
  cases hact with
  | stay _ => exact h
  | move hn => exact h.frame rfl rfl rfl rfl rfl rfl rfl rfl hn.plain
  | create _ hok => exact h.create hok
  | enter _ hfree _ =>
    have hnil := h.holders_nil hfree
    refine h.hold (p := .tryCheck true) rfl rfl rfl (Nat.le_refl _) (fun h0 => h0) ?_ ?_ rfl ?_ ?_ nofun nofun
    · show (s.holders ++ [Holder.trial id]).length ≤ 1
      rw [hnil]
      exact Nat.le_refl _
    · exact ⟨fun _ => by simp [State.setProg], fun _ => rfl⟩
    · exact fun k _ => ⟨fun h0 => List.mem_append_left _ h0, fun h0 => List.mem_append_left _ h0⟩
    · exact fun _ => List.mem_append_right _ (List.mem_singleton_self _)
  | confirm hp _ =>
    have hmem := h.trial id hp
    have hsingle := h.holders_eq hmem
    refine h.hold (p := .user) rfl rfl rfl (Nat.le_succ _) (fun h0 => h0) ?_ ?_ rfl ?_ nofun nofun nofun
    · exact (congrArg List.length (h.exchange hmem)).le
    · exact h.exchange_locked hmem _
    · intro k hne
      rw [hsingle]
      refine ⟨fun h0 => absurd ?_ hne, fun h0 => (nomatch List.mem_singleton.mp h0)⟩
      cases List.mem_singleton.mp h0
      rfl
  | release hr => exact h.release (hr.mem h).1 (hr.mem h).2
  | acquire _ hfind hticket _ hfree hfirst => exact h.acquire hfind hticket hfree hfirst
  | dropIntent _ hfind => exact h.dropIntent hfind
  | reserve hp hmem =>
    have hsame : s.prog = update s.prog id .user := by rw [← hp, update_eq_self]
    refine h.hold (p := .user) rfl rfl rfl (Nat.le_refl _) (fun h0 => h0) ?_ ?_ hsame ?_ nofun nofun nofun
    · exact (congrArg List.length (h.exchange hmem)).le
    · exact h.exchange_locked hmem _
    · intro k _
      rw [h.holders_eq hmem]
      exact ⟨fun h0 => (nomatch List.mem_singleton.mp h0), fun h0 => (nomatch List.mem_singleton.mp h0)⟩
  | @unreserve name hp hmem =>
    refine h.hold (p := .unlock) rfl rfl rfl (Nat.le_refl _) (fun h0 => h0) ?_ ?_ rfl ?_ nofun ?_ nofun
    · exact (congrArg List.length (h.exchange hmem)).le
    · exact h.exchange_locked hmem _
    · intro k _
      rw [h.holders_eq hmem]
      exact ⟨fun h0 => (nomatch List.mem_singleton.mp h0), fun h0 => (nomatch List.mem_singleton.mp h0)⟩
    · intro _
      show Holder.dropping id ∈ exchange s.holders (.reservation name) (.dropping id)
      rw [h.exchange hmem]
      exact List.mem_singleton_self _
  | latch _ _ =>
    exact h.hold (p := .notify) rfl rfl rfl (Nat.le_refl _) (fun _ => rfl) h.exclusive h.locked rfl
      (fun _ _ => ⟨fun h0 => h0, fun h0 => h0⟩) nofun nofun (fun _ => rfl)
  | notify _ | clear _ => exact h.frame rfl rfl rfl rfl rfl rfl rfl rfl rfl
  | register _ hok =>
    obtain ⟨_, _, hlocked, hwaiting, hnext, hun⟩ := registerWaiter_fields hok
    exact h.frame hwaiting hnext hlocked hun rfl rfl rfl rfl rfl

end Soundness

/-! ## Waiting threads -/

/-- Nothing has happened yet that `id` waits for: it is registered, and since it looked, its intent has not
    come first with the lock free, nor ended; or the notification of that is about to begin. -/
def Pending (s : State ι κ) (id : ThreadId) : Prop :=
  id ∈ s.gate.waiters ∧ ∀ name, (s.prog id).sleepsFor = some name → s.answered name = false ∨
    ∃ k, s.prog k = .notify

section Waiting

variable {s s' : State ι κ} {id : ThreadId} {c : ι} {idle : Sleep.Idle ι}
  (hw : Sleep.Watch idle calls s.sleep s.prog (Pending s))

theorem answered_eq_false {name : Nat} : s.answered name = false ↔
    ∃ i ticket, s.find name = some i ∧ i.ticket = some ticket ∧ s.gate.unavailable = false ∧
      ¬ (s.gate.locked = false ∧ s.gate.waiting.head? = some ticket) := by
  unfold State.answered State.readiness
  cases hfind : s.find name with
  | none => simp
  | some i =>
    cases hticket : i.ticket with
    | none => simp [Gate.ready, hticket]
    | some ticket =>
      cases hun : s.gate.unavailable with
      | true => simp [Gate.ready, hticket, hun]
      | false =>
        cases hready : (!s.gate.locked && s.gate.waiting.head? == some ticket) with
        | false =>
          have hnot : ¬ (s.gate.locked = false ∧ s.gate.waiting.head? = some ticket) := by
            rintro ⟨h0, h1⟩
            simp [h0, h1] at hready
          simp only [Gate.ready, hticket, hun, hready, Option.map_some, Option.some.injEq, exists_and_left,
            exists_eq_left', Bool.false_eq_true, if_false, true_and, hnot, not_false_eq_true]
        | true =>
          have hboth : s.gate.locked = false ∧ s.gate.waiting.head? = some ticket := by simpa using hready
          simp [Gate.ready, hticket, hun, hboth]

theorem Pending.keep {k : ThreadId} (h : Pending s k) (hk : s'.prog k = s.prog k)
    (hw : k ∈ s.gate.waiters → k ∈ s'.gate.waiters)
    (hans : ∀ name, s.answered name = false → s'.answered name = false ∨ ∃ k, s'.prog k = .notify)
    (hnotify : ∀ k, s.prog k = .notify → ∃ k', s'.prog k' = .notify) : Pending s' k := by
  refine ⟨hw h.1, fun name hname => ?_⟩
  rw [hk] at hname
  rcases h.2 name hname with h0 | ⟨k', h0⟩
  · exact hans name h0
  · exact .inr (hnotify k' h0)

/-- An intent in the queue stays where it is when another one joins. -/
theorem answered_create (h : Sound s) {room : Bool} {ticket name : Nat}
    (hok : s.gate.intent room = .ok (gate, ticket)) (hans : s.answered name = false) :
    (s.create gate ticket).answered name = false := by
  obtain ⟨i, t, hfind, ht, hun, hnot⟩ := answered_eq_false.mp hans
  obtain ⟨rfl, rfl⟩ := intent_ok hok
  refine answered_eq_false.mpr ⟨i, t, ?_, ht, hun, ?_⟩
  · show (s.intents ++ _).find? _ = some i
    rw [List.find?_append, show s.intents.find? _ = some i from hfind]
    rfl
  · have hmem : t ∈ s.gate.waiting := by
      rw [h.queue]
      exact List.mem_filterMap.mpr ⟨i, (find_eq hfind).1, ht⟩
    obtain ⟨u, rest, hcons⟩ := List.exists_cons_of_ne_nil (List.ne_nil_of_mem hmem)
    rw [hcons] at hnot
    show ¬ (s.gate.locked = false ∧ (s.gate.waiting ++ _).head? = some t)
    rw [hcons]
    exact hnot

/-- Where a thread is when it carries out an operation. -/
theorem Act.place (h : Act s id s') : calls.asleep (s.prog id) = false ∧ calls.list (s.prog id) = [] := by
  cases h with
  | stay hp | create hp _ | enter hp _ _ | confirm hp _ => simp [hp, calls]
  | move hn => cases hn <;> simp [*, calls]
  | release hr => cases hr <;> simp [*, calls]
  | acquire hp _ _ _ _ _ | dropIntent hp _ | reserve hp _ | unreserve hp _ | latch hp _ | notify hp | clear hp
  | register hp _ => simp [hp, calls]

/-- What an operation does to the waiters: all of them are going to be woken by its thread; or they stay, and
    for none of them anything happens that is not about to be notified. -/
inductive Effect (s : State ι κ) (id : ThreadId) (s' : State ι κ) : Prop where
  | takes (p : Prog) (hprog : s'.prog = update s.prog id p) (hwaits : p.waits = false)
      (hlist : ∀ k ∈ s.gate.waiters, k ∈ calls.list p)
  | keeps (p : Prog) (hprog : s'.prog = update s.prog id p) (hplace : s.prog id ≠ .notify)
      (hwaiters : ∀ k, k ≠ id ∨ p = .notify → k ∈ s.gate.waiters → k ∈ s'.gate.waiters)
      (hans : ∀ name, s.answered name = false → s'.answered name = false ∨ p = .notify)
      (hself : p.waits = true → id ∈ s'.gate.waiters ∧ (∃ name, p = .recheck name) ∨
        ∃ name, p = .calling name ∧ s.prog id = .recheck name ∧ s'.gate.waiters = s.gate.waiters ∧
          s'.answered name = false)

theorem Act.effect (h : Sound s) (hact : Act s id s') : Effect s id s' := by
  have hsame : ∀ {p : Prog}, s.prog id = p → s.prog = update s.prog id p := by
    rintro p rfl
    exact (update_eq_self _ _).symm
  have hnot : ∀ {p : Prog}, s.prog id = p → p ≠ .notify → s.prog id ≠ .notify :=
    fun hp hne h0 => hne (hp.symm.trans h0)
  cases hact with
  | stay hp | reserve hp _ =>
    exact .keeps .user (hsame hp) (hnot hp nofun) (fun _ _ h0 => h0) (fun _ h0 => .inl h0) nofun
  | @move p hn =>
    refine .keeps p rfl hn.ne_notify (fun _ _ h0 => h0) (fun _ h0 => .inl h0) fun hp => ?_
    cases hn with
    | sleeps hr hans => exact .inr ⟨_, rfl, hr, rfl, hans⟩
    | _ => cases hp
  | create hp hok =>
    refine .keeps .user (hsame hp) (hnot hp nofun) ?_ (fun _ h0 => .inl (answered_create h hok h0)) nofun
    intro k _ hk
    obtain ⟨rfl, rfl⟩ := intent_ok hok
    exact hk
  | enter hp _ _ =>
    refine .keeps _ rfl (hnot hp nofun) (fun _ _ h0 => h0) (fun name h0 => .inl ?_) nofun
    obtain ⟨i, t, hfind, ht, hun, _⟩ := answered_eq_false.mp h0
    exact answered_eq_false.mpr ⟨i, t, hfind, ht, hun, fun h1 => (nomatch h1.1)⟩
  | confirm hp _ | unreserve hp _ =>
    exact .keeps _ rfl (hnot hp nofun) (fun _ _ h0 => h0) (fun _ h0 => .inl h0) nofun
  | release _ | acquire _ _ _ _ _ _ | notify _ => exact .takes _ rfl rfl fun _ h0 => h0
  | @dropIntent name i hp hfind =>
    cases hticket : i.ticket with
    | some ticket =>
      refine .takes _ rfl rfl fun k hk => ?_
      rw [hticket]
      exact hk
    | none =>
      -- a consumed intent is not waited for any more
      have hgate : (s.dropIntent id i).gate = s.gate := by
        show (s.gate.dropIntent i.ticket).1 = s.gate
        rw [hticket]
        rfl
      refine .keeps _ rfl (hnot hp nofun) (fun k _ hk => by rw [hgate]; exact hk) ?_ nofun
      intro name' h0
      obtain ⟨j, t, hfind', ht, hun, hlate⟩ := answered_eq_false.mp h0
      refine .inl (answered_eq_false.mpr ⟨j, t, ?_, ht, ?_⟩)
      · have hne : j.name ≠ i.name := by
          intro heq
          have hij : name' = name := by
            rw [← (find_eq hfind').2, ← (find_eq hfind).2]
            exact heq
          subst hij
          rw [hfind] at hfind'
          cases hfind'
          exact nomatch hticket.symm.trans ht
        exact find?_filter_name hfind' hne
      · rw [hgate]
        exact ⟨hun, hlate⟩
  | latch hp _ =>
    exact .keeps _ rfl (hnot hp nofun) (fun _ _ h0 => h0) (fun _ _ => .inr rfl) nofun
  | clear hp =>
    refine .keeps _ rfl (hnot hp nofun) ?_ (fun _ h0 => .inl h0) nofun
    intro k hne hk
    exact List.mem_filter.mpr ⟨hk, by simpa using hne.resolve_right nofun⟩
  | register hp hok =>
    obtain ⟨hin, hkeep, hlocked, hwaiting, _, hun⟩ := registerWaiter_fields hok
    refine .keeps _ rfl (hnot hp nofun) (fun k _ hk => hkeep k hk) ?_ (fun _ => .inl ⟨hin, _, rfl⟩)
    intro name h0
    obtain ⟨i, t, hfind, ht, hun', hlate⟩ := answered_eq_false.mp h0
    refine .inl (answered_eq_false.mpr ⟨i, t, hfind, ht, hun.trans hun', ?_⟩)
    rintro ⟨h1, h2⟩
    exact hlate ⟨hlocked.symm.trans h1, (congrArg List.head? hwaiting).symm.trans h2⟩

include hw in
/-- **The operations keep the watch.** -/
theorem watch_act (h : Sound s)
    (hc : s.sleep.cpu c = some id) (huser : s.prog id = .user → id ≠ idle.thread c) (hact : Act s id s')
    (hsleep : s'.sleep = s.sleep) : Sleep.Watch idle calls s'.sleep s'.prog (Pending s') := by
  obtain ⟨hasleep, hnil⟩ := hact.place
  have hidle : ∀ {p : Prog}, calls.away (s.prog id) = true → calls.away p = true ∨ id ≠ idle.thread c := by
    intro p haway
    refine .inr (huser ?_)
    cases hp : s.prog id <;> rw [hp] at haway <;> first | rfl | cases haway
  have hlist : ∀ {p : Prog}, ∀ k ∈ calls.list (s.prog id), k ∈ calls.list p := by
    rw [hnil]
    exact nofun
  rw [hsleep]
  cases hact.effect h with
  | takes p hprog hwaits htaken =>
    rw [hprog]
    refine hw.act hc rfl hidle hasleep hlist (fun k _ _ h0 => .inr (htaken k h0.1)) fun h0 => ?_
    exact absurd (h0.symm.trans hwaits) nofun
  | keeps p hprog hplace hwaiters hans hself =>
    have hother : ∀ k, k ≠ id → s'.prog k = s.prog k := fun k hne => by rw [hprog, update_of_ne hne]
    have hnotify : ∀ k, s.prog k = .notify → ∃ k', s'.prog k' = .notify := by
      intro k hk
      refine ⟨k, ?_⟩
      rw [hother k ?_]
      · exact hk
      · rintro rfl
        exact hplace hk
    have hans' : ∀ name, s.answered name = false → s'.answered name = false ∨ ∃ k, s'.prog k = .notify := by
      intro name h0
      refine (hans name h0).imp_right fun hp => ⟨id, ?_⟩
      rw [hprog, update_self]
      exact hp
    rw [hprog]
    refine hw.act hc rfl hidle hasleep hlist
      (fun k hne _ h0 => .inl (h0.keep (hother k hne) (hwaiters k (.inl hne)) hans' hnotify)) fun hp => ?_
    rcases hself hp with ⟨hin, name, rfl⟩ | ⟨name, rfl, hrecheck, hsame, hanswered⟩
    · refine .inl ⟨hin, fun name' h0 => ?_⟩
      rw [hprog, update_self] at h0
      cases h0
    · refine .inr ⟨by rw [hrecheck]; rfl, fun h0 => ⟨hsame ▸ h0.1, fun name' hname => .inl ?_⟩,
        fun _ => by rw [hrecheck]; rfl⟩
      rw [hprog, update_self] at hname
      cases hname
      exact hanswered

variable [DecidableEq ι]

include hw in
/-- **So do the steps of a sleep call and of a wake loop.** -/
theorem watch_nap
    (hc : s.sleep.cpu c = some id) (hnap : Nap idle s c id s') :
    Sleep.Watch idle calls s'.sleep s'.prog (Pending s') := by
  -- the gate stays, no thread was notifying, and `id` still sleeps for the same intent, if for any
  have hkeep : ∀ {sleep : Sleep.State ι κ} {p : Prog}, s.prog id ≠ .notify →
      (∀ name, p.sleepsFor = some name → (s.prog id).sleepsFor = some name) → ∀ k, Pending s k →
      Pending ({ s with sleep := sleep }.setProg id p) k := by
    intro sleep p hplace hp k h0
    have hback : ∀ name, (update s.prog id p k).sleepsFor = some name → (s.prog k).sleepsFor = some name := by
      intro name hname
      rw [update_apply] at hname
      split at hname
      · rename_i heq
        rw [heq]
        exact hp name hname
      · exact hname
    refine ⟨h0.1, fun name hname => (h0.2 name (hback name hname)).imp_right fun ⟨k', hk'⟩ => ⟨k', ?_⟩⟩
    refine (update_of_ne ?_ _ _).trans hk'
    rintro rfl
    exact hplace hk'
  cases hnap with
  | call hp hs =>
    refine hw.call hc hp rfl hs rfl rfl rfl (hkeep (by rw [hp]; exact nofun) ?_)
    rw [hp]
    exact fun _ h0 => h0
  | advance hp hs => exact hw.advance hc hp rfl rfl hs
  | leave hp hl hs =>
    refine hw.leave hc hp rfl hl hs rfl rfl (hkeep (by rw [hp]; exact nofun) ?_)
    rw [hp]
    exact fun _ h0 => h0
  | wake hp hs =>
    exact hw.wake hc hp rfl rfl hs (.inl rfl) (fun _ => List.mem_cons.mp) rfl rfl
      fun k _ => hkeep (p := .waking _) (by rw [hp]; exact nofun) nofun k

end Waiting

/-! ## The invariant along runs -/

/-- The invariant: whoever waits for an answer that is there is woken. -/
structure Inv (idle : Sleep.Idle ι) (s : State ι κ) : Prop where
  sound : Sound s
  watch : Sleep.Watch idle calls s.sleep s.prog (Pending s)

theorem Act.sleep_eq {s s' : State ι κ} (h : Act s id s') : s'.sleep = s.sleep := by
  cases h <;> rfl

section Runs

variable [DecidableEq ι] {idle : Sleep.Idle ι} {s s' : State ι κ}

theorem sound_nap {c : ι} (h : Sound s) (hnap : Nap idle s c id s') : Sound s' := by
  cases hnap with
  | call _ _ | leave _ _ _ | wake _ _ => exact h.frame rfl rfl rfl rfl rfl rfl rfl rfl rfl
  | advance _ _ => exact h.sleep _

theorem sound_step (h : Sound s) (hs : step idle s l = some s') : Sound s' := by
  rcases step_cases hs with ⟨_, _, _, _, hact | hnap⟩ | ⟨⟨_, _⟩, _⟩ | ⟨_, sleep, _, _, rfl⟩
  · exact sound_act h hact
  · exact sound_nap h hnap
  · exact h.frame rfl rfl rfl rfl rfl rfl rfl rfl rfl
  · exact h.sleep sleep

/-- **Without misleading looks every step keeps the watch.** -/
theorem inv_step (h : Inv idle s) (htrue : truthful s l = true)
    (hs : step idle s l = some s') : Inv idle s' := by
  refine ⟨sound_step h.sound hs, ?_⟩
  rcases step_cases hs with ⟨c, id, hc, huser, hact | hnap⟩ | ⟨_, hfalse⟩ | ⟨l', sleep, hl, hs', rfl⟩
  · exact watch_act h.watch h.sound hc huser hact hact.sleep_eq
  · exact watch_nap h.watch hc hnap
  · rw [htrue] at hfalse
    cases hfalse
  · refine h.watch.sched hs' ?_ ?_
    · intro k hk
      cases l' <;> first | exact hk | cases hl
    · intro c k hcase hk
      rcases hcase with rfl | rfl
      · cases hl
      · simpa [admissible, hk] using hl

omit [DecidableEq ι] in
theorem inv_start (h : Start idle s) : Inv idle s := by
  have hnone : ∀ id p, p ≠ .user → s.prog id ≠ p := fun id p hne h0 => hne (h0.symm.trans (h.prog id))
  constructor
  · refine ⟨?_, ?_, ?_, ?_, ?_, ?_, ?_, ?_, ?_, ?_⟩
    · rw [h.gate, h.intents]
      rfl
    · rw [h.intents]
      exact List.Pairwise.nil
    · rw [h.intents]
      exact nofun
    · rw [h.gate]
      exact List.Pairwise.nil
    · rw [h.gate]
      exact nofun
    · rw [h.holders]
      exact Nat.zero_le _
    · rw [h.gate, h.holders]
      exact ⟨nofun, fun h0 => absurd rfl h0⟩
    · exact fun k hk => absurd hk (hnone k _ nofun)
    · exact fun k hk => absurd hk (hnone k _ nofun)
    · exact fun k hk => absurd hk (hnone k _ nofun)
  · exact .start h.sleep fun id => by rw [h.prog]; rfl

theorem sound_reachable (h : (objectIo idle).Reachable s) : Sound s := by
  refine System.Reach.invariant ?_ ?_ h
  · intro s hs
    exact (inv_start hs).sound
  · intro s l s' hi _ hs
    exact sound_step hi hs

theorem inv_reach (h : (objectIo idle).Reach (fun s l => truthful s l = true) s) : Inv idle s := by
  refine System.Reach.invariant ?_ ?_ h
  · intro s hs
    exact inv_start hs
  · intro s l s' hi htrue hs
    exact inv_step hi htrue hs

end Runs

end Mnu.Mem.ObjectIo
