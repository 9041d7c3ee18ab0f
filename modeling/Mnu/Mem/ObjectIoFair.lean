import Mnu.Mem.ObjectIoWaitInv

/-!
# `Mnu.Mem.ObjectIoFair` — exclusion, order and wakeups at an I/O gate

What the operations on one `IoLock` guarantee in every interleaving (`Kept`): the lock has one holder at most;
the queue is the live intents that are not used up, in the order of their creation; `try_lock` makes a guard
only when no intent is queued; a lock that is marked unavailable admits nobody; and whoever is registered when
something happens to an intent is going to be woken.

That a waiting thread whose intent has come first with the lock free, or has come to an end, does not stay
asleep (`Served`) needs a second look that sees it. A look that finds the lock of the intent taken by another
waiting thread does not, and the thread sleeps on (`sleeps_after_busy_look`).
-/

namespace Mnu.Mem.ObjectIo

open Mnu.Lib Mnu.Task

variable {ι κ : Type}

/-! ## Holders -/

section Holders

variable {s s' : State ι κ} {id : ThreadId}

theorem mem_exchange {holders : List Holder} {old new x : Holder} (h : x ∈ exchange holders old new) :
    x ∈ holders ∨ x = new ∧ old ∈ holders := by
  obtain ⟨y, hy, heq⟩ := List.mem_map.mp h
  split at heq
  · rename_i hold
    exact .inr ⟨heq.symm, hold ▸ hy⟩
  · rw [← heq]
    exact .inl hy

/-- Where a holder comes from. -/
theorem Act.holder (h : Act s id s') {x : Holder} (hx : x ∈ s'.holders) :
    x ∈ s.holders ∨ x = .trial id ∧ s.gate.waiting = [] ∨ (∃ n, x = .guard n ∧ s.gate.unavailable = false) ∨
      (∃ n, x = .reservation n ∧ .guard n ∈ s.holders) ∨ x = .dropping id := by
  cases h with
  | enter _ _ hempty =>
    rcases List.mem_append.mp hx with h0 | h0
    · exact .inl h0
    · exact .inr (.inl ⟨List.mem_singleton.mp h0, hempty⟩)
  | confirm _ hun =>
    rcases mem_exchange hx with h0 | ⟨rfl, _⟩
    · exact .inl h0
    · exact .inr (.inr (.inl ⟨_, rfl, hun⟩))
  | release _ => exact .inl (List.mem_of_mem_erase hx)
  | acquire _ _ _ hun _ _ =>
    rcases List.mem_append.mp hx with h0 | h0
    · exact .inl h0
    · exact .inr (.inr (.inl ⟨_, List.mem_singleton.mp h0, hun⟩))
  | reserve _ _ =>
    rcases mem_exchange hx with h0 | ⟨rfl, hold⟩
    · exact .inl h0
    · exact .inr (.inr (.inr (.inl ⟨_, rfl, hold⟩)))
  | unreserve _ _ =>
    rcases mem_exchange hx with h0 | ⟨rfl, _⟩
    · exact .inl h0
    · exact .inr (.inr (.inr (.inr rfl)))
  | _ => exact .inl hx

theorem Act.unavailable (h : Act s id s') (hun : s.gate.unavailable = true) : s'.gate.unavailable = true := by
  cases h with
  | create _ hok =>
    unfold Gate.intent at hok
    rw [if_pos hun] at hok
    cases hok
  | @dropIntent name i _ _ =>
    show (s.gate.dropIntent i.ticket).1.unavailable = true
    cases i.ticket <;> exact hun
  | latch _ _ => rfl
  | register _ hok => exact (registerWaiter_fields hok).2.2.2.2.2.trans hun
  | _ => exact hun

variable [DecidableEq ι] {idle : Sleep.Idle ι}

theorem Nap.same {c : ι} (h : Nap idle s c id s') :
    s'.gate = s.gate ∧ s'.holders = s.holders ∧ s'.intents = s.intents := by
  cases h <;> exact ⟨rfl, rfl, rfl⟩

omit [DecidableEq ι] in
theorem answered_congr (hgate : s'.gate = s.gate) (hintents : s'.intents = s.intents) (name : Nat) :
    s'.answered name = s.answered name := by
  rw [State.answered, State.answered, State.readiness, State.readiness, State.find,
    State.find, hgate, hintents]

/-- Every step is an operation, or leaves the gate, its intents and its holders alone. -/
theorem step_act {l : Label ι} (h : step idle s l = some s') :
    (∃ id, Act s id s') ∨ s'.gate = s.gate ∧ s'.holders = s.holders ∧ s'.intents = s.intents := by
  rcases step_cases h with ⟨_, id, _, _, hact | hnap⟩ | ⟨⟨_, _⟩, _⟩ | ⟨_, _, _, _, rfl⟩
  · exact .inl ⟨id, hact⟩
  · exact .inr hnap.same
  · exact .inr ⟨rfl, rfl, rfl⟩
  · exact .inr ⟨rfl, rfl, rfl⟩

end Holders

/-! ## The guarantees -/

/-- What the gate keeps to in every state. -/
structure Kept [DecidableEq ι] (idle : Sleep.Idle ι) (s : State ι κ) : Prop where
  /-- One guard or reservation holds the lock, or it is free. -/
  exclusive : s.holders.length ≤ 1 ∧ (s.gate.locked = true ↔ s.holders ≠ [])
  /-- The queue is the live intents that are not used up, in the order in which they were created. -/
  queue : s.gate.waiting = s.intents.filterMap Intent.ticket ∧ (s.intents.map Intent.name).Pairwise (· < ·)
  /-- `try_lock` makes a guard only when no intent is queued. -/
  behind : ∀ l s' k, step idle s l = some s' → .trial k ∈ s'.holders → .trial k ∈ s.holders ∨
    s.gate.waiting = []
  /-- A lock that is marked stays so, and nobody comes to hold it but by reserving what they hold. -/
  unavailable : s.gate.unavailable = true → ∀ l s', step idle s l = some s' → s'.gate.unavailable = true ∧
    ∀ n, (.guard n ∈ s'.holders → .guard n ∈ s.holders) ∧
      (.reservation n ∈ s'.holders → .reservation n ∈ s.holders ∨ .guard n ∈ s.holders)
  /-- Whoever is registered when something happens to an intent is going to be woken, by the thread that made
      it happen, or by the one that is about to notify of the mark. -/
  notified : ∀ l s' id name, step idle s l = some s' → id ∈ s.gate.waiters → s.answered name = false →
    s'.answered name = true → Sleep.ToBeWoken calls s'.prog id ∨ id ∈ s'.gate.waiters ∧
      ∃ k, s'.prog k = .notify

/-- No thread stays asleep once something has happened to its intent. -/
structure Served [DecidableEq ι] (idle : Sleep.Idle ι) (s : State ι κ) : Prop where
  woken : ∀ id name, (s.prog id).sleepsFor = some name → s.answered name = true →
    Sleep.ToBeWoken calls s.prog id ∨ (id ∈ s.gate.waiters ∧ ∃ k, s.prog k = .notify) ∨
      ∃ slot t, s.sleep.queue.threads slot = some t ∧ t.id = id ∧ Sleep.Awake idle s.sleep slot t
  /-- In particular if its intent is first and the lock is free. -/
  first : ∀ id name, (s.prog id).sleepsFor = some name → s.readiness name = some (.ok true) →
    Sleep.ToBeWoken calls s.prog id ∨
      ∃ slot t, s.sleep.queue.threads slot = some t ∧ t.id = id ∧ Sleep.Awake idle s.sleep slot t

section Guarantees

variable [DecidableEq ι] {idle : Sleep.Idle ι} {s s' : State ι κ} {id : ThreadId} {l : Label ι} {name : Nat}
  (h : Inv idle s) (hp : (s.prog id).sleepsFor = some name)

/-- Nobody gets a trial lock past the queue. -/
theorem behind_of_step {k : ThreadId} (hs : step idle s l = some s') (hk : .trial k ∈ s'.holders) :
    .trial k ∈ s.holders ∨ s.gate.waiting = [] := by
  rcases step_act hs with ⟨id, hact⟩ | ⟨_, hholders, _⟩
  · rcases hact.holder hk with h0 | ⟨_, h0⟩ | ⟨n, h0, _⟩ | ⟨n, h0, _⟩ | h0
    · exact .inl h0
    · exact .inr h0
    · cases h0
    · cases h0
    · cases h0
  · rw [hholders] at hk
    exact .inl hk

/-- **A dead gate stays dead**, and gives out nothing. -/
theorem unavailable_of_step (hun : s.gate.unavailable = true) (hs : step idle s l = some s') :
    s'.gate.unavailable = true ∧ ∀ n, (.guard n ∈ s'.holders → .guard n ∈ s.holders) ∧
      (.reservation n ∈ s'.holders → .reservation n ∈ s.holders ∨ .guard n ∈ s.holders) := by
  rcases step_act hs with ⟨id, hact⟩ | ⟨hgate, hholders, _⟩
  · refine ⟨hact.unavailable hun, fun n => ⟨fun hn => ?_, fun hn => ?_⟩⟩
    · rcases hact.holder hn with h0 | ⟨h0, _⟩ | ⟨_, _, h0⟩ | ⟨m, h0, _⟩ | h0
      · exact h0
      · cases h0
      · rw [hun] at h0
        cases h0
      · cases h0
      · cases h0
    · rcases hact.holder hn with h0 | ⟨h0, _⟩ | ⟨_, h0, _⟩ | ⟨m, h0, hguard⟩ | h0
      · exact .inl h0
      · cases h0
      · cases h0
      · cases h0
        exact .inr hguard
      · cases h0
  · rw [hgate, hholders]
    exact ⟨hun, fun n => ⟨fun h0 => h0, .inl⟩⟩

/-- A step that makes an answer has the waiter woken. -/
theorem notified_of_step (h : Sound s) (hs : step idle s l = some s')
    (hin : id ∈ s.gate.waiters) (hbefore : s.answered name = false) (hafter : s'.answered name = true) :
    Sleep.ToBeWoken calls s'.prog id ∨ id ∈ s'.gate.waiters ∧ ∃ k, s'.prog k = .notify := by
  rcases step_act hs with ⟨k, hact⟩ | ⟨hgate, _, hintents⟩
  · cases hact.effect h with
    | takes p hprog _ hlist =>
      rw [hprog]
      exact .inl (Sleep.toBeWoken_of_mem (hlist id hin))
    | keeps p hprog _ hwaiters hans _ =>
      have hp : p = .notify := (hans name hbefore).resolve_left fun h0 => by
        rw [hafter] at h0
        cases h0
      refine .inr ⟨hwaiters id (.inr hp) hin, k, ?_⟩
      rw [hprog, Function.update_self, hp]
  · rw [answered_congr hgate hintents, hbefore] at hafter
    cases hafter

include h hp in
theorem woken_of_inv (hans : s.answered name = true) :
    Sleep.ToBeWoken calls s.prog id ∨ (id ∈ s.gate.waiters ∧ ∃ k, s.prog k = .notify) ∨
      ∃ slot t, s.sleep.queue.threads slot = some t ∧ t.id = id ∧ Sleep.Awake idle s.sleep slot t := by
  by_cases hpend : Pending s id
  · refine .inr (.inl ⟨hpend.1, (hpend.2 name hp).resolve_left fun h0 => ?_⟩)
    rw [hans] at h0
    cases h0
  · have hwaits : calls.waits (s.prog id) = true := by
      cases hprog : s.prog id <;> rw [hprog] at hp <;> first | rfl | cases hp
    exact (h.watch.awake hwaits hpend).imp_right .inr

include h hp in
theorem first_of_inv
    (hready : s.readiness name = some (.ok true)) :
    Sleep.ToBeWoken calls s.prog id ∨
      ∃ slot t, s.sleep.queue.threads slot = some t ∧ t.id = id ∧ Sleep.Awake idle s.sleep slot t := by
  have hans : s.answered name = true := by rw [State.answered, hready]
  rcases woken_of_inv h hp hans with h0 | ⟨_, k, hk⟩ | h0
  · exact .inl h0
  · -- a lock that is marked has no ready intent
    have hun := h.sound.marked k hk
    obtain ⟨i, _, hi⟩ := Option.map_eq_some_iff.mp hready
    unfold Gate.ready at hi
    split at hi
    · cases hi
    rw [if_pos hun] at hi
    cases hi
  · exact .inr h0

/-- **Exclusion, order, unavailability and notification** hold in every interleaving of the operations on one
    lock. **No thread sleeps while its intent is first and the lock free**, if no second look at an intent
    that is ready finds the intent's own lock taken. -/
theorem gate_kept (h : (objectIo idle).Reachable s) :
    Kept idle s ∧ ((objectIo idle).Reach (fun s l => truthful s l = true) s → Served idle s) := by
  have hsound := sound_reachable h
  constructor
  · exact
      { exclusive := ⟨hsound.exclusive, hsound.locked⟩
        queue := ⟨hsound.queue, hsound.names⟩
        behind := fun _ _ _ hs hk => behind_of_step hs hk
        unavailable := fun hun _ _ hs => unavailable_of_step hun hs
        notified := fun _ _ _ _ hs hin hbefore hafter => notified_of_step hsound hs hin hbefore hafter }
  · intro htruthful
    have hinv := inv_reach htruthful
    exact ⟨fun _ _ hp hans => woken_of_inv hinv hp hans, fun _ _ hp hready => first_of_inv hinv hp hready⟩

end Guarantees

/-! ## Runs -/

/-- A new gate and two threads, each on a CPU of its own. -/
def newGate : State Bool Unit := ⟨Sleep.twoThreads, fun _ => .user, Gate.new, [], [], 0⟩

theorem start_newGate : Start Sleep.twoCpus newGate := ⟨Sleep.start_twoThreads, fun _ => rfl, rfl, rfl, rfl⟩

/-- There is memory, and nobody gives up. -/
def plenty : Hint := ⟨true, false⟩

/-- Thread 3 takes the lock; thread 2 queues an intent and starts to wait for it. -/
def queuesBehindGuard : List (Label Bool) :=
  [.tryLock true, .own true plenty, .own true plenty, .intent false true, .wait false 1]

/-- Thread 2 sleeps; thread 3 drops its guard. -/
def dropsBeforeSleeper : List (Label Bool) :=
  queuesBehindGuard ++ List.replicate 9 (.own false plenty) ++ [.dropGuard true 0]

/-- Thread 2 sleeps while its turn has not come. -/
theorem gate_kept_for_sleeper : ∃ s : State Bool Unit,
    (objectIo Sleep.twoCpus).Reach (fun s l => truthful s l = true) s ∧
    (s.prog 2).sleepsFor = some 1 ∧ ((s.sleep.queue.threads 2).any fun t => t.state = .sleeping) = true ∧
    s.readiness 1 = some (.ok true) ∧ Kept Sleep.twoCpus s ∧ Served Sleep.twoCpus s := by
  obtain ⟨s, hs, hprog, hstate, hready⟩ := System.reach_of_exec (objectIo Sleep.twoCpus) truthful newGate
    dropsBeforeSleeper
    (fun s => (s.prog 2).sleepsFor = some 1 ∧
      ((s.sleep.queue.threads 2).any fun t => t.state = .sleeping) = true ∧
      s.readiness 1 = some (.ok true)) start_newGate (by decide +kernel)
  exact ⟨s, hs, hprog, hstate, hready, (gate_kept hs.reachable).1, (gate_kept hs.reachable).2 hs⟩

/-- Thread 2 has looked and not yet registered when thread 3 drops its guard, which wakes nobody. It
    registers, and looks again while thread 3, which waits for the same intent now, has the intent's lock.
    Thread 3 sees that the intent is ready, and returns; thread 2 goes to sleep. -/
def looksWhileBusy : List (Label Bool) :=
  queuesBehindGuard ++ [.own false plenty, .own false plenty, .dropGuard true 0, .own true plenty,
    .own false plenty, .wait true 1, .own true plenty, .busy false true, .own true plenty] ++
    List.replicate 5 (.own false plenty)

/-- **A thread can sleep while its intent is first in line and the lock is free**: it is in the table and in
    no thread's hands, its latch is clear, and it is off the CPUs. -/
theorem sleeps_after_busy_look : ∃ s : State Bool Unit, (objectIo Sleep.twoCpus).Reachable s ∧
    (s.prog 2).sleepsFor = some 1 ∧ s.readiness 1 = some (.ok true) ∧ 2 ∈ s.gate.waiters ∧
    (∃ t ∈ s.sleep.queue.threads 2, t.id = 2 ∧ t.state = .sleeping ∧ t.pendingWakeup = false) ∧
    s.sleep.queue.readyBitmap 2 = false ∧ (∀ c, s.sleep.cpu c ≠ some 2) ∧
    ∀ slot, ∀ t ∈ s.sleep.queue.threads slot, s.prog t.id = .user ∨ t.id = 2 := by
  exact System.reachable_of_exec (objectIo Sleep.twoCpus) newGate looksWhileBusy _ start_newGate
    (by decide +kernel)

end Mnu.Mem.ObjectIo
