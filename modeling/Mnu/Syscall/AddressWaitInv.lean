import Mnu.Syscall.AddressWait
import Mnu.Task.SleepWatch

/-!
# `Mnu.Syscall.AddressWaitInv` — no wakeup of an address is lost

One inversion lemma says what a critical section of the calls can do (`OwnStep`), and the invariants are
proved from it.

A thread that waits and is no longer registered, and whose waker has come to it, is due a wakeup (`Inv.due`):
so it does not stay asleep, and its next look at the table ends the wait. The other parts of `Inv` say who is
registered: a thread has one entry, and only while it waits; and who has an armed deadline, which is why
arming finds a slot.
-/

namespace Mnu.Syscall.AddressWait

open Mnu.Lib Mnu.Task Function

variable {ι κ : Type} {id : ThreadId} {g : Option (AddressKey × Nat)}

/-! ## What a step can do -/

/-- The critical sections that change nothing but the place of their thread. -/
inductive Next (s : State ι κ) (id : ThreadId) : Prog → Prop where
  | failGuard {r a v e} : s.prog id = .resolveGuard r a v → Next s id (.returned (.error e))
  | guarded {r a v key} : s.prog id = .resolveGuard r a v → Next s id (.resolve r (some (key, v)))
  | failKey {r g e} : s.prog id = .resolve r g → Next s id (.returned (.error e))
  | keyed {r g key prepared} : s.prog id = .resolve r g →
      resolveKey s (s.tableOf id) r.address r.valueSize prepared = .ok key → Next s id (.register r key g)
  | refused {r key g answer} : s.prog id = .register r key g → claimSlot s id r key g = .error answer →
      Next s id (.returned answer)
  | unarmed {r} : s.prog id = .arm r → sleepEntrySlot s.deadlines id = none → Next s id .abandon
  | gone {r} : s.prog id = .check r → isRegistered s id = false → Next s id (.finish .awoken)
  | again {r} : s.prog id = .check r → isRegistered s id = true → Next s id (.calling r)
  | failWake {a n e} : s.prog id = .wakeResolve a n → Next s id (.returned (.error e))
  | wakeNone {a} : s.prog id = .wakeResolve a 0 → Next s id (.returned (.woke 0))
  | wakeKeyed {a n key prepared} : s.prog id = .wakeResolve a n →
      resolveKey s (s.tableOf id) a 1 prepared = .ok key → Next s id (.collect key n)
  | done {n} : s.prog id = .waking [] n → Next s id (.returned (.woke n))
  | back {answer} : s.prog id = .returned answer → Next s id .user

/-- The critical sections of the current thread of `c`. -/
inductive OwnStep [DecidableEq ι] (idle : Sleep.Idle ι) (s : State ι κ) (c : ι) (id : ThreadId) :
    State ι κ → Prop where
  | place {p} : Next s id p → OwnStep idle s c id (s.setProg id p)
  | enroll {r key g slot} : s.prog id = .register r key g → claimSlot s id r key g = .ok slot →
      OwnStep idle s c id ((enroll s id key (g.map Prod.fst) slot).setProg id
        (if r.deadline.isSome then .arm r else .check r))
  | arm {r slot} : s.prog id = .arm r → sleepEntrySlot s.deadlines id = some slot →
      OwnStep idle s c id ({ s with deadlines := update s.deadlines slot (some id) }.setProg id (.check r))
  | abandon : s.prog id = .abandon →
      OwnStep idle s c id ((removeWaiter s id).setProg id (.returned (.error .resourceUnavailable)))
  | stop {r result} : s.prog id = .check r → (isRegistered s id = false → result = .awoken) →
      OwnStep idle s c id ((removeWaiter s id).setProg id (.finish result))
  | call {r sleep} : s.prog id = .calling r → Sleep.step idle s.sleep (.call c) = some sleep →
      OwnStep idle s c id ({ s with sleep := sleep }.setProg id (.sleeping r))
  | advance {r sleep} : s.prog id = .sleeping r → s.sleep.pc id ≠ .outside →
      Sleep.step idle s.sleep (.advance c) = some sleep → OwnStep idle s c id { s with sleep := sleep }
  | leave {r l sleep} : s.prog id = .sleeping r → (l = .yield c ∨ l = .preempt c ∧ s.sleep.pc id = .outside) →
      Sleep.step idle s.sleep l = some sleep →
        OwnStep idle s c id ({ s with sleep := sleep }.setProg id (.check r))
  | disarm {result} : s.prog id = .finish result →
      OwnStep idle s c id ((disarm s id).setProg id (.returned (.waited result)))
  | sweep {key n} : s.prog id = .collect key n → OwnStep idle s c id ((swept s id key n).setProg id
        (.waking ((collect s key n).2.map AddressWaiter.thread) (collect s key n).2.length))
  | wake {thread rest n sleep} : s.prog id = .waking (thread :: rest) n →
      Sleep.step idle s.sleep (.wake thread true) = some sleep →
      OwnStep idle s c id ({ s with sleep := sleep }.setProg id (.waking rest n))

/-- The steps of the system, by their labels. -/
inductive Moves [DecidableEq ι] (idle : Sleep.Idle ι) (s : State ι κ) : Label ι → State ι κ → Prop where
  | wait {c id r} : s.sleep.cpu c = some id → s.prog id = .user → id ≠ idle.thread c →
      Moves idle s (.wait c r none) (s.setProg id (.resolve r none))
  | waitGuarded {c id r address expected} : s.sleep.cpu c = some id → s.prog id = .user → id ≠ idle.thread c →
      Moves idle s (.wait c r (some (address, expected))) (s.setProg id (.resolveGuard r address expected))
  | wake {c id address count} : s.sleep.cpu c = some id → s.prog id = .user → id ≠ idle.thread c →
      Moves idle s (.wake c address count) ({ s with
        wakeCall := update s.wakeCall id s.wakeCalls
        wakeCalls := s.wakeCalls + 1 }.setProg id (.wakeResolve address count))
  | own {c hint id s'} : s.sleep.cpu c = some id → own idle s c id hint = some s' →
      Moves idle s (.own c hint) s'
  | sched {l sleep} : admissible s l = true → Sleep.step idle s.sleep l = some sleep →
      Moves idle s (.sched l) { s with sleep := sleep }
  | remap {table page frame} : Moves idle s (.remap table page frame)
      { s with maps := update s.maps table (update (s.maps table) page frame) }
  | store {address value} :
      Moves idle s (.store address value) { s with memory := update s.memory address value }
  | tick {elapsed} : Moves idle s (.tick elapsed) { s with now := s.now + elapsed }
  | expire {slot} : Moves idle s (.expire slot) { s with deadlines := update s.deadlines slot none }

section

variable [DecidableEq ι] {idle : Sleep.Idle ι} {s s' : State ι κ} {c : ι} {id : ThreadId} {hint : Hint}

/-- **Inversion**: every critical section is one of these. -/
theorem own_cases (h : own idle s c id hint = some s') : OwnStep idle s c id s' := by
  unfold own at h
  generalize hprog : s.prog id = p at h
  cases p with
  | user =>
    cases h
  | resolveGuard r a v =>
    dsimp only at h
    split at h <;> cases h
    · exact .place (.failGuard hprog)
    · exact .place (.guarded hprog)
  | resolve r g =>
    dsimp only at h
    split at h <;> cases h
    · exact .place (.failKey hprog)
    · exact .place (.keyed hprog ‹_›)
  | register r key g =>
    dsimp only at h
    split at h <;> cases h
    · exact .place (.refused hprog ‹_›)
    · exact .enroll hprog ‹_›
  | arm r =>
    dsimp only at h
    split at h <;> cases h
    · exact .place (.unarmed hprog ‹_›)
    · exact .arm hprog ‹_›
  | abandon =>
    cases h
    exact .abandon hprog
  | check r =>
    dsimp only at h
    split at h
    · cases h
      exact .stop hprog fun _ => rfl
    · split at h
      · rename_i hreg
        cases h
        exact .place (.gone hprog (by simpa using hreg))
      · rename_i hreg
        have hreg' : isRegistered s id = true := by simpa using hreg
        split at h
        · cases h
          refine .stop hprog fun h0 => ?_
          rw [hreg'] at h0
          cases h0
        · cases h
          exact .place (.again hprog hreg')
  | calling r =>
    obtain ⟨sleep, hs, rfl⟩ := of_map_map h
    exact .call hprog hs
  | sleeping r =>
    dsimp only at h
    split at h
    · rename_i hpc
      obtain ⟨sleep, hs, rfl⟩ := of_map_map h
      exact .leave hprog (.inr ⟨rfl, hpc⟩) hs
    · obtain ⟨sleep, hs, rfl⟩ := of_map_map h
      exact .leave hprog (.inl rfl) hs
    · rename_i hout _
      obtain ⟨sleep, hs, rfl⟩ := Option.map_eq_some_iff.mp h
      exact .advance hprog hout hs
  | finish result =>
    cases h
    exact .disarm hprog
  | wakeResolve a n =>
    dsimp only at h
    split at h
    · rename_i hn
      subst hn
      cases h
      exact .place (.wakeNone hprog)
    · split at h <;> cases h
      · exact .place (.failWake hprog)
      · exact .place (.wakeKeyed hprog ‹_›)
  | collect key n =>
    cases h
    exact .sweep hprog
  | waking rest n =>
    cases rest with
    | nil =>
      cases h
      exact .place (.done hprog)
    | cons thread rest =>
      obtain ⟨sleep, hs, rfl⟩ := of_map_map h
      exact .wake hprog hs
  | returned answer =>
    cases h
    exact .place (.back hprog)

theorem step_moves {l : Label ι} (hs : step idle s l = some s') : Moves idle s l s' := by
  cases l with simp only [step] at hs
  | wait c r guard =>
    split at hs
    · cases hs
    split at hs
    · rename_i hc hguard
      split at hs <;> cases hs
      · exact .wait hc hguard.1 hguard.2
      · exact .waitGuarded hc hguard.1 hguard.2
    · cases hs
  | wake c address count =>
    split at hs
    · cases hs
    split at hs
    · rename_i hc hguard
      cases hs
      exact .wake hc hguard.1 hguard.2
    · cases hs
  | own c hint =>
    obtain ⟨id, hc, hown⟩ := Option.bind_eq_some_iff.mp hs
    exact .own hc hown
  | sched l =>
    split at hs
    · obtain ⟨sleep, hs', rfl⟩ := Option.map_eq_some_iff.mp hs
      exact .sched ‹_› hs'
    · cases hs
  | remap | store | tick | expire =>
    cases hs
    constructor

end

/-! ## The wait table and the deadline table -/

theorem mem_waitSlots (slot : WaitSlot) : slot ∈ waitSlots := List.mem_finRange slot

theorem nodup_waitSlots : waitSlots.Nodup := List.nodup_finRange 64

variable {s : State ι κ}

theorem isRegistered_iff : isRegistered s id = true ↔ ∃ slot w, s.waiters slot = some w ∧ w.thread = id := by
  unfold isRegistered
  rw [List.any_eq_true]
  constructor
  · rintro ⟨slot, _, hany⟩
    obtain ⟨w, hw, hid⟩ := (Option.any_eq_true _ _).mp hany
    exact ⟨slot, w, hw, of_decide_eq_true hid⟩
  · rintro ⟨slot, w, hw, hid⟩
    exact ⟨slot, mem_waitSlots slot, by simp [hw, hid]⟩

/-- No two entries of the table belong to one thread. -/
def Unique (waiters : WaitSlot → Option AddressWaiter) : Prop :=
  ∀ i j w w', waiters i = some w → waiters j = some w' → w.thread = w'.thread → i = j

/-- **Specification of `remove_waiter_locked`**: exactly the entry of the thread goes. -/
theorem removeWaiter_spec (hu : Unique s.waiters) (id : ThreadId) :
    ∃ waiters, removeWaiter s id = { s with waiters := waiters } ∧
      ∀ slot w, waiters slot = some w ↔ s.waiters slot = some w ∧ w.thread ≠ id := by
  unfold removeWaiter
  split
  · rename_i hnone
    refine ⟨s.waiters, rfl, fun slot w => ⟨fun hw => ⟨hw, fun hid => ?_⟩, fun h => h.1⟩⟩
    rw [List.find?_eq_none] at hnone
    exact hnone slot (mem_waitSlots slot) (by simp [hw, hid])
  · rename_i found hfind
    have hany := List.find?_some hfind
    obtain ⟨w₀, hw₀, hid₀⟩ := (Option.any_eq_true _ _).mp hany
    rw [decide_eq_true_eq] at hid₀
    refine ⟨_, rfl, fun slot w => ?_⟩
    rw [update_apply]
    split
    · rename_i heq
      subst heq
      constructor
      · intro h0
        cases h0
      · rintro ⟨hw, hne⟩
        rw [hw₀] at hw
        cases hw
        exact absurd hid₀ hne
    · rename_i hne
      refine ⟨fun hw => ⟨hw, fun hid => ?_⟩, fun h => h.1⟩
      exact hne (hu slot found w w₀ hw hw₀ (hid.trans hid₀.symm))

/-- There are as many deadline slots as threads, and every thread has one entry, so one can always be armed.
    -/
theorem sleepEntrySlot_isSome {sleep : Sleep.State ι κ} {deadlines : WaitSlot → Option ThreadId}
    (halive : ∀ i id, deadlines i = some id → Sleep.Alive sleep id)
    (honce : ∀ i j id, deadlines i = some id → deadlines j = some id → i = j)
    (hid : Sleep.Alive sleep id) : (sleepEntrySlot deadlines id).isSome := by
  by_contra hnone
  rw [Option.not_isSome_iff_eq_none] at hnone
  simp only [sleepEntrySlot, Option.or_eq_none_iff, List.find?_eq_none] at hnone
  obtain ⟨hnot, hfull⟩ := hnone
  -- every slot is taken by a thread other than `id`, and each of them is somewhere in the thread queue
  have hslot : ∀ i : WaitSlot, ∃ k, deadlines i = some k ∧
    ∃ slot t, sleep.queue.threads slot = some t ∧ t.id = k := by
    intro i
    cases hi : deadlines i with
    | none => exact absurd (by rw [hi]; rfl) (hfull i (mem_waitSlots i))
    | some k =>
      obtain ⟨slot, t, ht, htid, _⟩ := halive i k hi
      exact ⟨k, rfl, slot, t, ht, htid⟩
  choose holder hholder place thread hthread hthreadId using hslot
  have hinj : Injective place := by
    intro i j hij
    have hsame : thread i = thread j := by
      have := hthread i
      rw [hij, hthread j] at this
      exact (Option.some.inj this).symm
    refine honce i j (holder i) (hholder i) ?_
    rw [hholder j, ← hthreadId j, ← hsame, hthreadId i]
  obtain ⟨slot, t, ht, htid, _⟩ := hid
  obtain ⟨i, rfl⟩ := Finite.surjective_of_injective hinj slot
  rw [hthread i] at ht
  cases ht
  refine hnot i (mem_waitSlots i) ?_
  rw [hholder i, ← hthreadId i, htid]
  simp

/-! ## The invariant -/

/-- A waker has taken the thread's entry and has not yet come to it. -/
def ToBeWoken (s : State ι κ) (id : ThreadId) : Prop := ∃ k rest n, s.prog k = .waking rest n ∧ id ∈ rest

/-- The invariant of threads, table and deadlines. -/
structure Inv (idle : Sleep.Idle ι) (s : State ι κ) : Prop where
  core : Sleep.Core idle places s.sleep s.prog
  entry : ∀ slot w, s.waiters slot = some w → (s.prog w.thread).waits = true
  unique : Unique s.waiters
  /-- A waiter that lost its entry to a wake, and whose waker has come to it, is due a wakeup. -/
  due : ∀ id, (s.prog id).waits = true → isRegistered s id = false → ¬ ToBeWoken s id →
    Sleep.Due places s.sleep s.prog id
  armed : ∀ i id, s.deadlines i = some id → Sleep.Alive s.sleep id
  armedOnce : ∀ i j id, s.deadlines i = some id → s.deadlines j = some id → i = j
  admitted : ∀ id, s.prog id ≠ .abandon

/-- The calls as a family of waiting calls: a waker has a list of threads to come to. -/
def calls : Sleep.Calls Prog where
  toPlaces := places
  waits := Prog.waits
  list
    | .waking rest _ => rest
    | _ => []
  not_away_of_waits p h := by cases p <;> first | rfl | cases h
  list_of_waits p h := by cases p <;> first | rfl | cases h

/-- Each waiting thread is registered, or on the list of a waker, or due a wakeup. -/
abbrev Watched (idle : Sleep.Idle ι) (s : State ι κ) : Prop :=
  Sleep.Watch idle calls s.sleep s.prog fun id => isRegistered s id = true

section Preservation

variable {idle : Sleep.Idle ι} {s s' : State ι κ} {c : ι} {id : ThreadId} {p : Prog}
  {sleep : Sleep.State ι κ} {r : Request}
  {key : AddressKey} {slot : WaitSlot} {l : Sleep.Label ι} {n : Nat} {w : AddressWaiter}

theorem away_of_ne_user (h : p ≠ .user) : places.away p = false := by
  cases p <;> first | rfl | exact absurd rfl h

/-- What is common to the critical sections that only change the place of their thread. -/
theorem Next.facts (h : Next s id p) : places.asleep (s.prog id) = false ∧ s.prog id ≠ .user ∧
    (p.waits = true → isRegistered s id = true) ∧
    calls.list (s.prog id) = [] ∧ (isRegistered s id = true → (s.prog id).waits = true →
      p.waits = true ∨ p = .abandon) := by
  cases h with
  | failGuard hp | guarded hp | failKey hp | keyed hp _ | refused hp _ | unarmed hp _ =>
    simp [hp, places, calls, Prog.waits]
  | gone hp hreg | again hp hreg => simp [hp, places, calls, Prog.waits, hreg]
  | failWake hp | wakeNone hp | wakeKeyed hp _ | done hp | back hp => simp [hp, places, calls, Prog.waits]

theorem toBeWoken_iff : Sleep.ToBeWoken calls s.prog id ↔ ToBeWoken s id := by
  constructor
  · rintro ⟨k, hmem⟩
    generalize hk : s.prog k = p at hmem
    cases p <;> first | exact ⟨k, _, _, hk, hmem⟩ | cases hmem
  · rintro ⟨k, rest, n, hk, hmem⟩
    refine ⟨k, ?_⟩
    rw [hk]
    exact hmem

theorem Watched.due (h : Watched idle s) (id : ThreadId) (hwaits : (s.prog id).waits = true)
    (hreg : isRegistered s id = false) (hnot : ¬ ToBeWoken s id) : Sleep.Due places s.sleep s.prog id := by
  rcases h.watch id hwaits with h0 | h0 | h0
  · rw [hreg] at h0
    cases h0
  · exact absurd (toBeWoken_iff.mp h0) hnot
  · exact h0

theorem claimSlot_ok
    (h : claimSlot s id r key g = .ok slot) : isRegistered s id = false ∧ s.waiters slot = none ∧
      (∃ v, loadValue s (s.tableOf id) key r.valueSize = .ok v) ∧
      ∀ k v, g = some (k, v) → ∃ u, loadValue s (s.tableOf id) k 8 = .ok u := by
  have hdeadline : ∀ slot, claimSlot.freeSlot s r = .ok slot → s.waiters slot = none := by
    intro slot hslot
    unfold claimSlot.freeSlot at hslot
    split at hslot
    · cases hslot
    split at hslot
    · cases hslot
    rename_i hfind
    cases hslot
    have := List.find?_some hfind
    exact Option.isNone_iff_eq_none.mp this
  unfold claimSlot at h
  split at h
  · cases h
  rename_i hreg
  have hreg' : isRegistered s id = false := by simpa using hreg
  split at h
  · cases h
  rename_i v hv
  split at h
  · cases h
  split at h
  · cases h
  · rename_i u e hmap
    split at h
    · cases h
    refine ⟨hreg', hdeadline slot h, ⟨v, hv⟩, ?_⟩
    rintro k v' rfl
    simp only [Option.map_some, Option.some.injEq, Prod.mk.injEq] at hmap
    exact ⟨u, hmap.1⟩
  · rename_i hmap
    refine ⟨hreg', hdeadline slot h, ⟨v, hv⟩, ?_⟩
    rintro k v' rfl
    cases hmap

theorem collect_subset {i : WaitSlot} (h : (collect s key n).1 i = some w) : s.waiters i = some w := by
  rcases sweep_apply (AddressWaiter.hits key) waitSlots (min n 64) s.waiters i with hkeep | ⟨hgone, _⟩
  · rw [← hkeep]
    exact h
  · rw [collect, hgone] at h
    cases h

theorem mem_collect : w ∈ (collect s key n).2 ↔ ∃ i, s.waiters i = some w ∧ (collect s key n).1 i = none := by
  rw [collect, mem_sweep _ _ _ nodup_waitSlots]
  constructor
  · rintro ⟨i, _, hw, hgone⟩
    exact ⟨i, hw, hgone⟩
  · rintro ⟨i, hw, hgone⟩
    exact ⟨i, mem_waitSlots i, hw, hgone⟩

variable (h : Inv idle s) (hc : s.sleep.cpu c = some id)
include h

/-- A thread at a place where it does not wait is not registered. -/
theorem Inv.not_registered (hwaits : (s.prog id).waits = false) : isRegistered s id ≠ true := by
  intro hreg
  obtain ⟨slot, w, hw, hid⟩ := isRegistered_iff.mp hreg
  have hentry := h.entry slot w hw
  rw [hid, hwaits] at hentry
  cases hentry

theorem Inv.watched : Watched idle s := by
  refine ⟨h.core, fun id hwaits => ?_⟩
  by_cases hreg : isRegistered s id = true
  · exact .inl hreg
  · by_cases hwoken : ToBeWoken s id
    · exact .inr (.inl (toBeWoken_iff.mpr hwoken))
    · exact .inr (.inr (h.due id hwaits (by simpa using hreg) hwoken))

section Own

include hc

/-- **Rule for a critical section of the current thread** that leaves the sleep machine alone: the thread goes
    on to another place, and the tables change in what belongs to it, or lose entries whose threads are to be
    woken. -/
theorem Inv.act (hsleep : s'.sleep = s.sleep)
    (hprog : s'.prog = update s.prog id p) (huser : s.prog id = .user → id ≠ idle.thread c)
    (hbefore : places.asleep (s.prog id) = false) (habandon : p ≠ .abandon)
    (hlist : calls.list (s.prog id) = []) (hentry : ∀ slot w, s'.waiters slot = some w →
      w.thread = id ∧ p.waits = true ∨ w.thread ≠ id ∧ s.waiters slot = some w) (hunique : Unique s'.waiters)
    (hkeep : ∀ k, k ≠ id → isRegistered s k = true → isRegistered s' k = true ∨ k ∈ calls.list p)
    (hwaits : p.waits = true → isRegistered s' id = true ∨ (s.prog id).waits = true ∧
      (isRegistered s id = true → isRegistered s' id = true) ∧
      (places.calling p = true → places.calling (s.prog id) = true))
    (harmed : ∀ i k, s'.deadlines i = some k → s.deadlines i = some k ∨ k = id)
    (honce : ∀ i j k, s'.deadlines i = some k → s'.deadlines j = some k → i = j) : Inv idle s' := by
  have hother : ∀ k, k ≠ id → s'.prog k = s.prog k := by
    intro k hk
    rw [hprog, update_of_ne hk]
  have hself : s'.prog id = p := by rw [hprog, update_self]
  have hwatched : Watched idle s' := by
    rw [Watched, hsleep, hprog]
    refine h.watched.act hc rfl (fun haway => .inr (huser ?_)) hbefore ?_ (fun k hk _ => hkeep k hk) hwaits
    · by_contra hne
      rw [show calls.away (s.prog id) = false from away_of_ne_user hne] at haway
      cases haway
    · rw [hlist]
      exact nofun
  refine ⟨hwatched.core, ?_, hunique, hwatched.due, ?_, honce, ?_⟩
  · intro slot w hw
    rcases hentry slot w hw with ⟨hid, hp⟩ | ⟨hne, hold⟩
    · rw [hid, hself]
      exact hp
    · rw [hother _ hne]
      exact h.entry slot w hold
  · intro i k hk
    rw [hsleep]
    rcases harmed i k hk with h0 | rfl
    · exact h.armed i k h0
    · exact Sleep.OnCpu.alive h.core.sleep ⟨c, hc⟩
  · intro k
    by_cases hid : k = id
    · rw [hid, hself]
      exact habandon
    · rw [hother k hid]
      exact h.admitted k

/-- The rule for a thread that only goes on to another place. -/
theorem Inv.setProg (hsleep : s'.sleep = s.sleep) (hprog : s'.prog = update s.prog id p)
    (hwaiters : s'.waiters = s.waiters) (hdeadlines : s'.deadlines = s.deadlines)
    (huser : s.prog id = .user → id ≠ idle.thread c) (hbefore : places.asleep (s.prog id) = false)
    (habandon : p ≠ .abandon) (hlist : calls.list (s.prog id) = [])
    (hentry : isRegistered s id = true → p.waits = true)
    (hwaits : p.waits = true → isRegistered s id = true) : Inv idle s' := by
  have hreg : ∀ k, isRegistered s' k = isRegistered s k := fun k => by rw [isRegistered, hwaiters]; rfl
  refine h.act hc hsleep hprog huser hbefore habandon hlist ?_ (hwaiters ▸ h.unique) ?_ ?_ ?_ ?_
  · intro slot w hw
    rw [hwaiters] at hw
    by_cases hid : w.thread = id
    · exact .inl ⟨hid, hentry (isRegistered_iff.mpr ⟨slot, w, hw, hid⟩)⟩
    · exact .inr ⟨hid, hw⟩
  · intro k _ h0
    rw [hreg]
    exact .inl h0
  · intro h0
    rw [hreg]
    exact .inl (hwaits h0)
  · intro i k h0
    rw [hdeadlines] at h0
    exact .inl h0
  · rw [hdeadlines]
    exact h.armedOnce

theorem Inv.next (hn : Next s id p) : Inv idle (s.setProg id p) := by
  obtain ⟨hbefore, huser, hwaits, hlist, hentry⟩ := hn.facts
  have habandon : p ≠ .abandon := by
    rintro rfl
    cases hn with
    | unarmed hp hnone =>
      have hsome := sleepEntrySlot_isSome h.armed h.armedOnce (Sleep.OnCpu.alive h.core.sleep ⟨c, hc⟩)
      rw [hnone] at hsome
      cases hsome
  refine h.setProg hc rfl rfl rfl rfl (fun h0 => absurd h0 huser) hbefore habandon hlist
    (fun hreg => ?_) hwaits
  obtain ⟨slot, w, hw, hid⟩ := isRegistered_iff.mp hreg
  have hold := h.entry slot w hw
  rw [hid] at hold
  exact (hentry hreg hold).resolve_right habandon

theorem Inv.enroll (hp : s.prog id = .register r key g)
    (hclaim : claimSlot s id r key g = .ok slot) :
    Inv idle ((enroll s id key (g.map Prod.fst) slot).setProg id
      (if r.deadline.isSome then .arm r else .check r)) := by
  obtain ⟨hreg, hfree, _⟩ := claimSlot_ok hclaim
  have hnot : ∀ i w, s.waiters i = some w → w.thread ≠ id := by
    intro i w hw hid
    rw [isRegistered_iff.mpr ⟨i, w, hw, hid⟩] at hreg
    cases hreg
  have hpw : (if r.deadline.isSome then Prog.arm r else .check r).waits = true := by split <;> rfl
  refine h.act hc rfl rfl (fun h0 => (nomatch hp.symm.trans h0)) (by rw [hp]; rfl) (by split <;> exact nofun)
    (by rw [hp]; rfl) ?_ ?_ ?_ ?_ (fun _ _ h0 => .inl h0) h.armedOnce
  · intro i w hw
    rcases of_update_eq hw with ⟨-, ⟨⟩⟩ | ⟨-, hw⟩
    · exact .inl ⟨rfl, hpw⟩
    · exact .inr ⟨hnot i w hw, hw⟩
  · intro i j w w' hw hw' hid
    simp only [State.setProg, AddressWait.enroll, update_apply] at hw hw'
    split at hw <;> split at hw'
    · rw [‹i = slot›, ‹j = slot›]
    · cases hw
      exact absurd hid.symm (hnot j w' hw')
    · cases hw'
      exact absurd hid (hnot i w hw)
    · exact h.unique i j w w' hw hw' hid
  · intro k _ h0
    obtain ⟨i, w, hw, hid⟩ := isRegistered_iff.mp h0
    refine .inl (isRegistered_iff.mpr ⟨i, w, ?_, hid⟩)
    have hne : i ≠ slot := by
      rintro rfl
      rw [hfree] at hw
      cases hw
    exact (update_of_ne hne _ _).trans hw
  · intro _
    exact .inl (isRegistered_iff.mpr ⟨slot, _, update_self _ _ _, rfl⟩)

theorem Inv.arm (hp : s.prog id = .arm r) (hslot : sleepEntrySlot s.deadlines id = some slot) :
    Inv idle ({ s with deadlines := update s.deadlines slot (some id) }.setProg id (.check r)) := by
  -- the slot holds the thread's own entry, or the thread has none and the slot is free
  have hchoice : s.deadlines slot = some id ∨ ∀ i, s.deadlines i ≠ some id := by
    unfold sleepEntrySlot at hslot
    cases hown : waitSlots.find? fun slot => s.deadlines slot = some id with
    | some found =>
      rw [hown] at hslot
      cases hslot
      have := List.find?_some hown
      exact .inl (of_decide_eq_true this)
    | none =>
      rw [List.find?_eq_none] at hown
      refine .inr fun i hi => hown i (mem_waitSlots i) ?_
      rw [hi]
      simp
  refine h.act hc rfl rfl (fun h0 => (nomatch hp.symm.trans h0)) (by rw [hp]; rfl) nofun
    (by rw [hp]; rfl) ?_ h.unique (fun _ _ h0 => .inl h0) ?_ ?_ ?_
  · intro i w hw
    by_cases hid : w.thread = id
    · exact .inl ⟨hid, rfl⟩
    · exact .inr ⟨hid, hw⟩
  · intro _
    exact .inr ⟨by rw [hp]; rfl, fun h0 => h0, nofun⟩
  · intro i k hk
    rcases of_update_eq hk with ⟨-, ⟨⟩⟩ | ⟨-, hk⟩
    · exact .inr rfl
    · exact .inl hk
  · intro i j k hi hj
    simp only [State.setProg, update_apply] at hi hj
    split at hi <;> split at hj
    · rw [‹i = slot›, ‹j = slot›]
    · cases hi
      rcases hchoice with h0 | h0
      · rw [‹i = slot›]
        exact h.armedOnce slot j id h0 hj
      · exact absurd hj (h0 j)
    · cases hj
      rcases hchoice with h0 | h0
      · rw [‹j = slot›]
        exact h.armedOnce i slot id hi h0
      · exact absurd hi (h0 i)
    · exact h.armedOnce i j k hi hj

/-- The thread takes its own entry out and its wait is over. -/
theorem Inv.remove (hp : s.prog id = .check r)
    (result : AddressWaitResult) : Inv idle ((removeWaiter s id).setProg id (.finish result)) := by
  obtain ⟨waiters, heq, hspec⟩ := removeWaiter_spec h.unique id
  rw [heq]
  refine h.act hc rfl rfl (fun h0 => (nomatch hp.symm.trans h0)) (by rw [hp]; rfl) nofun
    (by rw [hp]; rfl) ?_ ?_ ?_ nofun (fun _ _ h0 => .inl h0) h.armedOnce
  · intro i w hw
    obtain ⟨hold, hne⟩ := (hspec i w).mp hw
    exact .inr ⟨hne, hold⟩
  · intro i j w w' hw hw' hid
    exact h.unique i j w w' ((hspec i w).mp hw).1 ((hspec j w').mp hw').1 hid
  · intro k hne h0
    obtain ⟨i, w, hw, hid⟩ := isRegistered_iff.mp h0
    exact .inl (isRegistered_iff.mpr ⟨i, w, (hspec i w).mpr ⟨hw, by rw [hid]; exact hne⟩, hid⟩)

theorem Inv.disarm {result : AddressWaitResult}
    (hp : s.prog id = .finish result) : Inv idle ((disarm s id).setProg id (.returned (.waited result))) := by
  have hnot : isRegistered s id ≠ true := h.not_registered (by rw [hp]; rfl)
  have hold :
    ∀ i k, ((AddressWait.disarm s id).setProg id (.returned (.waited result))).deadlines i = some k →
      s.deadlines i = some k := by
    intro i k hk
    simp only [State.setProg, AddressWait.disarm] at hk
    split at hk
    · cases hk
    · exact hk
  refine h.act hc rfl rfl (fun h0 => (nomatch hp.symm.trans h0)) (by rw [hp]; rfl) nofun
    (by rw [hp]; rfl) ?_ h.unique (fun _ _ h0 => .inl h0) nofun (fun i k hk => .inl (hold i k hk)) ?_
  · intro i w hw
    exact .inr ⟨fun hid => hnot (isRegistered_iff.mpr ⟨i, w, hw, hid⟩), hw⟩
  · intro i j k hi hj
    exact h.armedOnce i j k (hold i k hi) (hold j k hj)

/-- The sweep of a wake: whoever lost its entry is on the list. -/
theorem Inv.sweep {n : Nat} (hp : s.prog id = .collect key n) : Inv idle ((swept s id key n).setProg id
      (.waking ((collect s key n).2.map AddressWaiter.thread) (collect s key n).2.length)) := by
  have hnot : isRegistered s id ≠ true := h.not_registered (by rw [hp]; rfl)
  refine h.act hc rfl rfl (fun h0 => (nomatch hp.symm.trans h0)) (by rw [hp]; rfl) nofun
    (by rw [hp]; rfl) ?_ ?_ ?_ nofun (fun _ _ h0 => .inl h0) h.armedOnce
  · intro i w hw
    have hold := collect_subset hw
    exact .inr ⟨fun hid => hnot (isRegistered_iff.mpr ⟨i, w, hold, hid⟩), hold⟩
  · intro i j w w' hw hw' hid
    exact h.unique i j w w' (collect_subset hw) (collect_subset hw') hid
  · intro k _ h0
    obtain ⟨i, w, hw, hid⟩ := isRegistered_iff.mp h0
    cases hafter : (collect s key n).1 i with
    | some w' =>
      have hold := collect_subset hafter
      rw [hw] at hold
      cases hold
      exact .inl (isRegistered_iff.mpr ⟨i, w, hafter, hid⟩)
    | none =>
      exact .inr (List.mem_map.mpr ⟨w, mem_collect.mpr ⟨i, hw, hafter⟩, hid⟩)

theorem Inv.begin (huser : s.prog id = .user) (hidle : id ≠ idle.thread c) (hsleep : s'.sleep = s.sleep)
    (hprog : s'.prog = update s.prog id p) (hwaiters : s'.waiters = s.waiters)
    (hdeadlines : s'.deadlines = s.deadlines) (habandon : p ≠ .abandon)
    (hwaits : p.waits = false) : Inv idle s' := by
  refine h.setProg hc hsleep hprog hwaiters hdeadlines (fun _ => hidle) (by rw [huser]; rfl) habandon
    (by rw [huser]; rfl) (fun hreg => absurd hreg (h.not_registered (by rw [huser]; rfl)))
      (fun h0 => by rw [hwaits] at h0; cases h0)

end Own

variable [DecidableEq ι]

/-- **Rule for a step of the sleep machine** in which the thread goes on to another place: the tables stay. -/
theorem Inv.sleepStep (hs : Sleep.step idle s.sleep l = some sleep)
    (hwatched : Watched idle ({ s with sleep := sleep }.setProg id p))
    (hentry : isRegistered s id = true → p.waits = true) (habandon : p ≠ .abandon) :
    Inv idle ({ s with sleep := sleep }.setProg id p) := by
  have hself : ({ s with sleep := sleep }.setProg id p).prog id = p := update_self _ _ _
  have hother : ∀ k, k ≠ id → ({ s with sleep := sleep }.setProg id p).prog k = s.prog k :=
    fun k hk => update_of_ne hk _ _
  refine ⟨hwatched.core, ?_, h.unique, hwatched.due,
    fun i k hk => Sleep.step_alive h.core.sleep hs (h.armed i k hk), h.armedOnce, ?_⟩
  · intro slot w hw
    by_cases hid : w.thread = id
    · rw [hid, hself]
      exact hentry (isRegistered_iff.mpr ⟨slot, w, hw, hid⟩)
    · rw [hother _ hid]
      exact h.entry slot w hw
  · intro k
    by_cases hid : k = id
    · rw [hid, hself]
      exact habandon
    · rw [hother k hid]
      exact h.admitted k

/-- The rule for a step of the sleep machine in which nobody changes place. -/
theorem Inv.stay (hs : Sleep.step idle s.sleep l = some sleep)
    (hwatched : Watched idle { s with sleep := sleep }) : Inv idle { s with sleep := sleep } :=
  ⟨hwatched.core, h.entry, h.unique, hwatched.due,
    fun i k hk => Sleep.step_alive h.core.sleep hs (h.armed i k hk), h.armedOnce, h.admitted⟩

/-- Scheduling and wakeups from elsewhere. -/
theorem Inv.sched (hl : admissible s l = true)
    (hs : Sleep.step idle s.sleep l = some sleep) : Inv idle { s with sleep := sleep } := by
  have hquiet : ∀ k, ¬ Sleep.acts s.sleep k l := by
    intro k hact
    cases l <;> first | exact hact | cases hl
  refine h.stay hs (h.watched.sched hs hquiet ?_)
  intro c' k hl' hk
  rcases hl' with rfl | rfl
  · cases hl
  simp only [admissible, hk, Option.all_some] at hl
  simp [calls, places, hl]

include hc

theorem Inv.call (hp : s.prog id = .calling r) (hs : Sleep.step idle s.sleep (.call c) = some sleep) :
    Inv idle ({ s with sleep := sleep }.setProg id (.sleeping r)) :=
  h.sleepStep hs (h.watched.call hc hp rfl hs rfl rfl rfl fun _ h0 => h0) (fun _ => rfl)
    nofun

theorem Inv.leave (hp : s.prog id = .sleeping r)
    (hl : l = .yield c ∨ l = .preempt c ∧ s.sleep.pc id = .outside)
    (hs : Sleep.step idle s.sleep l = some sleep) :
    Inv idle ({ s with sleep := sleep }.setProg id (.check r)) :=
  h.sleepStep hs (h.watched.leave hc hp rfl hl hs rfl rfl fun _ h0 => h0) (fun _ => rfl) nofun

/-- The waker comes to the next thread of its list. -/
theorem Inv.wake {thread : ThreadId} {rest : List ThreadId}
    (hp : s.prog id = .waking (thread :: rest) n)
    (hs : Sleep.step idle s.sleep (.wake thread true) = some sleep) :
    Inv idle ({ s with sleep := sleep }.setProg id (.waking rest n)) := by
  have hnot : isRegistered s id ≠ true := h.not_registered (by rw [hp]; rfl)
  exact h.sleepStep hs
    (h.watched.wake hc hp rfl rfl hs (.inl rfl) (fun _ => List.mem_cons.mp) rfl rfl fun _ _ h0 => h0)
    (fun h0 => absurd h0 hnot) nofun

theorem Inv.advance (hp : s.prog id = .sleeping r) (hs : Sleep.step idle s.sleep (.advance c) = some sleep) :
    Inv idle { s with sleep := sleep } :=
  h.stay hs (h.watched.advance hc hp rfl rfl hs)

/-- **A critical section of the calls keeps the invariant.** -/
theorem inv_own (hs : OwnStep idle s c id s') : Inv idle s' := by
  cases hs with
  | place hn => exact h.next hc hn
  | enroll hp hclaim => exact h.enroll hc hp hclaim
  | arm hp hslot => exact h.arm hc hp hslot
  | abandon hp => exact absurd hp (h.admitted id)
  | stop hp _ => exact h.remove hc hp _
  | call hp hs => exact h.call hc hp hs
  | advance hp _ hs => exact h.advance hc hp hs
  | leave hp hl hs => exact h.leave hc hp hl hs
  | disarm hp => exact h.disarm hc hp
  | sweep hp => exact h.sweep hc hp
  | wake hp hs => exact h.wake hc hp hs

omit hc in
theorem inv_step {l : Label ι} (hs : step idle s l = some s') : Inv idle s' := by
  cases step_moves hs with
  | wait hc huser hidle | waitGuarded hc huser hidle | wake hc huser hidle =>
    exact h.begin hc huser hidle rfl rfl rfl rfl nofun rfl
  | own hc hown => exact inv_own h hc (own_cases hown)
  | sched hl hsleep => exact h.sched hl hsleep
  | remap | store | tick => exact ⟨h.core, h.entry, h.unique, h.due, h.armed, h.armedOnce, h.admitted⟩
  | @expire slot =>
    have hold : ∀ i k, update s.deadlines slot none i = some k → s.deadlines i = some k := by
      intro i k hk
      rcases of_update_eq hk with ⟨-, ⟨⟩⟩ | ⟨-, hk⟩
      exact hk
    exact ⟨h.core, h.entry, h.unique, h.due, fun i k hk => h.armed i k (hold i k hk),
      fun i j k hi hj => h.armedOnce i j k (hold i k hi) (hold j k hj), h.admitted⟩

end Preservation

theorem inv_start {idle : Sleep.Idle ι} (h : Start idle s) : Inv idle s := by
  have haway : ∀ id, places.away (s.prog id) = true := fun id => by rw [h.prog]; rfl
  refine ⟨Sleep.Core.start h.sleep haway, ?_, ?_, ?_, ?_, ?_, ?_⟩
  · intro slot w hw
    rw [h.waiters] at hw
    cases hw
  · intro i _ w _ hw
    rw [h.waiters] at hw
    cases hw
  · intro id h0
    rw [h.prog] at h0
    cases h0
  · intro i id h0
    rw [h.deadlines] at h0
    cases h0
  · intro i _ id h0
    rw [h.deadlines] at h0
    cases h0
  · intro id
    rw [h.prog]
    exact nofun

end Mnu.Syscall.AddressWait
