import Mnu.Syscall.AddressWaitInv

/-!
# `Mnu.Syscall.AddressWaitWake` — what a wake of an address does

Three results about whole runs of waits and wakes.

* The books: a wake call returns the number of registrations it removed, and no registration is removed twice
  (`Ledger`).
* The keys: an entry of the table is for the page table and the address of the wait that made it (`Keyed`).
* The wakeup: a waiter that lost its entry is still on the list of a running waker, or it does not stay
  asleep; and every step of its own brings its call closer to its end, which is `Awoken` (`NoLostWake`).
-/

namespace Mnu.Syscall.AddressWait

open Mnu.Lib Mnu.Task Function

variable {ι κ : Type} {l : Label ι} {slot : WaitSlot} {n : Nat}

/-! ## The books -/

/-- The number of entries that a wake call has taken so far. -/
def Prog.counts : Prog → Option Nat
  | .wakeResolve _ _ => some 0
  | .collect _ _ => some 0
  | .waking _ n => some n
  | .returned (.woke n) => some n
  | _ => none

/-- What the wake call `call` has removed. -/
def removedBy (s : State ι κ) (call : Nat) : Nat := s.removals.countP fun e => e.1 == call

/-- The books: each entry is taken out by one call, and counted there. -/
structure Ledger (s : State ι κ) : Prop where
  issued : ∀ id n, (s.prog id).counts = some n → s.wakeCall id < s.wakeCalls
  distinct : ∀ id k n m, (s.prog id).counts = some n → (s.prog k).counts = some m →
    s.wakeCall id = s.wakeCall k → id = k
  old : ∀ e ∈ s.removals, e.1 < s.wakeCalls ∧ e.2 < s.registrations
  once : (s.removals.map Prod.snd).Nodup
  entry : ∀ slot w, s.waiters slot = some w →
    s.registration w.thread < s.registrations ∧ s.registration w.thread ∉ s.removals.map Prod.snd
  entries : ∀ i j w w', s.waiters i = some w → s.waiters j = some w' →
    s.registration w.thread = s.registration w'.thread → w.thread = w'.thread
  counted : ∀ id n, (s.prog id).counts = some n → removedBy s (s.wakeCall id) = n

section Books

variable {s s' : State ι κ} {id : ThreadId} {idle : Sleep.Idle ι} {key : AddressKey} {p : Prog}

theorem claimSlot_error {r : Request} {g : Option (AddressKey × Nat)} {answer : Answer}
    (h : claimSlot s id r key g = .error answer) : (Prog.returned answer).counts = none := by
  have hdeadline : ∀ answer, claimSlot.freeSlot s r = .error answer →
    (Prog.returned answer).counts = none := by
    intro answer h0
    unfold claimSlot.freeSlot at h0
    split at h0
    · cases h0
      rfl
    split at h0 <;> cases h0
    rfl
  unfold claimSlot at h
  split at h
  · cases h
    rfl
  split at h
  · cases h
    rfl
  split at h
  · cases h
    rfl
  split at h
  · cases h
    rfl
  · split at h
    · cases h
      rfl
    · exact hdeadline answer h
  · exact hdeadline answer h

/-- Going on does not change the count of a wake call. -/
theorem Next.counts (h : Next s id p) : p.counts = none ∨ p.counts = (s.prog id).counts := by
  cases h with
  | refused hp hclaim => exact .inl (claimSlot_error hclaim)
  | wakeNone hp | wakeKeyed hp _ | done hp => simp [hp, Prog.counts]
  | _ => exact .inl rfl

/-- The books of a step in which entries may go, and a thread goes on with the same count. -/
theorem Ledger.step (h : Ledger s) (id : ThreadId) (hprog : s'.prog = update s.prog id p)
    (hcounts : p.counts = none ∨ p.counts = (s.prog id).counts)
    (hwaiters : ∀ slot w, s'.waiters slot = some w → s.waiters slot = some w)
    (hregistration : s'.registration = s.registration) (hregistrations : s'.registrations = s.registrations)
    (hcall : s'.wakeCall = s.wakeCall) (hcalls : s'.wakeCalls = s.wakeCalls)
    (hremovals : s'.removals = s.removals) : Ledger s' := by
  have hback : ∀ k n, (s'.prog k).counts = some n → (s.prog k).counts = some n := by
    intro k n hk
    rw [hprog, update_apply] at hk
    split at hk
    · rename_i heq
      subst heq
      rcases hcounts with h0 | h0
      · rw [h0] at hk
        cases hk
      · rw [← h0]
        exact hk
    · exact hk
  refine ⟨?_, ?_, ?_, ?_, ?_, ?_, ?_⟩
  · intro k n hk
    rw [hcall, hcalls]
    exact h.issued k n (hback k n hk)
  · intro k k' n m hk hk'
    rw [hcall]
    exact h.distinct k k' n m (hback k n hk) (hback k' m hk')
  · rw [hremovals, hcalls, hregistrations]
    exact h.old
  · rw [hremovals]
    exact h.once
  · intro slot w hw
    rw [hregistration, hregistrations, hremovals]
    exact h.entry slot w (hwaiters slot w hw)
  · intro i j w w' hw hw'
    rw [hregistration]
    exact h.entries i j w w' (hwaiters i w hw) (hwaiters j w' hw')
  · intro k n hk
    rw [removedBy, hremovals, hcall]
    exact h.counted k n (hback k n hk)

/-- A new registration has a new number. -/
theorem Ledger.enroll (h : Ledger s) {g : Option AddressKey}
    (hreg : isRegistered s id = false) (hcounts : p.counts = none) :
    Ledger ((enroll s id key g slot).setProg id p) := by
  have hnot : ∀ i w, s.waiters i = some w → w.thread ≠ id := by
    intro i w hw hid
    rw [isRegistered_iff.mpr ⟨i, w, hw, hid⟩] at hreg
    cases hreg
  have hback : ∀ k n, (update s.prog id p k).counts = some n → (s.prog k).counts = some n := by
    intro k n hk
    rw [update_apply] at hk
    split at hk
    · rw [hcounts] at hk
      cases hk
    · exact hk
  -- an entry is the new one, or an old one of another thread
  have hcases : ∀ i w, update s.waiters slot (some ⟨id, key, g⟩) i = some w →
      w.thread = id ∧ update s.registration id s.registrations w.thread = s.registrations ∨
      s.waiters i = some w ∧ w.thread ≠ id ∧
        update s.registration id s.registrations w.thread = s.registration w.thread := by
    intro i w hw
    rw [update_apply] at hw
    split at hw
    · cases hw
      exact .inl ⟨rfl, update_self _ _ _⟩
    · exact .inr ⟨hw, hnot i w hw, update_of_ne (hnot i w hw) _ _⟩
  refine ⟨fun k n hk => h.issued k n (hback k n hk), fun k k' n m hk hk' => h.distinct k k' n m (hback k n hk)
    (hback k' m hk'), ?_, h.once, ?_, ?_, fun k n hk => h.counted k n (hback k n hk)⟩
  · intro e he
    exact ⟨(h.old e he).1, (h.old e he).2.trans (Nat.lt_succ_self _)⟩
  · intro i w hw
    show update s.registration id s.registrations w.thread < s.registrations + 1 ∧
      update s.registration id s.registrations w.thread ∉ s.removals.map Prod.snd
    rcases hcases i w hw with ⟨_, heq⟩ | ⟨hold, _, heq⟩
    · rw [heq]
      refine ⟨Nat.lt_succ_self _, fun hmem => ?_⟩
      obtain ⟨e, he, heq'⟩ := List.mem_map.mp hmem
      exact absurd heq' (Nat.ne_of_lt (h.old e he).2)
    · rw [heq]
      exact ⟨(h.entry i w hold).1.trans (Nat.lt_succ_self _), (h.entry i w hold).2⟩
  · intro i j w w' hw hw' heq
    change update s.registration id s.registrations w.thread =
      update s.registration id s.registrations w'.thread at heq
    rcases hcases i w hw with ⟨hid, h1⟩ | ⟨hold, _, h1⟩ <;> rcases hcases j w' hw' with
      ⟨hid', h2⟩ | ⟨hold', _, h2⟩
    · rw [hid, hid']
    · rw [h1, h2] at heq
      exact absurd heq.symm (Nat.ne_of_lt (h.entry j w' hold').1)
    · rw [h1, h2] at heq
      exact absurd heq (Nat.ne_of_lt (h.entry i w hold).1)
    · rw [h1, h2] at heq
      exact h.entries i j w w' hold hold' heq

/-- The registrations that one sweep removes are pairwise different. -/
theorem Ledger.sweep_nodup (h : Ledger s) (hu : Unique s.waiters) (key : AddressKey) (n : Nat) :
    ((collect s key n).2.map fun w => s.registration w.thread).Nodup := by
  rw [collect, sweep_list _ _ _ nodup_waitSlots, List.map_filterMap]
  refine List.Nodup.filterMap ?_ nodup_waitSlots
  intro i j number hi hj
  simp only [Option.mem_def, Option.map_eq_some_iff] at hi hj
  obtain ⟨w, hw, rfl⟩ := hi
  obtain ⟨w', hw', heq⟩ := hj
  have hwi : s.waiters i = some w := by
    split at hw
    · exact hw
    · cases hw
  have hwj : s.waiters j = some w' := by
    split at hw'
    · exact hw'
    · cases hw'
  exact hu i j w w' hwi hwj (h.entries i j w w' hwi hwj heq.symm)

/-- **A sweep is booked**: every entry it takes is entered once, under the number of its wake call. -/
theorem Ledger.sweep (h : Ledger s) (hu : Unique s.waiters)
    (hp : s.prog id = .collect key n) {rest : List ThreadId} :
    Ledger ((swept s id key n).setProg id (.waking rest (collect s key n).2.length)) := by
  have hid : (s.prog id).counts = some 0 := by rw [hp]; rfl
  have hback : ∀ k m, k ≠ id →
    (update s.prog id (.waking rest (collect s key n).2.length) k).counts = some m →
      (s.prog k).counts = some m := by
    intro k m hk hm
    rwa [update_of_ne hk] at hm
  have hcall : ∀ k m, (update s.prog id (.waking rest (collect s key n).2.length) k).counts = some m →
      ∃ m', (s.prog k).counts = some m' := by
    intro k m hm
    by_cases hk : k = id
    · rw [hk]
      exact ⟨0, hid⟩
    · exact ⟨m, hback k m hk hm⟩
  have hsplit :
    (s.removals ++ (collect s key n).2.map fun w => (s.wakeCall id, s.registration w.thread)).map Prod.snd =
      s.removals.map Prod.snd ++ (collect s key n).2.map fun w => s.registration w.thread := by
    rw [List.map_append, List.map_map]
    rfl
  refine ⟨?_, ?_, ?_, ?_, ?_, ?_, ?_⟩
  · intro k m hm
    obtain ⟨m', hm'⟩ := hcall k m hm
    exact h.issued k m' hm'
  · intro k k' m m' hm hm'
    obtain ⟨x, hx⟩ := hcall k m hm
    obtain ⟨y, hy⟩ := hcall k' m' hm'
    exact h.distinct k k' x y hx hy
  · intro e he
    rcases List.mem_append.mp he with hold | hnew
    · exact h.old e hold
    · obtain ⟨w, hw, rfl⟩ := List.mem_map.mp hnew
      obtain ⟨i, hi, _⟩ := mem_collect.mp hw
      exact ⟨h.issued id 0 hid, (h.entry i w hi).1⟩
  · show ((s.removals ++ _).map Prod.snd).Nodup
    rw [hsplit, List.nodup_append]
    refine ⟨h.once, h.sweep_nodup hu key n, ?_⟩
    intro number hold number' hnew heq
    subst heq
    obtain ⟨w, hw, rfl⟩ := List.mem_map.mp hnew
    obtain ⟨i, hi, _⟩ := mem_collect.mp hw
    exact (h.entry i w hi).2 hold
  · intro i w hw
    have hi := collect_subset hw
    refine ⟨(h.entry i w hi).1, ?_⟩
    show s.registration w.thread ∉ (s.removals ++ _).map Prod.snd
    rw [hsplit, List.mem_append, not_or]
    refine ⟨(h.entry i w hi).2, fun hnew => ?_⟩
    -- an entry that stays does not share its number with one that goes
    obtain ⟨w', hw', heq⟩ := List.mem_map.mp hnew
    obtain ⟨j, hj, hgone⟩ := mem_collect.mp hw'
    have hij := hu i j w w' hi hj (h.entries i j w w' hi hj heq.symm)
    subst hij
    exact nomatch hw.symm.trans hgone
  · intro i j w w' hw hw'
    exact h.entries i j w w' (collect_subset hw) (collect_subset hw')
  · intro k m hm
    show (s.removals ++ (collect s key n).2.map fun w => (s.wakeCall id, s.registration w.thread)).countP
      (fun e => e.1 == s.wakeCall k) = m
    rw [List.countP_append, List.countP_map]
    by_cases hk : k = id
    · subst hk
      have hm' : (collect s key n).2.length = m := by
        simpa [State.setProg, Prog.counts] using hm
      have hzero := h.counted k 0 hid
      have hall : (collect s key n).2.countP ((fun e : Nat × Nat => e.1 == s.wakeCall k) ∘ fun w =>
          (s.wakeCall k, s.registration w.thread)) = (collect s key n).2.length := by
        rw [List.countP_eq_length]
        intro w _
        simp
      rw [removedBy] at hzero
      rw [hzero, hall, Nat.zero_add]
      exact hm'
    · have hold := hback k m hk hm
      have hne : s.wakeCall id ≠ s.wakeCall k := fun heq => hk (h.distinct id k 0 m hid hold heq).symm
      have hnone : (collect s key n).2.countP ((fun e : Nat × Nat => e.1 == s.wakeCall k) ∘ fun w =>
          (s.wakeCall id, s.registration w.thread)) = 0 := by
        rw [List.countP_eq_zero]
        intro w _
        simp [hne]
      rw [hnone]
      exact h.counted k m hold

/-- A new wake call gets a new number. -/
theorem Ledger.call (h : Ledger s) (hp : p.counts = some 0) : Ledger ({ s with
      wakeCall := update s.wakeCall id s.wakeCalls
      wakeCalls := s.wakeCalls + 1 }.setProg id p) := by
  -- a thread in a wake call is this one, or another with an older number
  have hcases : ∀ k m, (update s.prog id p k).counts = some m →
      k = id ∧ m = 0 ∧ update s.wakeCall id s.wakeCalls k = s.wakeCalls ∨
      k ≠ id ∧ (s.prog k).counts = some m ∧ update s.wakeCall id s.wakeCalls k = s.wakeCall k := by
    intro k m hm
    by_cases hk : k = id
    · subst hk
      rw [update_self, hp] at hm
      exact .inl ⟨rfl, (Option.some.inj hm).symm, update_self _ _ _⟩
    · rw [update_of_ne hk] at hm
      exact .inr ⟨hk, hm, update_of_ne hk _ _⟩
  refine ⟨?_, ?_, ?_, h.once, h.entry, h.entries, ?_⟩
  · intro k m hm
    show update s.wakeCall id s.wakeCalls k < s.wakeCalls + 1
    rcases hcases k m hm with ⟨_, _, heq⟩ | ⟨_, hold, heq⟩
    · rw [heq]
      exact Nat.lt_succ_self _
    · rw [heq]
      exact (h.issued k m hold).trans (Nat.lt_succ_self _)
  · intro k k' m m' hm hm' heq
    change update s.wakeCall id s.wakeCalls k = update s.wakeCall id s.wakeCalls k' at heq
    rcases hcases k m hm with ⟨h1, _, h2⟩ | ⟨_, hold, h2⟩ <;>
      rcases hcases k' m' hm' with ⟨h3, _, h4⟩ | ⟨_, hold', h4⟩
    · rw [h1, h3]
    · rw [h2, h4] at heq
      exact absurd heq.symm (Nat.ne_of_lt (h.issued k' m' hold'))
    · rw [h2, h4] at heq
      exact absurd heq (Nat.ne_of_lt (h.issued k m hold))
    · rw [h2, h4] at heq
      exact h.distinct k k' m m' hold hold' heq
  · intro e he
    exact ⟨(h.old e he).1.trans (Nat.lt_succ_self _), (h.old e he).2⟩
  · intro k m hm
    show removedBy s (update s.wakeCall id s.wakeCalls k) = m
    rcases hcases k m hm with ⟨_, rfl, heq⟩ | ⟨_, hold, heq⟩
    · rw [heq, removedBy, List.countP_eq_zero]
      intro e he hcall
      exact absurd (beq_iff_eq.mp hcall) (Nat.ne_of_lt (h.old e he).1)
    · rw [heq]
      exact h.counted k m hold

theorem ledger_start [DecidableEq ι] (h : Start idle s) : Ledger s := by
  have hcounts : ∀ id n, (s.prog id).counts ≠ some n := by
    intro id n h0
    rw [h.prog] at h0
    cases h0
  refine ⟨fun id n h0 => absurd h0 (hcounts id n),
    fun id _ n _ h0 => absurd h0 (hcounts id n), ?_, ?_, ?_, ?_, fun id n h0 => absurd h0 (hcounts id n)⟩
  · rw [h.removals]
    intro e he
    cases he
  · rw [h.removals]
    exact List.nodup_nil
  · intro slot w hw
    rw [h.waiters] at hw
    cases hw
  · intro i _ w _ hw
    rw [h.waiters] at hw
    cases hw

theorem ledger_own [DecidableEq ι] {c : ι} (h : Ledger s) (hinv : Inv idle s)
    (hs : OwnStep idle s c id s') : Ledger s' := by
  cases hs with
  | place hn => exact h.step id rfl hn.counts (fun _ _ hw => hw) rfl rfl rfl rfl rfl
  | enroll hp hclaim =>
    exact h.enroll (claimSlot_ok hclaim).1 (by split <;> rfl)
  | arm hp _ | call hp _ | leave hp _ _ | disarm hp =>
    exact h.step id rfl (.inl rfl) (fun _ _ hw => hw) rfl rfl rfl rfl rfl
  | abandon hp => exact absurd hp (hinv.admitted id)
  | stop hp _ =>
    obtain ⟨waiters, heq, hspec⟩ := removeWaiter_spec hinv.unique id
    rw [heq]
    exact h.step id rfl (.inl rfl) (fun i w hw => ((hspec i w).mp hw).1) rfl rfl rfl rfl rfl
  | advance hp _ _ =>
    exact h.step id (update_eq_self id s.prog).symm (.inr rfl) (fun _ _ hw => hw) rfl rfl rfl rfl rfl
  | sweep hp => exact h.sweep hinv.unique hp
  | wake hp _ => exact h.step id rfl (.inr (by rw [hp]; rfl)) (fun _ _ hw => hw) rfl rfl rfl rfl rfl

theorem ledger_step [DecidableEq ι] (h : Ledger s) (hinv : Inv idle s)
    (hs : step idle s l = some s') : Ledger s' := by
  have hsame : ∀ t : State ι κ, t.prog = s.prog → t.waiters = s.waiters → t.registration = s.registration →
      t.registrations = s.registrations → t.wakeCall = s.wakeCall → t.wakeCalls = s.wakeCalls →
      t.removals = s.removals → Ledger t := by
    intro t h1 h2 h3 h4 h5 h6 h7
    refine h.step 0 (p := s.prog 0) ?_ (.inr rfl) (fun _ _ hw => h2 ▸ hw) h3 h4 h5 h6 h7
    rw [h1, update_eq_self]
  cases step_moves hs with
  | wait | waitGuarded => exact h.step _ rfl (.inl rfl) (fun _ _ hw => hw) rfl rfl rfl rfl rfl
  | wake => exact h.call rfl
  | own _ hown => exact ledger_own h hinv (own_cases hown)
  | sched | remap | store | tick | expire => exact hsame _ rfl rfl rfl rfl rfl rfl rfl

end Books

/-! ## The keys -/

/-- The request of a thread that waits. -/
def Prog.request : Prog → Option Request
  | .arm r => some r
  | .check r => some r
  | .calling r => some r
  | .sleeping r => some r
  | _ => none

/-- The key belongs to the page table of the thread and to the address it asked for. -/
def State.OfRequest (s : State ι κ) (id : ThreadId) (r : Request) (key : AddressKey) : Prop :=
  key.pageTable = s.tableOf id ∧ key.virtualAddress = r.address

/-- A key is that of its thread's request, before the registration and in the table. -/
structure Keyed (s : State ι κ) : Prop where
  resolved : ∀ id r key g, s.prog id = .register r key g → s.OfRequest id r key
  entry : ∀ slot w, s.waiters slot = some w →
    ∃ r, (s.prog w.thread).request = some r ∧ s.OfRequest w.thread r w.key

section Keys

variable {s s' : State ι κ} {id : ThreadId} {key : AddressKey} {p : Prog}

/-- A resolved key is made from the page table and the address that were asked for, and from the translation
    of the moment. -/
theorem resolveKey_ok {table address size : Nat} {prepared : Except Error Unit}
    (h : resolveKey s table address size prepared = .ok key) :
    key.pageTable = table ∧ key.virtualAddress = address ∧ s.translate table address =
      some key.physicalAddress := by
  unfold resolveKey at h
  split at h
  · cases h
  split at h
  · cases h
  split at h
  · cases h
  split at h
  · cases h
  rename_i physical htranslate
  cases h
  exact ⟨rfl, rfl, htranslate⟩

/-- Going on, a thread with an entry keeps its request. -/
theorem Next.request (h : Next s id p) (hreg : isRegistered s id = true) (hwaits : (s.prog id).waits = true)
    (habandon : p ≠ .abandon) : p.request = (s.prog id).request := by
  cases h with
  | unarmed => exact absurd rfl habandon
  | gone hp hgone =>
    rw [hreg] at hgone
    cases hgone
  | again hp _ =>
    rw [hp]
    rfl
  | failGuard hp | guarded hp | failKey hp | keyed hp _ | refused hp _ | failWake hp
  | wakeNone hp | wakeKeyed hp _
  | done hp | back hp => rw [hp] at hwaits; cases hwaits

/-- The rule for a step in which a thread goes on and keeps its request if it keeps its entry. -/
theorem Keyed.step (h : Keyed s) (hprog : s'.prog = update s.prog id p) (htable : s'.tableOf = s.tableOf)
    (hkey : ∀ r key g, p = .register r key g → s.OfRequest id r key)
    (hentry : ∀ slot w, s'.waiters slot = some w →
      s.waiters slot = some w ∧ (w.thread = id → p.request = (s.prog id).request)) : Keyed s' := by
  refine ⟨fun k r key g hk => ?_, fun slot w hw => ?_⟩
  · rw [State.OfRequest, htable]
    rw [hprog] at hk
    rcases of_update_eq hk with ⟨hid, hk⟩ | ⟨-, hk⟩
    · rw [hid]
      exact hkey r key g hk
    · exact h.resolved k r key g hk
  · obtain ⟨hold, hkeep⟩ := hentry slot w hw
    obtain ⟨r, hr, hof⟩ := h.entry slot w hold
    simp only [State.OfRequest, htable, hprog]
    refine ⟨r, ?_, hof⟩
    by_cases hid : w.thread = id
    · rw [hid, update_self, hkeep hid, ← hid]
      exact hr
    · rw [update_of_ne hid]
      exact hr

/-- The registration enters the key that was resolved. -/
theorem Keyed.enroll (h : Keyed s) {r : Request} {g : Option (AddressKey × Nat)}
    (hp : s.prog id = .register r key g) (hreg : isRegistered s id = false) (hrequest : p.request = some r) :
    Keyed ((enroll s id key (g.map Prod.fst) slot).setProg id p) := by
  refine ⟨fun k r' key' g' hk => ?_, fun i w hw => ?_⟩
  · rcases of_update_eq hk with ⟨-, hk⟩ | ⟨-, hk⟩
    · rw [hk] at hrequest
      cases hrequest
    · exact h.resolved k r' key' g' hk
  · rcases of_update_eq hw with ⟨-, ⟨⟩⟩ | ⟨-, hold⟩
    · refine ⟨r, ?_, h.resolved id r key g hp⟩
      simpa [State.setProg] using hrequest
    · have hne : w.thread ≠ id := by
        intro hid
        rw [isRegistered_iff.mpr ⟨i, w, hold, hid⟩] at hreg
        cases hreg
      obtain ⟨r', hr', hof⟩ := h.entry i w hold
      refine ⟨r', ?_, hof⟩
      simpa [State.setProg, AddressWait.enroll, hne] using hr'

theorem keyed_own [DecidableEq ι] {idle : Sleep.Idle ι} {c : ι} (h : Keyed s) (hinv : Inv idle s)
    (hinv' : Inv idle s') (hs : OwnStep idle s c id s') : Keyed s' := by
  have hwaits : ∀ slot w, s.waiters slot = some w → w.thread = id → (s.prog id).waits = true := by
    rintro slot w hw rfl
    exact hinv.entry slot w hw
  cases hs with
  | @place p hn =>
    refine h.step rfl rfl ?_ fun slot w hw => ⟨hw, fun hid => ?_⟩
    · rintro r key g rfl
      cases hn with
      | keyed hp hresolve =>
        obtain ⟨htable, haddress, _⟩ := resolveKey_ok hresolve
        exact ⟨htable, haddress⟩
    · refine hn.request (isRegistered_iff.mpr ⟨slot, w, hw, hid⟩) (hwaits slot w hw hid) ?_
      simpa [State.setProg] using hinv'.admitted id
  | enroll hp hclaim => exact h.enroll hp (claimSlot_ok hclaim).1 (by split <;> rfl)
  | arm hp _ | call hp _ | leave hp _ _ =>
    exact h.step rfl rfl (by simp) fun slot w hw => ⟨hw, fun _ => by rw [hp]; rfl⟩
  | abandon hp => exact absurd hp (hinv.admitted id)
  | stop hp _ =>
    obtain ⟨waiters, heq, hspec⟩ := removeWaiter_spec hinv.unique id
    rw [heq]
    exact h.step rfl rfl (by simp) fun slot w hw =>
      ⟨((hspec slot w).mp hw).1, fun hid => absurd hid ((hspec slot w).mp hw).2⟩
  | advance hp _ _ => exact ⟨h.resolved, h.entry⟩
  | disarm hp | wake hp _ =>
    refine h.step rfl rfl (by simp) fun slot w hw => ⟨hw, fun hid => ?_⟩
    have h0 := hwaits slot w hw hid
    rw [hp] at h0
    cases h0
  | sweep hp =>
    refine h.step rfl rfl (by simp) fun slot w hw => ⟨collect_subset hw, fun hid => ?_⟩
    have h0 := hwaits slot w (collect_subset hw) hid
    rw [hp] at h0
    cases h0

/-- **Every step keeps the keys** those of the requests. -/
theorem keyed_step [DecidableEq ι] {idle : Sleep.Idle ι} (h : Keyed s) (hinv : Inv idle s)
    (hinv' : Inv idle s') (hs : step idle s l = some s') : Keyed s' := by
  have hbegin : ∀ {k slot w}, s.prog k = .user → s.waiters slot = some w → w.thread ≠ k := by
    rintro k slot w huser hw rfl
    have hwaits := hinv.entry slot w hw
    rw [huser] at hwaits
    cases hwaits
  cases step_moves hs with
  | wait _ huser | waitGuarded _ huser | wake _ huser =>
    exact h.step rfl rfl (by simp) fun slot w hw => ⟨hw, fun hid => absurd hid (hbegin huser hw)⟩
  | own _ hown => exact keyed_own h hinv hinv' (own_cases hown)
  | sched | remap | store | tick | expire => exact ⟨h.resolved, h.entry⟩

theorem keyed_start [DecidableEq ι] {idle : Sleep.Idle ι} (h : Start idle s) : Keyed s := by
  refine ⟨fun id r key g hp => ?_, fun slot w hw => ?_⟩
  · rw [h.prog] at hp
    cases hp
  · rw [h.waiters] at hw
    cases hw

end Keys

/-! ## The wakeup -/

/-- How many critical sections a wait whose entry is gone has before it at most. -/
def remaining (s : State ι κ) (id : ThreadId) : Nat :=
  match s.prog id with
  | .arm _ => 2
  | .check _ => 1
  | .calling _ => 7
  | .sleeping _ => 2 + (s.sleep.pc id).rank
  | _ => 0

/-- What a step does to a wait whose entry is gone: nothing, or it brings it closer to its end, or it ends it.
    -/
inductive Closer (s s' : State ι κ) (id : ThreadId) : Prop where
  | same : s'.prog id = s.prog id → s'.sleep.pc id = s.sleep.pc id →
      isRegistered s' id = false → Closer s s' id
  | closer : (s'.prog id).waits = true → isRegistered s' id = false → remaining s' id < remaining s id →
      Closer s s' id
  | awoken : s'.prog id = .finish .awoken → Closer s s' id

section Progress

variable [DecidableEq ι] {idle : Sleep.Idle ι} {s s' : State ι κ} {c : ι} {id k : ThreadId}

omit [DecidableEq ι] in
theorem not_registered_of_subset (h : isRegistered s id = false)
    (hsub : ∀ slot w, s'.waiters slot = some w → w.thread = id → s.waiters slot = some w) :
    isRegistered s' id = false := by
  by_contra h0
  obtain ⟨slot, w, hw, hid⟩ := isRegistered_iff.mp (by simpa using h0)
  rw [isRegistered_iff.mpr ⟨slot, w, hsub slot w hw hid, hid⟩] at h
  cases h

/-- A step of another thread. -/
theorem closer_other (h : Inv idle s) (hc : s.sleep.cpu c = some k)
    (hs : OwnStep idle s c k s') (hne : id ≠ k) (hreg : isRegistered s id = false) : Closer s s' id := by
  have hprog : ∀ p, update s.prog k p id = s.prog id := fun p => update_of_ne hne _ _
  have hpc : ∀ l sleep, Sleep.step idle s.sleep l = some sleep → ¬ Sleep.acts s.sleep id l →
      sleep.pc id = s.sleep.pc id := fun l sleep hs hnot => ((Sleep.step_frame h.core.sleep.wf hs).1 _ hnot).1
  have hnot : s.sleep.cpu c ≠ some id := fun h0 => hne (Option.some.inj (h0.symm.trans hc))
  cases hs with
  | place hn | arm hp _ | disarm hp => exact .same (hprog _) rfl hreg
  | enroll hp hclaim =>
    refine .same (hprog _) rfl (not_registered_of_subset hreg ?_)
    intro slot w hw hid
    simp only [State.setProg, enroll, update_apply] at hw
    split at hw
    · cases hw
      exact absurd hid.symm hne
    · exact hw
  | abandon hp => exact absurd hp (h.admitted k)
  | stop hp _ =>
    obtain ⟨waiters, heq, hspec⟩ := removeWaiter_spec h.unique k
    rw [heq]
    exact .same (hprog _) rfl (not_registered_of_subset hreg fun slot w hw _ => ((hspec slot w).mp hw).1)
  | call hp hs => exact .same (hprog _) (hpc _ _ hs hnot) hreg
  | advance hp _ hs => exact .same rfl (hpc _ _ hs hnot) hreg
  | leave hp hl hs =>
    refine .same (hprog _) (hpc _ _ hs ?_) hreg
    rcases hl with rfl | ⟨rfl, _⟩
    · exact hnot
    · exact fun h0 => h0
  | sweep hp => exact .same (hprog _) rfl (not_registered_of_subset hreg fun _ _ hw _ => collect_subset hw)
  | wake hp hs => exact .same (hprog _) (hpc _ _ hs fun h0 => h0) hreg

/-- A step of the thread itself. -/
theorem closer_self (h : Inv idle s) (hc : s.sleep.cpu c = some id) (hs : OwnStep idle s c id s')
    (hwaits : (s.prog id).waits = true) (hreg : isRegistered s id = false) : Closer s s' id := by
  cases hs with
  | place hn =>
    cases hn with
    | unarmed hp hnone =>
      have hsome := sleepEntrySlot_isSome h.armed h.armedOnce (Sleep.OnCpu.alive h.core.sleep ⟨c, hc⟩)
      rw [hnone] at hsome
      cases hsome
    | gone hp _ => exact .awoken (update_self _ _ _)
    | again hp hreg' =>
      rw [hreg'] at hreg
      cases hreg
    | failGuard hp | guarded hp | failKey hp | keyed hp _ | refused hp _ | failWake hp | wakeNone hp
    | wakeKeyed hp _ | done hp | back hp => rw [hp] at hwaits; cases hwaits
  | enroll hp _ | disarm hp | sweep hp | wake hp _ => rw [hp] at hwaits; cases hwaits
  | arm hp _ =>
    refine .closer ?_ hreg ?_
    · simp [State.setProg, Prog.waits]
    · simp [remaining, State.setProg, hp]
  | abandon hp => exact absurd hp (h.admitted id)
  | stop hp hawoken =>
    rw [hawoken hreg]
    exact .awoken (update_self _ _ _)
  | call hp hs =>
    refine .closer (by simp [State.setProg, Prog.waits]) hreg ?_
    simp only [Sleep.step, hc] at hs
    split at hs
    · cases hs
    cases hs
    simp [remaining, State.setProg, Sleep.State.setPc, hp, Sleep.Pc.rank]
  | advance hp _ hs =>
    obtain ⟨k, hk, hadv⟩ := Option.bind_eq_some_iff.mp hs
    rw [hc] at hk
    cases hk
    obtain ⟨_, _, _, rfl, _, _, hrank⟩ := Sleep.advance_cases h.core.sleep.wf hadv
    refine .closer hwaits hreg ?_
    simp only [remaining, hp, Sleep.State.setPc, update_self]
    omega
  | leave hp hl hs =>
    refine .closer (by simp [State.setProg, Prog.waits]) hreg ?_
    simp only [remaining, State.setProg, update_self, hp]
    omega

/-- **Every step leaves a wait whose entry is gone where it is, or brings it closer to returning `Awoken`.**
    -/
theorem closer_step (h : Inv idle s) (hwaits : (s.prog id).waits = true) (hreg : isRegistered s id = false)
    (hs : step idle s l = some s') : Closer s s' id := by
  have hbegin : ∀ k p, s.prog k = .user → update s.prog k p id = s.prog id := by
    intro k p huser
    refine update_of_ne ?_ _ _
    rintro rfl
    rw [huser] at hwaits
    cases hwaits
  cases step_moves hs with
  | wait _ huser | waitGuarded _ huser | wake _ huser => exact .same (hbegin _ _ huser) rfl hreg
  | @own c hint k s' hc hown =>
    by_cases hid : id = k
    · subst hid
      exact closer_self h hc (own_cases hown) hwaits hreg
    · exact closer_other h hc (own_cases hown) hid hreg
  | @sched l sleep hl hsleep =>
    refine .same rfl ((Sleep.step_frame h.core.sleep.wf hsleep).1 _ ?_).1 hreg
    intro hact
    cases l <;> first | exact hact | cases hl
  | remap | store | tick | expire => exact .same rfl rfl hreg

/-- A wait on a CPU can always take its next step. -/
theorem own_enabled (h : Inv idle s) (hc : s.sleep.cpu c = some id) (hwaits : (s.prog id).waits = true)
    (hint : Hint) : ∃ s', step idle s (.own c hint) = some s' := by
  have hnotIdle : id ≠ idle.thread c := by
    refine h.core.not_idle (away_of_ne_user fun huser => ?_) c
    rw [huser] at hwaits
    cases hwaits
  simp only [step, hc, Option.bind_some]
  unfold own
  cases hp : s.prog id with
  | arm r =>
    dsimp only
    split <;> exact ⟨_, rfl⟩
  | check r =>
    dsimp only
    split
    · exact ⟨_, rfl⟩
    · split
      · exact ⟨_, rfl⟩
      · split <;> exact ⟨_, rfl⟩
  | calling r =>
    have hout := h.core.outside id (by rw [hp]; rfl)
    simp [sleepStep, Sleep.step, hc, hnotIdle, hout]
  | sleeping r =>
    dsimp only
    cases hpc : s.sleep.pc id with
    | outside => exact ⟨_, rfl⟩
    | yielding => simp [sleepStep, Sleep.step, hc, hpc]
    | first | fallAsleep | second | makeReady => simp [sleepStep, Sleep.step, hc, Sleep.advance, hpc]
  | user | resolveGuard r a v | resolve r g | register r key g | abandon | finish result | wakeResolve a n
  | collect key n | waking rest n | returned answer => rw [hp] at hwaits; cases hwaits

end Progress

/-- What holds in every state of every run of waits and wakes. -/
structure NoLostWake [DecidableEq ι] (idle : Sleep.Idle ι) (s : State ι κ) : Prop where
  /-- An entry is for the address, in its own page table, that its thread waits on. -/
  keyed : ∀ slot w, s.waiters slot = some w →
    ∃ r, (s.prog w.thread).request = some r ∧ s.OfRequest w.thread r w.key
  /-- A wake sweeps the table for the address it was called with. -/
  aimed : ∀ c id address count hint s' key n, s.sleep.cpu c = some id →
    s.prog id = .wakeResolve address count →
    step idle s (.own c hint) = some s' → s'.prog id = .collect key n →
    key.pageTable = s.tableOf id ∧ key.virtualAddress = address ∧ n = count
  /-- A wake that may take as many entries as match takes all of them. -/
  taken : ∀ c id key count hint s', s.sleep.cpu c = some id → s.prog id = .collect key count →
    (waitSlots.countP fun slot => (s.waiters slot).any (AddressWaiter.hits key)) ≤ count →
    step idle s (.own c hint) = some s' →
    ∀ slot w, s.waiters slot = some w → w.hits key = true → isRegistered s' w.thread = false
  /-- A waiter whose entry was taken is on the list of a waker that runs, or it does not stay asleep. -/
  woken : ∀ id, (s.prog id).waits = true → isRegistered s id = false →
    (∃ k rest n, s.prog k = .waking rest n ∧ id ∈ rest ∧ Sleep.OnCpu s.sleep k) ∨
      ∃ slot t, s.sleep.queue.threads slot = some t ∧ t.id = id ∧ Sleep.Awake idle s.sleep slot t
  /-- On a CPU it can take its next step, and each of its steps brings it closer to the end of its wait. -/
  enabled : ∀ c id hint, s.sleep.cpu c = some id → (s.prog id).waits = true →
    ∃ s', step idle s (.own c hint) = some s'
  closer : ∀ id l s', (s.prog id).waits = true → isRegistered s id = false → step idle s l = some s' →
    Closer s s' id
  /-- A wait that has ended returns its result. -/
  returns : ∀ id result l s', s.prog id = .finish result → step idle s l = some s' →
    s'.prog id = .finish result ∨ s'.prog id = .returned (.waited result)
  /-- A wake returns the number of registrations it removed, and none is removed twice. -/
  counted : ∀ id n, s.prog id = .returned (.woke n) → removedBy s (s.wakeCall id) = n
  once : (s.removals.map Prod.snd).Nodup

section Runs

variable [DecidableEq ι] {idle : Sleep.Idle ι} {s s' : State ι κ} {c : ι} {id : ThreadId} {key : AddressKey}
  {count address : Nat} {hint : Hint}

theorem aimed_of_step (hc : s.sleep.cpu c = some id)
    (hp : s.prog id = .wakeResolve address count) (hs : step idle s (.own c hint) = some s')
    (hp' : s'.prog id = .collect key n) :
    key.pageTable = s.tableOf id ∧ key.virtualAddress = address ∧ n = count := by
  have hself : ∀ p, (s.setProg id p).prog id = p := fun p => update_self _ _ _
  simp only [step, hc, Option.bind_some, own, hp] at hs
  split at hs
  · cases hs
    cases (hself _).symm.trans hp'
  split at hs
  · cases hs
    cases (hself _).symm.trans hp'
  rename_i hkey
  cases hs
  cases (hself _).symm.trans hp'
  obtain ⟨htable, haddress, _⟩ := resolveKey_ok hkey
  exact ⟨htable, haddress, rfl⟩

/-- The sweep of a wake, as a step of the system. -/
theorem step_collect (hint : Hint) (hc : s.sleep.cpu c = some id)
    (hp : s.prog id = .collect key count) :
    step idle s (.own c hint) = some ((swept s id key count).setProg id
      (.waking ((collect s key count).2.map AddressWaiter.thread) (collect s key count).2.length)) := by
  simp only [step, hc, Option.bind_some, own, hp]

theorem taken_of_inv (h : Inv idle s) (hc : s.sleep.cpu c = some id) (hp : s.prog id = .collect key count)
    (hcount : (waitSlots.countP fun slot => (s.waiters slot).any (AddressWaiter.hits key)) ≤ count)
    (hs : step idle s (.own c hint) = some s') {w : AddressWaiter}
    (hw : s.waiters slot = some w) (hhit : w.hits key = true) : isRegistered s' w.thread = false := by
  rw [step_collect _ hc hp] at hs
  cases hs
  have hmax : (waitSlots.countP fun slot => (s.waiters slot).any (AddressWaiter.hits key)) ≤
    min count 64 := by
    have hlen : waitSlots.length = 64 := List.length_finRange
    have := List.countP_le_length (p := fun slot => (s.waiters slot).any (AddressWaiter.hits key))
      (l := waitSlots)
    omega
  have hgone := sweep_complete (AddressWaiter.hits key) (min count 64) s.waiters nodup_waitSlots hmax
    (mem_waitSlots slot) hw hhit
  by_contra h0
  obtain ⟨i, w', hw', hid⟩ := isRegistered_iff.mp (by simpa using h0)
  have hi := h.unique i slot w' w (collect_subset hw') hw hid
  subst hi
  exact nomatch hw'.symm.trans hgone

theorem returns_of_step {result : AddressWaitResult} (hp : s.prog id = .finish result)
    (hs : step idle s l = some s') : s'.prog id = .finish result ∨
    s'.prog id = .returned (.waited result) := by
  have hbegin : ∀ k p, s.prog k = .user → update s.prog k p id = .finish result := by
    intro k p huser
    rw [update_of_ne ?_]
    · exact hp
    · rintro rfl
      exact nomatch hp.symm.trans huser
  cases step_moves hs with
  | wait _ huser | waitGuarded _ huser | wake _ huser => exact .inl (hbegin _ _ huser)
  | @own c hint k s' hc hown =>
    by_cases hid : id = k
    · subst hid
      rw [own, hp] at hown
      cases hown
      exact .inr (update_self _ _ _)
    · have hprog : ∀ p, update s.prog k p id = .finish result :=
        fun p => (update_of_ne hid _ _).trans hp
      left
      cases own_cases hown with
      | abandon | stop => unfold removeWaiter; split <;> exact hprog _
      | advance => exact hp
      | _ => exact hprog _
  | sched | remap | store | tick | expire => exact .inl hp

theorem woken_of_inv (h : Inv idle s) (hwaits : (s.prog id).waits = true) (hreg : isRegistered s id = false) :
    (∃ k rest n, s.prog k = .waking rest n ∧ id ∈ rest ∧ Sleep.OnCpu s.sleep k) ∨
      ∃ slot t, s.sleep.queue.threads slot = some t ∧ t.id = id ∧ Sleep.Awake idle s.sleep slot t := by
  by_cases hw : ToBeWoken s id
  · obtain ⟨k, rest, n, hk, hmem⟩ := hw
    exact .inl ⟨k, rest, n, hk, hmem, h.core.here k (by rw [hk]; rfl)⟩
  · refine .inr (h.core.due_awake (h.due id hwaits hreg hw) (away_of_ne_user fun huser => ?_))
    rw [huser] at hwaits
    cases hwaits

/-- **No wakeup of an address is lost**, in any interleaving of waits, stores, wakes and scheduling. -/
theorem address_wake_reaches_waiter (h : (addressWait idle).Reachable s) : NoLostWake idle s := by
  have hall : Inv idle s ∧ Ledger s ∧ Keyed s := by
    refine System.Reach.invariant (I := fun s => Inv idle s ∧ Ledger s ∧ Keyed s) ?_ ?_ h
    · intro s hs
      exact ⟨inv_start hs, ledger_start hs, keyed_start hs⟩
    · rintro s l s' ⟨hinv, hledger, hkeyed⟩ _ hs
      have hinv' := inv_step hinv hs
      exact ⟨hinv', ledger_step hledger hinv hs, keyed_step hkeyed hinv hinv' hs⟩
  obtain ⟨hinv, hledger, hkeyed⟩ := hall
  exact
    { keyed := hkeyed.entry
      aimed := fun _ _ _ _ _ _ _ _ hc hp hs hp' => aimed_of_step hc hp hs hp'
      taken := fun _ _ _ _ _ _ hc hp hcount hs _ _ hw hhit => taken_of_inv hinv hc hp hcount hs hw hhit
      woken := fun _ hwaits hreg => woken_of_inv hinv hwaits hreg
      enabled := fun _ _ hint hc hwaits => own_enabled hinv hc hwaits hint
      closer := fun _ _ _ hwaits hreg hs => closer_step hinv hwaits hreg hs
      returns := fun _ _ _ _ hp hs => returns_of_step hp hs
      counted := fun id n hp => hledger.counted id n (by rw [hp]; rfl)
      once := hledger.once }

/-- **No wait is refused for want of room**: no wait has to give up its registration because its deadline
    cannot be armed, and a thread that comes to register has no entry left from an earlier wait and finds a
    free slot. -/
theorem address_wait_has_room (h : (addressWait idle).Reachable s) :
    (∀ k, s.prog k ≠ .abandon) ∧
      ∀ id r key guard, s.prog id = .register r key guard →
        isRegistered s id = false ∧ claimSlot.freeSlot s r ≠ .error (.error .resourceUnavailable) := by
  have hinv := System.Reach.invariant (I := Inv idle) (fun _ => inv_start) (fun _ _ _ hi _ => inv_step hi) h
  refine ⟨hinv.admitted, fun id r key guard hp => ?_⟩
  have hreg : isRegistered s id = false := by
    rw [← Bool.not_eq_true, isRegistered_iff]
    rintro ⟨i, w, hw, rfl⟩
    have hwaits := hinv.entry i w hw
    rw [hp] at hwaits
    cases hwaits
  -- the entries are those of different live threads, like the deadlines
  have hsome : (sleepEntrySlot (fun i => (s.waiters i).map AddressWaiter.thread) id).isSome := by
    refine sleepEntrySlot_isSome ?_ ?_ (hinv.core.alive id (by rw [hp]; rfl))
    · intro i k hk
      obtain ⟨w, hw, rfl⟩ := Option.map_eq_some_iff.mp hk
      exact hinv.core.alive _ (calls.not_away_of_waits _ (hinv.entry i w hw))
    · intro i j k hi hj
      obtain ⟨w, hw, rfl⟩ := Option.map_eq_some_iff.mp hi
      obtain ⟨w', hw', hid⟩ := Option.map_eq_some_iff.mp hj
      exact hinv.unique i j w w' hw hw' hid.symm
  refine ⟨hreg, ?_⟩
  unfold claimSlot.freeSlot
  split
  · simp
  · cases hfull : waitSlots.find? fun slot => (s.waiters slot).isNone with
    | some slot => simp
    | none =>
      obtain ⟨i, -, w, hw, hid⟩ := by simpa [sleepEntrySlot, hfull] using hsome
      rw [isRegistered_iff.mpr ⟨i, w, hw, hid⟩] at hreg
      cases hreg

end Runs

/-! ## A machine with a waiter and a waker -/

/-- Page 4 of table 20 is frame 5, and thread 2 uses that table. -/
def waiterAndWaker (tableOf3 : Nat) : State Bool Unit where
  sleep := Sleep.twoThreads
  prog _ := .user
  tableOf id := if id = 3 then tableOf3 else 20
  maps table page := if table = 20 ∧ page = 4 then some 5 else none
  memory _ := 0
  now := 0
  waiters _ := none
  deadlines _ := none
  registration _ := 0
  registrations := 0
  wakeCall _ := 0
  wakeCalls := 0
  removals := []

theorem start_waiterAndWaker (tableOf3 : Nat) : Start Sleep.twoCpus (waiterAndWaker tableOf3) :=
  ⟨Sleep.start_twoThreads, fun _ => rfl, fun _ => rfl, fun _ => rfl, rfl⟩

/-- The pointer is good and no upcall is due. -/
def good : Hint := ⟨.ok (), false⟩

/-- A wait for the word at 0x4000 to become other than 0. -/
def waited : Request := ⟨0x4000, 0, 4, none⟩

/-- The key of its address in table 20. -/
def waitedKey : AddressKey := ⟨20, 0x4000, 5 * 4096⟩

/-- The current thread of the CPU waits, and has registered itself. -/
def registers (c : Bool) : List (Label Bool) := [.wait c waited none, .own c good, .own c good]

/-- Thread 2 falls asleep; thread 3 changes the word and wakes it; it is selected again and returns. -/
def sleepsAndWakes : List (Label Bool) :=
  List.flatten [registers false, List.replicate 6 (.own false good),
    [.store (5 * 4096) 1, .wake true 0x4000 1],
    List.replicate 4 (.own true good), [.sched (.preempt false)], List.replicate 2 (.own false good)]

theorem address_wake_reaches_waiter_run : ∃ s : State Bool Unit, (addressWait Sleep.twoCpus).Reachable s ∧
    s.prog 2 = .returned (.waited .awoken) ∧ s.prog 3 = .returned (.woke 1) ∧ NoLostWake Sleep.twoCpus s := by
  obtain ⟨s, hs, hp⟩ := System.reachable_of_exec (addressWait Sleep.twoCpus)
    (waiterAndWaker 20) sleepsAndWakes
    (fun s => s.prog 2 = .returned (.waited .awoken) ∧ s.prog 3 = .returned (.woke 1))
    (start_waiterAndWaker 20) (by decide +kernel)
  exact ⟨s, hs, hp.1, hp.2, address_wake_reaches_waiter hs⟩

/-- Both threads have registered themselves; an upcall ends the wait of thread 2, which then waits again. -/
def waitsAgain : List (Label Bool) :=
  List.flatten [registers true, registers false, [.own false ⟨.ok (), true⟩, .own false good, .own false good,
    .wait false waited none, .own false good]]

theorem address_wait_has_room_run : ∃ s : State Bool Unit, (addressWait Sleep.twoCpus).Reachable s ∧
    s.prog 2 = .register waited waitedKey none ∧ s.registrations = 2 ∧ isRegistered s 3 = true ∧
    isRegistered s 2 = false ∧ claimSlot.freeSlot s waited ≠ .error (.error .resourceUnavailable) ∧
    ∀ k, s.prog k ≠ .abandon := by
  obtain ⟨s, hs, hp, htwice, hother⟩ := System.reachable_of_exec (addressWait Sleep.twoCpus)
    (waiterAndWaker 20)
    waitsAgain (fun s => s.prog 2 = .register waited waitedKey none ∧ s.registrations = 2 ∧
      isRegistered s 3 = true)
    (start_waiterAndWaker 20) (by decide +kernel)
  obtain ⟨hadmitted, hroom⟩ := address_wait_has_room hs
  obtain ⟨hreg, hfree⟩ := hroom 2 waited waitedKey none hp
  exact ⟨s, hs, hp, htwice, hother, hreg, hfree, hadmitted⟩

end Mnu.Syscall.AddressWait
