import Mnu.Ipc.Lifetime

/-!
# `Mnu.Ipc.EndpointInv` — the sections under the mailbox lock keep the invariant

A section of one party takes messages out of mailboxes (`Removed`) or puts one in (`enqueueStep`). A send that
has checked its destination holds the mailbox lock until the message is queued, so a retirement, which needs
the lock, comes after it and drops the message.

What a receive commits is the message it has copied: identities are given out once, so equal identities are
the same message (`commit_eq`).

`Kind` says once what a step can do; the invariants of the system are proved along it.
-/

namespace Mnu.Ipc

open Mnu.Lib Function

namespace State

variable {ι ω : Type} {s : State ι ω} {a b : ι} {e : IpcEndpoint} {m : Mailbox ω}
  {boxes : Nat → Mailbox ω} {slot : Nat}
  {snapshot : Message ω}

namespace Inv

/-- A place outside the lock relies on nothing that the mailboxes hold. -/
theorem pcOk_of_unlocked {s' : State ι ω} {pc : Pc ω} (hok : s.PcOk pc) (hpc : pc.locked = false)
    (hthreads : s'.threads = s.threads) (hgen : s'.nextGeneration = s.nextGeneration)
    (hreserved : s'.reserved = s.reserved) (haccepted : ∀ m ∈ s.accepted, m ∈ s'.accepted) : s'.PcOk pc := by
  cases pc with
  | copying r slot message => exact ⟨haccepted _ hok.1, hok.2⟩
  | retire e =>
    unfold PcOk Dead Issued at hok ⊢
    rwa [hthreads, hgen, hreserved]
  | send kernel message => exact hok
  | idle | receive _ | awaitReply _ => exact trivial
  | sendChecked _ _ | receiveChecked _ | committing _ _ _ => cases hpc

theorem unlocked_of_ne (h : Inv s) (hlock : s.lock = none ∨ s.lock = some a) (hb : b ≠ a) :
    (s.pc b).locked = false := by
  by_contra hne
  have hown := (h.lock_iff b).mpr (by simpa using hne)
  rcases hlock with hlock | hlock
  · rw [hlock] at hown
    cases hown
  · rw [hlock] at hown
    exact hb (Option.some.inj hown).symm

/-- A section of party `a` that takes messages out of mailboxes or leaves them alone, and gives up the lock.
    -/
structure Removed (s s' : State ι ω) (a : ι) : Prop where
  threads : s'.threads = s.threads
  nextGeneration : s'.nextGeneration = s.nextGeneration
  reserved : s'.reserved = s.reserved
  nextMessageId : s'.nextMessageId = s.nextMessageId
  accepted : s'.accepted = s.accepted
  before : s.lock = none ∨ s.lock = some a
  lock : s'.lock = none
  sound : ∀ slot, (s'.boxes slot).Sound []
  messages : ∀ slot, ∀ m ∈ (s'.boxes slot).messages, m ∈ (s.boxes slot).messages
  pc : ∀ b, b ≠ a → s'.pc b = s.pc b
  place : (s'.pc a).locked = false ∧ s'.PcOk (s'.pc a)
  observed : ∀ o ∈ s'.seen ++ s'.received, o ∈ s.seen ++ s.received ∨ o.2 ∈ s.accepted ∧ o.2.endpoint = o.1
  retired : ∀ e ∈ s'.retired, e ∈ s.retired ∨ s.pc a = .retire e
  dropped : ∀ e, s.pc a = .retire e → ∀ slot, ∀ m ∈ (s'.boxes slot).messages, m.endpoint ≠ e

theorem removed {s' : State ι ω} (h : Inv s) (r : Removed s s' a) : Inv s' := by
  have hissued : ∀ g, s'.Issued g ↔ s.Issued g := fun g => by
    unfold Issued
    rw [r.nextGeneration, r.reserved]
  have hdead : ∀ e, s'.Dead e ↔ s.Dead e := fun e => by
    unfold Dead
    rw [hissued, r.threads]
  exact
    { sound := r.sound
      nextId := r.nextMessageId ▸ h.nextId
      nextGen := r.nextGeneration ▸ h.nextGen
      accepted_lt := by
        rw [r.accepted, r.nextMessageId]
        exact h.accepted_lt
      accepted_sorted := r.accepted ▸ h.accepted_sorted
      accepted_issued := by
        intro m hm
        obtain ⟨hslot, hne, hi⟩ := h.accepted_issued m (r.accepted ▸ hm)
        exact ⟨hslot, hne, (hissued _).mpr hi⟩
      queued_accepted := by
        rw [r.accepted]
        exact fun slot m hm => h.queued_accepted slot m (r.messages slot m hm)
      reserved_nodup := r.reserved ▸ h.reserved_nodup
      reserved_lt := by
        rw [r.reserved, r.nextGeneration]
        exact h.reserved_lt
      threads_issued := by
        intro slot thread ht
        exact (hissued _).mpr (h.threads_issued slot thread (r.threads ▸ ht))
      lock_iff := by
        intro b
        rw [r.lock]
        by_cases hb : b = a
        · simp [hb, r.place.1]
        · simp [r.pc b hb, h.unlocked_of_ne r.before hb]
      pcs := by
        intro b
        by_cases hb : b = a
        · rw [hb]
          exact r.place.2
        · rw [r.pc b hb]
          exact pcOk_of_unlocked (h.pcs b) (h.unlocked_of_ne r.before hb)
            r.threads r.nextGeneration r.reserved (by rw [r.accepted]; exact fun _ hm => hm)
      observed := by
        intro o ho
        rw [r.accepted]
        exact (r.observed o ho).elim (h.observed o) id
      retired_dead := by
        intro e he
        rw [hdead]
        rcases r.retired e he with he | hpc
        · exact h.retired_dead e he
        · have hok := h.pcs a
          rw [hpc] at hok
          exact hok
      retired_dropped := by
        intro e he slot m hm
        rcases r.retired e he with he | hpc
        · exact h.retired_dropped e he slot m (r.messages slot m hm)
        · exact r.dropped e hpc slot m hm
      kept := by
        intro slot m hm
        rcases h.kept slot m (r.messages slot m hm) with hocc | ⟨b, hb⟩
        · exact .inl (r.threads ▸ hocc)
        · refine .inr ⟨b, ?_⟩
          rw [r.pc b, hb]
          rintro rfl
          exact r.dropped _ hb slot m hm rfl }

theorem boxes_setBox (s : State ι ω) (slot slot' : Nat) (box : Mailbox ω) :
    (s.setBox slot box).boxes slot' = if slot' = slot then box else s.boxes slot' := by
  show update s.boxes slot box slot' = _
  rw [update_apply]

/-- The mailboxes `boxes` are sound and have no message that those of `s` do not have. -/
def Within (s : State ι ω) (boxes : Nat → Mailbox ω) : Prop :=
  (∀ slot, (boxes slot).Sound []) ∧ ∀ slot, ∀ m ∈ (boxes slot).messages, m ∈ (s.boxes slot).messages

theorem within (h : Inv s) : Within s s.boxes := ⟨h.sound, fun _ _ hm => hm⟩

theorem Within.set {box : Mailbox ω} (hb : Within s boxes) (slot : Nat)
    (hsound : box.Sound []) (hsub : ∀ m ∈ box.messages, m ∈ (boxes slot).messages) :
    Within s (update boxes slot box) := by
  constructor
  · intro slot'
    rw [update_apply]
    split
    · exact hsound
    · exact hb.1 slot'
  · intro slot' m hm
    rw [update_apply] at hm
    split at hm
    · rename_i heq
      exact heq ▸ hb.2 slot m (hsub m hm)
    · exact hb.2 slot' m hm

/-- A new reply target is no matter of the queue. -/
theorem sound_addReplyTarget (h : m.Sound []) (endpoint callId : Nat) (owner : Nat × Nat) :
    (m.addReplyTarget endpoint callId owner).Sound [] ∧
      (m.addReplyTarget endpoint callId owner).messages = m.messages := by
  unfold Mailbox.addReplyTarget
  dsimp only
  split <;> split <;> exact ⟨⟨h.ring, h.perm, h.queued_some, h.freed_none⟩, rfl⟩

/-- What is committed is the message of the snapshot. -/
theorem commit_eq (h : Inv s) {r : Receive} {message : Message ω}
    {before after : List (Message ω)} (hpc : s.pc a = .committing r slot snapshot)
    (hmessages : (s.boxes r.endpoint.slot).messages = before ++ message :: after)
    (hid : message.messageId = snapshot.messageId) :
    message = snapshot ∧ snapshot ∈ s.accepted ∧ Mailbox.selects r.endpoint r.reply snapshot = true ∧
      snapshot.endpoint = r.endpoint := by
  have hok := h.pcs a
  rw [hpc] at hok
  obtain ⟨hmem, hsel⟩ := hok
  have hmem' : message ∈ s.accepted := (h.queued_accepted r.endpoint.slot message (by rw [hmessages]; simp)).1
  refine ⟨h.eq_of_id hmem' hmem hid, hmem, hsel, ?_⟩
  simp only [Mailbox.selects, Bool.and_eq_true] at hsel
  simpa using hsel.1

theorem sound_waiter (h : m.Sound []) (waiter : Nat) : ({ m with waiter := waiter } : Mailbox ω).Sound [] :=
  ⟨h.ring, h.perm, h.queued_some, h.freed_none⟩

theorem sound_clearIf (h : m.Sound []) (p : Prop) [Decidable p] :
    (if p then { m with waiter := 0 } else m : Mailbox ω).Sound [] ∧
      (if p then { m with waiter := 0 } else m : Mailbox ω).messages = m.messages := by
  split
  · exact ⟨sound_waiter h 0, rfl⟩
  · exact ⟨h, rfl⟩

variable [DecidableEq ι] {config : Config} {s' : State ι ω} {pc : Pc ω} {message : Message ω} {kernel : Bool}
  {r : Receive}

theorem goto_pc_ne {s : State ι ω} {a : ι} (hb : b ≠ a) : (s.goto a pc).pc b = s.pc b := by
  rw [goto_pc, if_neg hb]

theorem goto_pc_self (s : State ι ω) (a : ι) (pc : Pc ω) : (s.goto a pc).pc a = pc := by
  rw [goto_pc, if_pos rfl]

/-- A section of party `a` ends with the lock free, and the party goes on to `pc`. -/
theorem ends {lock : Option ι} {seen received : List (IpcEndpoint × Message ω)}
    (h : Inv s) (hbefore : s.lock = none ∨ s.lock = some a) (hnot : ∀ e, s.pc a ≠ .retire e)
    (hpc : pc.locked = false ∧ s.PcOk pc) (hboxes : Within s boxes) (hfree : lock = none)
    (hobs : ∀ o ∈ seen ++ received, o ∈ s.seen ++ s.received ∨ o.2 ∈ s.accepted ∧ o.2.endpoint = o.1) :
    Inv { s with
      boxes := boxes, lock := lock, seen := seen, received := received, pc := update s.pc a pc } := by
  refine h.removed (a := a) ⟨rfl, rfl, rfl, rfl, rfl, hbefore, hfree, hboxes.1, hboxes.2,
    fun b hb => update_of_ne hb _ _, ?_, hobs, fun _ he => .inl he, fun e he => absurd he (hnot e)⟩
  dsimp only
  rw [update_self]
  exact ⟨hpc.1, pcOk_of_unlocked hpc.2 hpc.1 rfl rfl rfl fun _ hm => hm⟩

omit [DecidableEq ι] in
theorem observed_received {m : Message ω} (hm : m ∈ s.accepted) (he : m.endpoint = e) :
    ∀ o ∈ s.seen ++ (s.received ++ [(e, m)]), o ∈ s.seen ++ s.received ∨ o.2 ∈ s.accepted ∧
      o.2.endpoint = o.1 := by
  intro o ho
  rw [← List.append_assoc] at ho
  rcases List.mem_append.mp ho with ho | ho
  · exact .inl ho
  · rw [List.mem_singleton.mp ho]
    exact .inr ⟨hm, he⟩

/-- **The snapshot of a receive.** -/
theorem snapshotStep (h : Inv s) (hpc : s.pc a = .receiveChecked r) (allocated : Bool) :
    Inv (s.snapshotStep a r allocated) := by
  have hlock : s.lock = some a := (h.lock_iff a).mpr (by rw [hpc]; rfl)
  have hnot : ∀ e, s.pc a ≠ .retire e := by simp [hpc]
  unfold State.snapshotStep
  dsimp only
  split
  · -- the call ends with an error
    exact h.ends (.inr hlock) hnot ⟨rfl, trivial⟩ h.within rfl fun _ ho => .inl ho
  · split
    · exact h.ends (.inr hlock) hnot ⟨rfl, trivial⟩
        (h.within.set r.endpoint.slot (sound_waiter (h.sound _) r.endpoint.threadId) fun m hm => hm) rfl
        fun _ ho => .inl ho
    · exact h.ends (.inr hlock) hnot ⟨rfl, trivial⟩ h.within rfl fun _ ho => .inl ho
  · rename_i slot message hsome
    obtain ⟨-, hsel, before, after, hmessages, -⟩ := Mailbox.snapshotReceive_some hsome
    have hmem : message ∈ s.accepted :=
      (h.queued_accepted r.endpoint.slot message (by rw [hmessages]; simp)).1
    have hend : message.endpoint = r.endpoint := by
      have hsel' := hsel
      simp only [Mailbox.selects, Bool.and_eq_true] at hsel'
      simpa using hsel'.1
    refine h.ends (.inr hlock) hnot ⟨rfl, hmem, hsel⟩ h.within rfl ?_
    intro o ho
    simp only [List.mem_append, List.mem_singleton] at ho
    rcases ho with (ho | rfl) | ho
    · exact .inl (List.mem_append_left _ ho)
    · exact .inr ⟨hmem, hend⟩
    · exact .inl (List.mem_append_right _ ho)

/-- **Its commit.** -/
theorem commitStep (h : Inv s)
    (hpc : s.pc a = .committing r slot snapshot) : Inv (s.commitStep a r slot snapshot) := by
  have hlock : s.lock = some a := (h.lock_iff a).mpr (by rw [hpc]; rfl)
  have hnot : ∀ e, s.pc a ≠ .retire e := by simp [hpc]
  unfold State.commitStep
  rcases Mailbox.commitReceive_cases (h.sound r.endpoint.slot) slot snapshot.messageId s.nextMessageId with
    ⟨error, hc⟩ | ⟨box, message, before, after, hc, hbox, -, hid, hmessages, hrest, -, -⟩
  · rw [hc]
    dsimp only
    exact h.ends (.inr hlock) hnot ⟨rfl, trivial⟩
      (h.within.set r.endpoint.slot (h.sound _) fun m hm => hm) rfl fun _ ho => .inl ho
  · obtain ⟨heq, hmem, -, hend⟩ := h.commit_eq hpc hmessages hid
    have hsub : ∀ m ∈ box.messages, m ∈ (s.boxes r.endpoint.slot).messages := by
      rw [hrest, hmessages]
      exact fun m hm => ((List.sublist_cons_self message after).append_left before).subset hm
    have hboxes := h.within.set r.endpoint.slot hbox hsub
    have hobs := observed_received (heq ▸ hmem) (heq ▸ hend)
    rw [hc]
    dsimp only
    split
    · rename_i callerSlot generation _
      have htarget := sound_addReplyTarget (hboxes.1 callerSlot) message.sender message.callId
        (r.endpoint.threadId, generation)
      exact h.ends (.inr hlock) hnot ⟨rfl, trivial⟩
        (hboxes.set callerSlot htarget.1 fun _ hm => htarget.2 ▸ hm) rfl hobs
    · exact h.ends (.inr hlock) hnot ⟨rfl, trivial⟩ hboxes rfl hobs

/-- **A reply is taken.** -/
theorem popReplyStep (h : Inv s) {filter : Mailbox.ReplyFilter} (hlock : s.lock = none)
    (hpc : s.pc a = .awaitReply filter) : Inv (s.popReplyStep a filter) := by
  have hnot : ∀ e, s.pc a ≠ .retire e := by simp [hpc]
  unfold State.popReplyStep
  dsimp only
  rcases Mailbox.popReply_cases (h.sound filter.receiver.slot) filter s.nextMessageId with
    ⟨box, hp, hbox, hmessages, -, -, -⟩ | ⟨box, message, before, after, hp, hbox,
      hacc, -, hmessages, hrest, -, -⟩
  · obtain ⟨hsound, hsub⟩ := h.within.set filter.receiver.slot (sound_waiter hbox filter.receiver.threadId)
      (fun m (hm : m ∈ box.messages) => hmessages ▸ hm)
    rw [hp]
    dsimp only
    refine h.removed (a := a) ⟨rfl, rfl, rfl, rfl, rfl, .inl hlock, hlock, hsound, hsub, fun _ _ => rfl, ?_,
      fun _ ho => .inl ho, fun _ he => .inl he, fun e he => absurd he (hnot e)⟩
    show (s.pc a).locked = false ∧ PcOk _ (s.pc a)
    rw [hpc]
    exact ⟨rfl, trivial⟩
  · have hmem : message ∈ s.accepted :=
      (h.queued_accepted filter.receiver.slot message (by rw [hmessages]; simp)).1
    have hend : message.endpoint = filter.receiver := by
      simp only [Mailbox.ReplyFilter.accepts, Bool.and_eq_true] at hacc
      simpa using hacc.1.2
    have hboxes := h.within.set filter.receiver.slot hbox fun m hm => by
      rw [hrest] at hm
      rw [hmessages]
      exact (List.mem_append.mp hm).elim (fun hm => List.mem_append_right _ (List.mem_cons_of_mem _ hm))
        fun hm => List.mem_append_left _ hm
    rw [hp]
    dsimp only
    exact h.ends (.inl hlock) hnot ⟨rfl, trivial⟩ hboxes hlock (observed_received hmem hend)

/-- **A lifetime is retired.** -/
theorem retireStep (h : Inv s) (hlock : s.lock = none) (hpc : s.pc a = .retire e) :
    Inv (s.retireStep a e) := by
  have heq : ∀ e', s.pc a = .retire e' → e' = e := fun e' he' => by
    rw [hpc] at he'
    exact (Pc.retire.inj he').symm
  have hnew : ∀ e' ∈ e :: s.retired, e' ∈ s.retired ∨ s.pc a = .retire e' := by
    intro e' he'
    rcases List.mem_cons.mp he' with rfl | he'
    · exact .inr hpc
    · exact .inl he'
  unfold State.retireStep
  split
  · obtain ⟨box, retired, hr, hbox, hmessages, -⟩ :=
      Mailbox.retireDestination_spec (h.sound e.slot) e s.nextMessageId
    rw [hr]
    dsimp only
    obtain ⟨hsound', hmsg'⟩ := sound_clearIf hbox (box.waiter = e.threadId ∧
      ((s.threads.ipcSlotIndexAndGeneration e.threadId).all fun identity =>
        decide (identity = (e.slot, e.generation))) = true)
    obtain ⟨hsound, hsub⟩ := h.within.set e.slot hsound' fun m hm => by
      rw [hmsg', hmessages] at hm
      exact List.mem_of_mem_filter hm
    refine h.removed (a := a) ⟨rfl, rfl, rfl, rfl, rfl, .inl hlock, hlock, hsound, hsub,
      fun b hb => goto_pc_ne hb, ?_, fun _ ho => .inl ho, hnew, ?_⟩
    · rw [goto_pc_self]
      exact ⟨rfl, trivial⟩
    · intro e' he' slot m hm hend
      rw [heq e' he'] at hend
      -- a message of this lifetime could only be in its own mailbox, which has just lost them all
      have hslot : slot = e.slot := by
        have := (h.queued_accepted slot m (hsub slot m hm)).2
        rw [← this, ← hend]
        rfl
      subst hslot
      have hm' : m ∈ ((s.setBox e.slot _).boxes e.slot).messages := hm
      rw [boxes_setBox, if_pos rfl, hmsg', hmessages] at hm'
      simpa [hend] using (List.mem_filter.mp hm').2
  · rename_i hslot
    refine h.removed (a := a) ⟨rfl, rfl, rfl, rfl, rfl, .inl hlock, hlock, h.sound, fun _ _ hm => hm,
      fun b hb => goto_pc_ne hb, ?_, fun _ ho => .inl ho, hnew, ?_⟩
    · rw [goto_pc_self]
      exact ⟨rfl, trivial⟩
    · intro e' he' slot m hm hend
      apply hslot
      rw [heq e' he'] at hend
      rw [← hend]
      exact (h.accepted_issued m (h.queued_accepted slot m hm).1).1

/-- The two ways of sending have the same outcomes. -/
theorem enqueueStep_cases (config : Config) (h : Inv s) (hid : message.messageId = 0) (allocated : Bool) :
    (∃ box : Mailbox ω, box.Sound [] ∧ box.messages = (s.boxes message.toSlot).messages ∧
        s.enqueueStep config a kernel message allocated =
          ({ s.setBox message.toSlot box with lock := none } : State ι ω).goto a .idle) ∨
      ∃ box : Mailbox ω, box.Sound [] ∧
        box.messages =
          (s.boxes message.toSlot).messages ++ [{ message with messageId := s.nextMessageId }] ∧
        s.enqueueStep config a kernel message allocated =
          ({ s.setBox message.toSlot box with
              nextMessageId := s.nextMessageId + 1
              lock := none
              accepted := s.accepted ++ [{ message with messageId := s.nextMessageId }] } :
            State ι ω).goto a .idle := by
  have hqueues : (s.boxes message.toSlot).Queues message s.nextMessageId (if kernel = true then
        (s.boxes message.toSlot).pushMessage config.mailboxCap config.maxMsgSize
          allocated message s.nextMessageId
      else (s.boxes message.toSlot).enqueueMessage config.mailboxCap message s.nextMessageId) := by
    split
    · exact Mailbox.pushMessage_queues (h.sound _) hid h.nextId _ _ _
    · exact Mailbox.enqueueMessage_queues (h.sound _) hid h.nextId _
  unfold State.enqueueStep
  dsimp only
  revert hqueues
  generalize (if kernel = true then _ else _) = sent
  obtain ⟨box, next, accepted⟩ := sent
  rintro ⟨hsound, ⟨heq, hmessages⟩ | ⟨heq, hmessages⟩⟩
  · cases heq
    exact .inl ⟨box, hsound, hmessages, rfl⟩
  · cases heq
    exact .inr ⟨box.takeWaiter.1, sound_waiter hsound 0, hmessages, rfl⟩

/-- **A message is queued.** -/
theorem enqueueStep (config : Config) (h : Inv s) (hpc : s.pc a = .sendChecked kernel message)
    (allocated : Bool) : Inv (s.enqueueStep config a kernel message allocated) := by
  have hlock : s.lock = some a := (h.lock_iff a).mpr (by rw [hpc]; rfl)
  have hnot : ∀ e, s.pc a ≠ .retire e := by simp [hpc]
  have hok := h.pcs a
  rw [hpc] at hok
  obtain ⟨hid, hslot, hgen, hissued, hret, hkept⟩ := hok
  rcases h.enqueueStep_cases config hid allocated with ⟨box, hbox, hmessages, heq⟩
    | ⟨box, hbox, hmessages, heq⟩
  · rw [heq]
    exact h.ends (.inr hlock) hnot ⟨rfl, trivial⟩
      (h.within.set message.toSlot hbox fun m hm => hmessages ▸ hm) rfl fun _ ho => .inl ho
  · rw [heq]
    have hqueued : ∀ slot, ∀ m ∈ ((s.setBox message.toSlot box).boxes slot).messages,
        m ∈ (s.boxes slot).messages ∨
          m = { message with messageId := s.nextMessageId } ∧ slot = message.toSlot := by
      intro slot m hm
      rw [boxes_setBox] at hm
      split at hm
      · rename_i heq
        rw [hmessages] at hm
        rcases List.mem_append.mp hm with hm | hm
        · exact .inl (heq ▸ hm)
        · exact .inr ⟨List.mem_singleton.mp hm, heq⟩
      · exact .inl hm
    refine
      { sound := ?_, nextId := Nat.succ_ne_zero _, nextGen := h.nextGen, accepted_lt := ?_,
        accepted_sorted := ?_
        accepted_issued := ?_, queued_accepted := ?_, reserved_nodup := h.reserved_nodup
        reserved_lt := h.reserved_lt, threads_issued := h.threads_issued,
          lock_iff := ?_, pcs := ?_, observed := ?_
        retired_dead := h.retired_dead, retired_dropped := ?_, kept := ?_ }
    · intro slot
      show ((s.setBox message.toSlot box).boxes slot).Sound []
      rw [boxes_setBox]
      split
      · exact hbox
      · exact h.sound slot
    · intro m hm
      rcases List.mem_append.mp hm with hm | hm
      · exact (h.accepted_lt m hm).trans (Nat.lt_succ_self _)
      · rw [List.mem_singleton.mp hm]
        exact Nat.lt_succ_self _
    · refine List.pairwise_append.mpr ⟨h.accepted_sorted, List.pairwise_singleton _ _, ?_⟩
      intro m hm m' hm'
      rw [List.mem_singleton.mp hm']
      exact h.accepted_lt m hm
    · intro m hm
      rcases List.mem_append.mp hm with hm | hm
      · exact h.accepted_issued m hm
      · rw [List.mem_singleton.mp hm]
        exact ⟨hslot, hgen, hissued⟩
    · intro slot m hm
      rcases hqueued slot m hm with hm | ⟨rfl, rfl⟩
      · exact ⟨List.mem_append_left _ (h.queued_accepted slot m hm).1, (h.queued_accepted slot m hm).2⟩
      · exact ⟨List.mem_append_right _ (List.mem_singleton_self _), rfl⟩
    · intro b
      by_cases hb : b = a
      · rw [hb, goto_pc_self]
        simp [State.goto, Pc.locked]
      · rw [goto_pc_ne hb]
        show none = some b ↔ (s.pc b).locked = true
        simp [h.unlocked_of_ne (.inr hlock) hb]
    · intro b
      by_cases hb : b = a
      · rw [hb, goto_pc_self]
        exact trivial
      · rw [goto_pc_ne hb]
        exact pcOk_of_unlocked (h.pcs b) (h.unlocked_of_ne (.inr hlock) hb) rfl rfl rfl
          fun m hm => List.mem_append_left _ hm
    · intro o ho
      exact ⟨List.mem_append_left _ (h.observed o ho).1, (h.observed o ho).2⟩
    · intro e he slot m hm
      rcases hqueued slot m hm with hm | ⟨rfl, -⟩
      · exact h.retired_dropped e he slot m hm
      · exact fun hend => hret (hend ▸ he)
    · intro slot m hm
      apply kept_goto (s := { s.setBox message.toSlot box with
        nextMessageId := s.nextMessageId + 1, lock := none, accepted := _ }) ?_ hnot
      rcases hqueued slot m hm with hm | ⟨rfl, -⟩
      · exact h.kept slot m hm
      · exact hkept

/-! ## What a step can do -/

/-- Whether a party has a snapshot in its hands. -/
def holdsSnapshot : Pc ω → Bool
  | .copying _ _ _ | .committing _ _ _ => true
  | _ => false

/-- The kinds of steps: the thread queue changes; a party moves outside the lock; a party takes the lock after
    its endpoint was found alive; or one of the five sections runs. -/
inductive Kind (config : Config) (s : State ι ω) : Label ι ω → State ι ω → Prop where
  | table {l s'} : Retabled s s' → Kind config s l s'
  | move {l} (a : ι) (pc : Pc ω) : s.PcOk pc → holdsSnapshot pc = false → pc.locked = (s.pc a).locked →
      (∀ e, s.pc a ≠ .retire e) → Kind config s l (s.goto a pc)
  | lock {l} (a : ι) (pc : Pc ω) (e : IpcEndpoint) : s.lock = none → s.threads.Live e → s.PcOk pc →
      pc.locked = true → (∀ e, s.pc a ≠ .retire e) →
      (∀ r slot message, pc = .committing r slot message →
        s.pc a = .copying r slot message ∧ r.endpoint = e) →
      Kind config s l ({ s with lock := some a }.goto a pc)
  | enqueue (a : ι) (kernel : Bool) (message : Message ω) (allocated : Bool) :
      s.pc a = .sendChecked kernel message →
      Kind config s (.enqueue a allocated) (s.enqueueStep config a kernel message allocated)
  | snapshot (a : ι) (r : Receive) (allocated : Bool) :
      s.pc a = .receiveChecked r → Kind config s (.snapshot a allocated) (s.snapshotStep a r allocated)
  | commit (a : ι) (r : Receive) (slot : Nat) (message : Message ω) :
      s.pc a = .committing r slot message → Kind config s (.commit a) (s.commitStep a r slot message)
  | popReply (a : ι) (filter : Mailbox.ReplyFilter) :
      s.lock = none → s.pc a = .awaitReply filter → Kind config s (.popReply a) (s.popReplyStep a filter)
  | retire (a : ι) (e : IpcEndpoint) :
      s.lock = none → s.pc a = .retire e → Kind config s (.retire a) (s.retireStep a e)

theorem kind_lockChecked {l : Label ι ω} (hpc : pc.locked = true)
    (hold : (s.pc a).locked = false) (hnot : ∀ e, s.pc a ≠ .retire e)
    (hok : e.slot < maxThreads → s.threads.Live e → s.PcOk pc)
    (hcommit : ∀ r slot message, pc = .committing r slot message →
      s.pc a = .copying r slot message ∧ r.endpoint = e)
    (hs : s.lockChecked a e pc = some s') : Kind config s l s' := by
  unfold State.lockChecked at hs
  split at hs
  · cases hs
  rename_i hfree
  split at hs
  · rename_i hvalid
    cases hs
    have hlive := Threads.live_of_endpointIsValid hvalid.2
    exact .lock a pc e (by simpa using hfree) hlive (hok hvalid.1 hlive) hpc hnot hcommit
  · cases hs
    exact .move a .idle trivial rfl (by rw [hold]; rfl) hnot

/-- **Every step is of one of the kinds.** -/
theorem kind {l : Label ι ω} (h : Inv s) (hs : s.step config l = some s') : Kind config s l s' := by
  cases l with simp only [State.step] at hs
  | reserve =>
    split at hs <;> cases hs
    exact .table h.reserve
  | addThread slot id generation =>
    split at hs
    · rename_i hguard
      cases hs
      exact .table (h.addThread (Option.isNone_iff_eq_none.mp hguard.2.1) hguard.2.2.2)
    · cases hs
  | beginExit id =>
    cases hs
    exact .table (h.beginExit id)
  | terminate a id =>
    split at hs <;> cases hs
    exact .table (h.terminate ‹_› id)
  | removeThread a id =>
    split at hs <;> cases hs
    exact .table (h.removeThread ‹_› id)
  | removeQuiescent id =>
    split at hs
    · rename_i hguard
      cases hs
      refine .table (h.removeQuiescent ?_)
      intro e he
      simpa [he] using hguard
    · cases hs
  | replaceImage a id generation =>
    split at hs
    · split at hs
      · cases hs
        exact .table (h.replaceImage ‹_› ‹_› ‹_›)
      · cases hs
    · cases hs
  | retire a =>
    split at hs <;> cases hs
    exact .retire a _ ‹_› ‹_›
  | startSend a kernel message =>
    split at hs
    · rename_i hidle
      split at hs
      · rename_i hid
        cases hs
        exact .move a _ hid rfl (by rw [hidle]; rfl) (by simp [hidle])
      · cases hs
    · cases hs
  | lockSend a =>
    split at hs
    · rename_i kernel message hpc
      have hok := h.pcs a
      rw [hpc] at hok
      refine kind_lockChecked rfl (by rw [hpc]; rfl) (by simp [hpc]) ?_ (by simp) hs
      intro hslot hlive
      exact ⟨hok, hslot, hlive.1, h.issued_of_occupies hlive.occupies,
        fun hret => (h.retired_dead _ hret).2 hlive, .inl hlive.occupies⟩
    · cases hs
  | enqueue a allocated =>
    split at hs <;> cases hs
    exact .enqueue a _ _ allocated ‹_›
  | startReceive a id acceptHandles reply blocking | startReply a id sender callId =>
    split at hs
    · rename_i hidle _
      cases hs
      exact .move a _ trivial rfl (by rw [hidle]; rfl) (by simp [hidle])
    · cases hs
  | lockReceive a =>
    split at hs
    · rename_i r hpc
      refine kind_lockChecked rfl (by rw [hpc]; rfl) (by simp [hpc]) ?_ (by simp) hs
      exact fun _ _ => trivial
    · cases hs
  | snapshot a allocated =>
    split at hs <;> cases hs
    exact .snapshot a _ allocated ‹_›
  | lockCommit a =>
    split at hs
    · rename_i r slot message hpc
      have hok := h.pcs a
      rw [hpc] at hok
      refine kind_lockChecked rfl (by rw [hpc]; rfl) (by simp [hpc]) ?_ ?_ hs
      · exact fun _ _ => hok
      · intro r' slot' message' heq
        cases heq
        exact ⟨hpc, rfl⟩
    · cases hs
  | commit a =>
    split at hs <;> cases hs
    exact .commit a _ _ _ ‹_›
  | popReply a =>
    split at hs <;> cases hs
    exact .popReply a _ ‹_› ‹_›
  | giveUp a =>
    split at hs
    · cases hs
    rename_i hunlocked
    split at hs
    · cases hs
    rename_i hnot
    cases hs
    exact .move a .idle trivial rfl (by simpa [Pc.locked] using hunlocked) hnot

/-- **Every step keeps the invariant.** -/
theorem step {l : Label ι ω} (h : Inv s) (hs : s.step config l = some s') : Inv s' := by
  cases h.kind hs with
  | table r => exact h.retable r
  | move a pc hok _ hlocked hnot => exact h.goto hok hlocked hnot
  | lock a pc e hfree _ hok hpc hnot _ => exact h.locked hfree hpc hnot hok
  | enqueue a kernel message allocated hpc => exact h.enqueueStep config hpc allocated
  | snapshot a r allocated hpc => exact h.snapshotStep hpc allocated
  | commit a r slot message hpc => exact h.commitStep hpc
  | popReply a filter hfree hpc => exact h.popReplyStep hfree hpc
  | retire a e hfree hpc => exact h.retireStep hfree hpc

theorem of_reachable (h : (system ι ω config).Reachable s) : Inv s :=
  System.Reach.invariant (fun _ h0 => h0 ▸ Inv.initial) (fun _ _ _ hi _ hs => hi.step hs) h

end Inv

end State

/-! ## Delivery -/

/-- **A message is delivered to the lifetime it was sent to, or dropped.** In every reachable state, whatever
    was copied or returned to a receiver was accepted for exactly its lifetime; a retired lifetime never
    becomes valid again and has no message in any mailbox; and a message in a mailbox belongs to a thread that
    still has its slot and generation, or its lifetime is about to be retired. -/
theorem message_stays_with_lifetime {ι ω : Type} [DecidableEq ι] {config : Config} {s : State ι ω}
    (h : (system ι ω config).Reachable s) :
    (∀ o ∈ s.seen ++ s.received, o.2 ∈ s.accepted ∧ o.2.endpoint = o.1) ∧
      (∀ e ∈ s.retired, s.threads.endpointIsValid e = false ∧
        ∀ slot, ∀ m ∈ (s.boxes slot).messages, m.endpoint ≠ e) ∧
      ∀ slot, ∀ m ∈ (s.boxes slot).messages, s.threads.Occupies m.endpoint ∨
        ∃ a, s.pc a = .retire m.endpoint := by
  have hinv := State.Inv.of_reachable h
  refine ⟨hinv.observed, ?_, hinv.kept⟩
  intro e he
  refine ⟨?_, hinv.retired_dropped e he⟩
  by_contra hvalid
  exact (hinv.retired_dead e he).2 (Threads.live_of_endpointIsValid (by simpa using hvalid))

/-- A message from `sender` to the thread 5 in slot 0. -/
def note (sender generation : Nat) (isReply : Bool) (callId : Nat) : Message Unit where
  messageId := 0
  sender := sender
  toThread := 5
  toSlot := 0
  toGeneration := generation
  isReply := isReply
  expectsReply := false
  callId := callId
  len := 0
  data := []
  objectHandles := ⟨0, []⟩

/-- Thread 5 replaces its image while a message for its old image is queued, and receives before the old
    lifetime is retired. -/
def replaceWhileQueued : List (Label (Fin 3) Unit) :=
  [.reserve, .addThread 0 5 1, .startSend 0 false (note 7 1 false 0), .lockSend 0, .enqueue 0 true, .reserve,
    .replaceImage 1 5 2, .startSend 0 false (note 7 2 false 0), .lockSend 0, .enqueue 0 true,
    .startReceive 2 5 false none false, .lockReceive 2, .snapshot 2 true, .lockCommit 2, .commit 2, .retire 1]

theorem message_stays_with_lifetime_replaceWhileQueued :
    ∃ s : State (Fin 3) Unit, (system (Fin 3) Unit ⟨64, 4096⟩).Reachable s ∧
      (s.accepted.map Message.messageId = [1, 2] ∧ s.received.map (fun o => o.2.messageId) = [2] ∧
        s.retired = [⟨5, 0, 1⟩] ∧ (s.boxes 0).messages.map Message.messageId = []) ∧
      ∀ e ∈ s.retired, s.threads.endpointIsValid e = false ∧
        ∀ slot, ∀ m ∈ (s.boxes slot).messages, m.endpoint ≠ e := by
  obtain ⟨s, hs, hp⟩ := System.reachable_of_exec (system (Fin 3) Unit ⟨64, 4096⟩)
    State.initial replaceWhileQueued (fun s => s.accepted.map Message.messageId = [1, 2] ∧
      s.received.map (fun o => o.2.messageId) = [2] ∧ s.retired = [⟨5, 0, 1⟩] ∧
      (s.boxes 0).messages.map Message.messageId = []) rfl (by decide +kernel)
  exact ⟨s, hs, hp, (message_stays_with_lifetime hs).2.1⟩

end Mnu.Ipc
