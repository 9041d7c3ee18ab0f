import Mnu.Ipc.EndpointInv

/-!
# `Mnu.Ipc.Order` — the order in which messages are received

Two of the three removals keep the queue in order. `pop_reply_copy` does so only if the reply it takes out is
the first or the last of the queue: otherwise the messages before it end up behind those after it, and two
messages of one sender are received the wrong way round (`reply_pop_reorders`).

In a run in which every reply is taken from an end of its queue, the queues stay sorted by identity, that is
by the time of sending. A receive selects the first message for its lifetime, so what it commits is older than
anything it can still get; messages of other lifetimes in the same mailbox are dead by then. Hence the
messages received from a mailbox are, in order, among the messages sent to it.
-/

namespace Mnu.Ipc

open Mnu.Lib

/-! ## Removals from one mailbox -/

/-- The operations that take messages out of a mailbox. -/
inductive Removal where
  | commit (slot id : Nat)
  | retire (endpoint : IpcEndpoint)
  | popReply (filter : Mailbox.ReplyFilter)

namespace Removal

variable {ω : Type} {m : Mailbox ω}

/-- The mailbox after the removal. -/
def apply (m : Mailbox ω) (next : Nat) : Removal → Mailbox ω
  | .commit slot id => (m.commitReceive slot id next).1
  | .retire endpoint => (m.retireDestination endpoint next).1
  | .popReply filter => (m.popReply filter next).1

/-- The reply that is taken out, if there is one, is the first or the last of the queue. -/
def orderly (m : Mailbox ω) : Removal → Bool
  | .popReply filter =>
    (m.messages.findIdx? filter.accepts).all fun index => index = 0 || index + 1 = m.messages.length
  | _ => true

theorem sublist_middle {α : Type} (before after : List α) (x : α) :
    (before ++ after).Sublist (before ++ x :: after) :=
  (List.Sublist.refl before).append (List.sublist_cons_self x after)

theorem findIdx?_split {filter : Mailbox.ReplyFilter} {before after : List (Message ω)} {message : Message ω}
    (hm : m.messages = before ++ message :: after) (hacc : filter.accepts message = true)
    (hnone : ∀ x ∈ before, filter.accepts x = false) :
    m.messages.findIdx? filter.accepts = some before.length := by
  rw [hm, List.findIdx?_append, List.findIdx?_eq_none_iff.mpr hnone, List.findIdx?_cons, hacc]
  simp

/-- An orderly `pop_reply_copy` has nothing before the reply or nothing behind it. -/
theorem orderly_split {filter : Mailbox.ReplyFilter} {before after : List (Message ω)} {message : Message ω}
    (ho : (Removal.popReply filter).orderly m = true) (hm : m.messages = before ++ message :: after)
    (hacc : filter.accepts message = true) (hnone : ∀ x ∈ before, filter.accepts x = false) :
    before = [] ∨ after = [] := by
  simp only [orderly, findIdx?_split hm hacc hnone, Option.all_some, Bool.or_eq_true, decide_eq_true_eq] at ho
  rcases ho with ho | ho
  · exact .inl (List.length_eq_zero_iff.mp ho)
  · right
    rw [hm, List.length_append, List.length_cons] at ho
    exact List.length_eq_zero_iff.mp (by omega)

/-- **Removals keep the order**, if replies are taken from the ends. -/
theorem messages_sublist (h : m.Sound []) (next : Nat) (removal : Removal) (ho : removal.orderly m = true) :
    (removal.apply m next).messages.Sublist m.messages := by
  cases removal with
  | commit slot id =>
    show (m.commitReceive slot id next).1.messages.Sublist _
    rcases Mailbox.commitReceive_cases h slot id next with
      ⟨error, hc⟩ | ⟨m', message, before, after, hc, -, -, -, hm, hm', -, -⟩
    · rw [hc]
    · rw [hc, hm, hm']
      exact sublist_middle before after message
  | retire endpoint =>
    show (m.retireDestination endpoint next).1.messages.Sublist _
    obtain ⟨m', retired, hr, -, hm', -⟩ := Mailbox.retireDestination_spec h endpoint next
    rw [hr, hm']
    exact List.filter_sublist
  | popReply filter =>
    show (m.popReply filter next).1.messages.Sublist _
    rcases Mailbox.popReply_cases h filter next with
      ⟨m', hp, -, hm', -⟩ | ⟨m', message, before, after, hp, -, hacc, hnone, hm, hm', -, -⟩
    · rw [hp, hm']
    · rw [hp, hm, hm']
      rcases orderly_split ho hm hacc hnone with rfl | rfl
      · simp
      · simp

/-- In a list without repetition the second of two elements does not come before the first. -/
theorem not_sublist_rotated {α : Type} {before after : List α} {x : α} (hnodup : (before ++ x :: after).Nodup)
    (hsub : (after ++ before).Sublist (before ++ x :: after)) : before = [] ∨ after = [] := by
  rcases before with _ | ⟨b, before⟩
  · exact .inl rfl
  rcases after with _ | ⟨a, after⟩
  · exact .inr rfl
  have hpair : [a, b].Sublist ((a :: after) ++ b :: before) := by
    refine List.Sublist.cons_cons a (List.Sublist.trans ?_ (List.sublist_append_right _ _))
    exact List.singleton_sublist.mpr List.mem_cons_self
  have hmem : b ∈ before ++ x :: a :: after := by
    cases hpair.trans hsub with
    | cons _ hrest => exact hrest.subset (by simp)
    | cons_cons _ hrest => exact hrest.subset (by simp)
  exact absurd hmem (List.nodup_cons.mp hnodup).1

/-- **Only these do**, if the messages are distinct. -/
theorem orderly_of_sublist (h : m.Sound []) (next : Nat) (removal : Removal) (hnodup : m.messages.Nodup)
    (hsub : (removal.apply m next).messages.Sublist m.messages) : removal.orderly m = true := by
  cases removal with
  | commit _ _ | retire _ => rfl
  | popReply filter =>
    have hsub' : (m.popReply filter next).1.messages.Sublist m.messages := hsub
    rcases Mailbox.popReply_cases h filter next with
      ⟨m', hp, -, hm', hnone, -⟩ | ⟨m', message, before, after, hp, -, hacc, hnone, hm, hm', -, -⟩
    · rw [orderly, List.findIdx?_eq_none_iff.mpr hnone]
      rfl
    · rw [hp] at hsub'
      rw [hm'] at hsub'
      rw [hm] at hsub' hnodup
      have hidx : m.messages.findIdx? filter.accepts = some before.length := findIdx?_split hm hacc hnone
      rw [orderly, hidx, hm]
      rcases not_sublist_rotated hnodup hsub' with rfl | rfl
      · simp
      · simp

end Removal

namespace State

variable {ι ω : Type} {s s' : State ι ω} {a : ι} {e : IpcEndpoint} {config : Config}

/-- The messages that were received and are no replies, in the order of their receipt. -/
def ordinary (s : State ι ω) : List (Message ω) :=
  (s.received.map Prod.snd).filter fun m => !m.isReply

/-- Nobody can receive for this lifetime any more, now or later. -/
def Gone (s : State ι ω) (e : IpcEndpoint) : Prop :=
  s.Dead e ∧ ∀ a r slot message, s.pc a = .committing r slot message → r.endpoint ≠ e

/-- The invariant of the order. -/
structure OrderInv (s : State ι ω) : Prop where
  sorted : ∀ slot, (s.boxes slot).messages.Pairwise fun m m' => m.messageId < m'.messageId
  -- a selected message is the oldest of its lifetime for as long as it is queued
  first : ∀ a r slot m, s.pc a = .copying r slot m ∨ s.pc a = .committing r slot m → r.reply = none →
    ∀ q ∈ (s.boxes r.endpoint.slot).messages, q.endpoint = r.endpoint → m.messageId ≤ q.messageId
  -- while a receive commits, the other lifetimes in its mailbox are over
  others : ∀ a r slot m, s.pc a = .committing r slot m →
    ∀ q ∈ (s.boxes r.endpoint.slot).messages, q.endpoint ≠ r.endpoint → s.Dead q.endpoint
  older : ∀ m ∈ s.ordinary, ∀ q ∈ (s.boxes m.toSlot).messages, m.messageId < q.messageId ∨ s.Gone q.endpoint
  received : ∀ slot, (s.ordinary.filter fun m => m.toSlot = slot).Pairwise fun m m' =>
    m.messageId < m'.messageId

namespace OrderInv

theorem initial : OrderInv (State.initial : State ι ω) where
  sorted := fun _ => List.Pairwise.nil
  first := by simp [State.initial]
  others := by simp [State.initial]
  older := by simp [State.initial, State.ordinary]
  received := fun _ => List.Pairwise.nil

theorem gone_mono (hg : s.Gone e) (hdead : ∀ e, s.Dead e → s'.Dead e)
    (hcommit : ∀ b r slot m, s'.pc b = .committing r slot m → s.pc b = .committing r slot m) : s'.Gone e :=
  ⟨hdead e hg.1, fun b r slot m hb => hg.2 b r slot m (hcommit b r slot m hb)⟩

/-- Steps that only take messages out, receive no ordinary message and give nobody a snapshot. -/
theorem sub (o : OrderInv s) (hsub : ∀ slot, (s'.boxes slot).messages.Sublist (s.boxes slot).messages)
    (hord : s'.ordinary = s.ordinary) (hdead : ∀ e, s.Dead e → s'.Dead e)
    (hpc : ∀ b, s'.pc b = s.pc b ∨ Inv.holdsSnapshot (s'.pc b) = false) : OrderInv s' := by
  have hkeep : ∀ {b pc}, s'.pc b = pc → Inv.holdsSnapshot pc = true → s.pc b = pc := by
    rintro b _ rfl hholds
    rcases hpc b with hsame | hnone
    · exact hsame.symm
    · rw [hholds] at hnone
      cases hnone
  refine ⟨?_, ?_, ?_, ?_, ?_⟩
  · exact fun slot => (o.sorted slot).sublist (hsub slot)
  · intro b r slot m hb hreply q hq hend
    exact o.first b r slot m (hb.imp (hkeep · rfl) (hkeep · rfl)) hreply q ((hsub _).subset hq) hend
  · intro b r slot m hb q hq hne
    exact hdead _ (o.others b r slot m (hkeep hb rfl) q ((hsub _).subset hq) hne)
  · intro m hm q hq
    exact (o.older m (hord ▸ hm) q ((hsub _).subset hq)).imp_right
      (gone_mono · hdead fun _ _ _ _ hb => hkeep hb rfl)
  · rw [hord]
    exact o.received

/-! ## The steps, kind by kind -/

variable [DecidableEq ι] {r : Receive} {slot : Nat} {pc : Pc ω} (o : OrderInv s) (h : Inv s)

theorem quiet_goto (t : State ι ω) (a b : ι) (hpc : Inv.holdsSnapshot pc = false) :
    (t.goto a pc).pc b = t.pc b ∨ Inv.holdsSnapshot ((t.goto a pc).pc b) = false := by
  rw [Inv.goto_pc]
  split
  · exact .inr hpc
  · exact .inl rfl

omit [DecidableEq ι] in
/-- A mailbox that is set to a part of itself. -/
theorem setBox_sublist {box : Mailbox ω} (hsub : box.messages.Sublist (s.boxes slot).messages)
    (slot' : Nat) : ((s.setBox slot box).boxes slot').messages.Sublist (s.boxes slot').messages := by
  rw [Inv.boxes_setBox]
  split
  · rename_i hslot
    rwa [hslot]
  · exact List.Sublist.refl _

include o h in
theorem locked (hlive : s.threads.Live e)
    (hcommit : ∀ r slot message, pc = .committing r slot message →
      s.pc a = .copying r slot message ∧ r.endpoint = e)
    (hcopy : ∀ r slot message, pc ≠ .copying r slot message) :
    OrderInv ({ s with lock := some a }.goto a pc) := by
  have hpc : ∀ b, ({ s with lock := some a }.goto a pc).pc b = if b = a then pc else s.pc b :=
    fun b => Inv.goto_pc _ a b pc
  refine ⟨o.sorted, ?_, ?_, ?_, o.received⟩
  · intro b r slot m hb hreply
    apply o.first b r slot m ?_ hreply
    rw [hpc] at hb
    by_cases hba : b = a
    · rw [if_pos hba] at hb
      rcases hb with hb | hb
      · exact absurd hb (hcopy r slot m)
      · exact .inl (hba ▸ (hcommit r slot m hb).1)
    · rwa [if_neg hba] at hb
  · intro b r slot m hb q hq hne
    rw [hpc] at hb
    by_cases hba : b = a
    · -- the lifetime that was checked has the slot, so no other one in this mailbox has it
      rw [if_pos hba] at hb
      obtain ⟨-, rfl⟩ := hcommit r slot m hb
      obtain ⟨hacc, hslot⟩ := h.queued_accepted _ q hq
      refine ⟨(h.accepted_issued q hacc).2.2, fun hq => hne ?_⟩
      exact hq.occupies.unique hlive.occupies hslot
    · rw [if_neg hba] at hb
      exact o.others b r slot m hb q hq hne
  · intro m hm q hq
    rcases o.older m hm q hq with hlt | ⟨hd, hno⟩
    · exact .inl hlt
    · refine .inr ⟨hd, ?_⟩
      intro b r slot message hb
      rw [hpc] at hb
      by_cases hba : b = a
      · rw [if_pos hba] at hb
        obtain ⟨-, hend⟩ := hcommit r slot message hb
        intro heq
        apply hd.2
        rwa [← heq, hend]
      · rw [if_neg hba] at hb
        exact hno b r slot message hb

/-- A section under the lock ends: nobody commits, and nobody else has moved. -/
theorem section_end {pc : ι → Pc ω} (h : Inv s) (hlock : s.lock = some a)
    (hpc : ∀ b, pc b = if b = a then .idle else s.pc b) : (∀ b r slot m, pc b ≠ .committing r slot m) ∧
      ∀ b r slot m, pc b = .copying r slot m → s.pc b = .copying r slot m := by
  constructor
  · intro b r slot m hb
    rw [hpc] at hb
    split at hb
    · cases hb
    rename_i hba
    have hunlocked := h.unlocked_of_ne (.inr hlock) hba
    rw [hb] at hunlocked
    cases hunlocked
  · intro b r slot m hb
    rw [hpc] at hb
    split at hb
    · cases hb
    · exact hb

include o h in
theorem enqueueStep {kernel : Bool} {message : Message ω}
    (hpc : s.pc a = .sendChecked kernel message) (allocated : Bool) :
    OrderInv (s.enqueueStep config a kernel message allocated) := by
  have hlock : s.lock = some a := (h.lock_iff a).mpr (by rw [hpc]; rfl)
  have hok := h.pcs a
  rw [hpc] at hok
  rcases h.enqueueStep_cases config hok.1 allocated with ⟨box, -, hmessages, heq⟩ | ⟨box, -, hmessages, heq⟩
  · rw [heq]
    exact o.sub (setBox_sublist (by rw [hmessages])) rfl (fun _ hd => hd) fun b => quiet_goto _ a b rfl
  · rw [heq]
    -- the new message is younger than everything accepted before
    have hqueued : ∀ slot, ∀ q ∈ ((s.setBox message.toSlot box).boxes slot).messages,
        q ∈ (s.boxes slot).messages ∨ q.messageId = s.nextMessageId := by
      intro slot q hq
      rw [Inv.boxes_setBox] at hq
      split at hq
      · rename_i hslot
        rw [hmessages] at hq
        rcases List.mem_append.mp hq with hq | hq
        · exact .inl (hslot ▸ hq)
        · rw [List.mem_singleton.mp hq]
          exact .inr rfl
      · exact .inl hq
    obtain ⟨hnone, hcopy⟩ := section_end h hlock fun b => Inv.goto_pc s a b .idle
    refine ⟨?_, ?_, ?_, ?_, o.received⟩
    · intro slot
      show ((s.setBox message.toSlot box).boxes slot).messages.Pairwise _
      rw [Inv.boxes_setBox]
      split
      · rename_i hslot
        rw [hmessages]
        refine List.pairwise_append.mpr ⟨hslot ▸ o.sorted slot, List.pairwise_singleton _ _, ?_⟩
        intro q hq q' hq'
        rw [List.mem_singleton.mp hq']
        exact h.accepted_lt q (h.queued_accepted _ q hq).1
      · exact o.sorted slot
    · intro b r slot m hb hreply q hq hend
      rcases hb with hb | hb
      · have hb' := hcopy b r slot m hb
        rcases hqueued _ q hq with hq | hq
        · exact o.first b r slot m (.inl hb') hreply q hq hend
        · have hokb := h.pcs b
          rw [hb'] at hokb
          exact hq ▸ (h.accepted_lt m hokb.1).le
      · exact absurd hb (hnone b r slot m)
    · exact fun b r slot m hb => absurd hb (hnone b r slot m)
    · intro m hm q hq
      rcases hqueued _ q hq with hq | hnew
      · exact (o.older m hm q hq).imp_right (gone_mono (s := s) · (fun _ hd => hd) fun b r slot m hb =>
          absurd hb (hnone b r slot m))
      · have hmem : m ∈ s.received.map Prod.snd := List.mem_of_mem_filter hm
        obtain ⟨obs, hobs, rfl⟩ := List.mem_map.mp hmem
        rw [hnew]
        exact .inl (h.accepted_lt _ (h.observed obs (List.mem_append_right _ hobs)).1)

theorem snapshotStep (o : OrderInv s) (allocated : Bool) : OrderInv (s.snapshotStep a r allocated) := by
  unfold State.snapshotStep
  dsimp only
  split
  · exact o.sub (fun _ => List.Sublist.refl _) rfl (fun _ hd => hd) fun b => quiet_goto _ a b rfl
  · split
    · refine o.sub ?_ rfl (fun _ hd => hd) fun b => quiet_goto _ a b rfl
      exact setBox_sublist (List.Sublist.refl _)
    · exact o.sub (fun _ => List.Sublist.refl _) rfl (fun _ hd => hd) fun b => quiet_goto _ a b rfl
  · rename_i slot message hsome
    obtain ⟨-, hsel, before, after, hmessages, hnone⟩ := Mailbox.snapshotReceive_some hsome
    have hpc : ∀ b, (({ s with lock := none, seen := s.seen ++ [(r.endpoint, message)] } : State ι ω).goto a
        (.copying r slot message)).pc b = if b = a then .copying r slot message else s.pc b :=
      fun b => Inv.goto_pc _ a b _
    have hcommit : ∀ b r' slot' m, (({ s with lock := none, seen := s.seen ++ [(r.endpoint, message)] } :
        State ι ω).goto a (.copying r slot message)).pc b = .committing r' slot' m →
        s.pc b = .committing r' slot' m := by
      intro b r' slot' m hb
      rw [hpc] at hb
      split at hb
      · cases hb
      · exact hb
    refine ⟨o.sorted, ?_, ?_, ?_, o.received⟩
    · intro b r' slot' m hb hreply q hq hend
      rcases hb with hb | hb
      · rw [hpc] at hb
        split at hb
        · -- the message just selected: those before it in the queue are of other lifetimes
          cases hb
          have hq' : q ∈ (s.boxes r.endpoint.slot).messages := hq
          have hsorted := o.sorted r.endpoint.slot
          rw [hmessages] at hq' hsorted
          rcases List.mem_append.mp hq' with hq' | hq'
          · have hno := hnone q hq'
            simp [Mailbox.selects, hreply, hend] at hno
          · rcases List.mem_cons.mp hq' with rfl | hq'
            · exact Nat.le_refl _
            · exact (List.rel_of_pairwise_cons (List.pairwise_append.mp hsorted).2.1 hq').le
        · exact o.first b r' slot' m (.inl hb) hreply q hq hend
      · exact o.first b r' slot' m (.inr (hcommit b r' slot' m hb)) hreply q hq hend
    · exact fun b r' slot' m hb => o.others b r' slot' m (hcommit b r' slot' m hb)
    · intro m hm q hq
      exact (o.older m hm q hq).imp_right (gone_mono (s := s) · (fun _ hd => hd) hcommit)

include o h

theorem retireStep : OrderInv (s.retireStep a e) := by
  unfold State.retireStep
  split
  · obtain ⟨box, retired, hr, hbox, hmessages, -⟩ :=
      Mailbox.retireDestination_spec (h.sound e.slot) e s.nextMessageId
    rw [hr]
    dsimp only
    refine o.sub ?_ rfl (fun _ hd => hd) fun b => quiet_goto _ a b rfl
    apply setBox_sublist
    rw [(Inv.sound_clearIf hbox _).2, hmessages]
    exact List.filter_sublist
  · exact o.sub (fun _ => List.Sublist.refl _) rfl (fun _ hd => hd) fun b => quiet_goto _ a b rfl

theorem popReplyStep {filter : Mailbox.ReplyFilter}
    (horder : (Removal.popReply filter).orderly (s.boxes filter.receiver.slot) = true) :
    OrderInv (s.popReplyStep a filter) := by
  have hkeep : ((s.boxes filter.receiver.slot).popReply filter s.nextMessageId).1.messages.Sublist _ :=
    Removal.messages_sublist (h.sound filter.receiver.slot) s.nextMessageId (.popReply filter) horder
  unfold State.popReplyStep
  dsimp only
  rcases Mailbox.popReply_cases (h.sound filter.receiver.slot) filter s.nextMessageId with
    ⟨box, hp, -⟩ | ⟨box, message, before, after, hp, -, hacc, -⟩
  · rw [hp] at hkeep ⊢
    exact o.sub (setBox_sublist hkeep) rfl (fun _ hd => hd) fun b => .inl rfl
  · rw [hp] at hkeep ⊢
    refine o.sub (setBox_sublist hkeep) ?_ (fun _ hd => hd) fun b => quiet_goto _ a b rfl
    -- what is taken out is a reply
    have hreply : message.isReply = true := by
      simp only [Mailbox.ReplyFilter.accepts, Bool.and_eq_true] at hacc
      exact hacc.2
    show ((s.received ++ [(filter.receiver, message)]).map Prod.snd).filter _ = _
    simp [ordinary, hreply]

/-- The message that is committed leaves the queue and is the youngest received so far. -/
theorem committed {m : Message ω} {before after : List (Message ω)} (hpc : s.pc a = .committing r slot m)
    (hsel : Mailbox.selects r.endpoint r.reply m = true) (hend : m.endpoint = r.endpoint)
    (hmessages : (s.boxes r.endpoint.slot).messages = before ++ m :: after)
    (hdead : ∀ e, s.Dead e → s'.Dead e) (hpc' : ∀ b, s'.pc b = if b = a then .idle else s.pc b)
    (hreceived : s'.received = s.received ++ [(r.endpoint, m)])
    (hrest : (s'.boxes r.endpoint.slot).messages = before ++ after)
    (hsame : ∀ slot, slot ≠ r.endpoint.slot → (s'.boxes slot).messages = (s.boxes slot).messages) :
    OrderInv s' := by
  have hslot : m.toSlot = r.endpoint.slot := congrArg IpcEndpoint.slot hend
  have hlock : s.lock = some a := (h.lock_iff a).mpr (by rw [hpc]; rfl)
  have hsub : ∀ slot, (s'.boxes slot).messages.Sublist (s.boxes slot).messages := by
    intro slot
    by_cases hs : slot = r.endpoint.slot
    · rw [hs, hrest, hmessages]
      exact Removal.sublist_middle before after m
    · rw [hsame slot hs]
  obtain ⟨hnone, hcopy⟩ := section_end h hlock hpc'
  have hord : s'.ordinary = s.ordinary ++ if m.isReply then [] else [m] := by
    unfold ordinary
    rw [hreceived, List.map_append, List.filter_append]
    cases hm : m.isReply <;> simp [hm]
  have hsorted := o.sorted r.endpoint.slot
  rw [hmessages] at hsorted
  -- an ordinary message is not selected by a receive that waits for a reply
  have hreply : m.isReply = false → r.reply = none := by
    intro hm
    cases hr : r.reply with
    | none => rfl
    | some call =>
      simp only [Mailbox.selects, hr, hm, Option.all_some, Bool.and_false] at hsel
      cases hsel
  have hyounger : m.isReply = false → ∀ q ∈ before ++ after, m.messageId < q.messageId ∨
    s'.Gone q.endpoint := by
    intro hm q hq
    have hq' : q ∈ (s.boxes r.endpoint.slot).messages := by
      rw [hmessages]
      exact (Removal.sublist_middle before after m).subset hq
    by_cases hqe : q.endpoint = r.endpoint
    · left
      refine lt_of_le_of_ne (o.first a r slot m (.inr hpc) (hreply hm) q hq' hqe) ?_
      -- the same identity twice would be the same message twice
      have hpair := (List.pairwise_append.mp hsorted)
      rcases List.mem_append.mp hq with hq | hq
      · exact (hpair.2.2 q hq m List.mem_cons_self).ne'
      · exact (List.rel_of_pairwise_cons hpair.2.1 hq).ne
    · exact .inr ⟨hdead _ (o.others a r slot m hpc q hq' hqe), fun b r' slot' m' hb =>
        absurd hb (hnone b r' slot' m')⟩
  refine ⟨fun slot => (o.sorted slot).sublist (hsub slot), ?_, ?_, ?_, ?_⟩
  · intro b r' slot' m' hb hr q hq hqe
    rcases hb with hb | hb
    · exact o.first b r' slot' m' (.inl (hcopy b r' slot' m' hb)) hr q ((hsub _).subset hq) hqe
    · exact absurd hb (hnone b r' slot' m')
  · exact fun b r' slot' m' hb => absurd hb (hnone b r' slot' m')
  · intro m' hm' q hq
    rw [hord] at hm'
    rcases List.mem_append.mp hm' with hm' | hm'
    · exact (o.older m' hm' q ((hsub _).subset hq)).imp_right
        (gone_mono · hdead fun b r slot m hb => absurd hb (hnone b r slot m))
    · cases hm : m.isReply with
      | true => simp [hm] at hm'
      | false =>
        obtain rfl : m' = m := by simpa [hm] using hm'
        rw [hslot, hrest] at hq
        exact hyounger hm q hq
  · intro slot'
    rw [hord, List.filter_append]
    refine List.pairwise_append.mpr ⟨o.received slot', ?_, ?_⟩
    · exact List.Pairwise.filter _ (by split <;> simp)
    · intro m' hm' m'' hm''
      obtain ⟨hm'', hslot''⟩ := List.mem_filter.mp hm''
      obtain ⟨hm', hslot'⟩ := List.mem_filter.mp hm'
      cases hm : m.isReply with
      | true => simp [hm] at hm''
      | false =>
        obtain rfl : m'' = m := by simpa [hm] using hm''
        have heq : m'.toSlot = r.endpoint.slot := by
          rw [← hslot]
          exact (of_decide_eq_true hslot').trans (of_decide_eq_true hslot'').symm
        rcases o.older m' hm' m'' (by rw [heq, hmessages]; simp) with hlt | hgone
        · exact hlt
        · exact absurd hend.symm (hgone.2 a r slot m'' hpc)

omit o h

omit [DecidableEq ι] in
theorem messages_addReplyTarget {t : State ι ω} (hsound : ∀ slot, (t.boxes slot).Sound [])
    (caller endpoint callId : Nat) (owner : Nat × Nat) (slot : Nat) :
    ((t.setBox caller ((t.boxes caller).addReplyTarget endpoint callId owner)).boxes slot).messages =
      (t.boxes slot).messages := by
  rw [Inv.boxes_setBox]
  split
  · rename_i heq
    rw [heq, (Inv.sound_addReplyTarget (hsound caller) _ _ _).2]
  · rfl

include o h in
theorem commitStep {snapshot : Message ω}
    (hpc : s.pc a = .committing r slot snapshot) : OrderInv (s.commitStep a r slot snapshot) := by
  unfold State.commitStep
  rcases Mailbox.commitReceive_cases (h.sound r.endpoint.slot) slot snapshot.messageId s.nextMessageId with
    ⟨error, hc⟩ | ⟨box, message, before, after, hc, hbox, -, hid, hmessages, hrest, -, -⟩
  · rw [hc]
    exact o.sub (setBox_sublist (List.Sublist.refl _)) rfl (fun _ hd => hd) fun b => quiet_goto _ a b rfl
  · obtain ⟨rfl, -, hsel, hend⟩ := h.commit_eq hpc hmessages hid
    have hbox' : ((s.setBox r.endpoint.slot box).boxes r.endpoint.slot).messages = before ++ after := by
      rw [Inv.boxes_setBox, if_pos rfl, hrest]
    have hsame : ∀ slot', slot' ≠ r.endpoint.slot →
        ((s.setBox r.endpoint.slot box).boxes slot').messages = (s.boxes slot').messages := by
      intro slot' hne
      rw [Inv.boxes_setBox, if_neg hne]
    rw [hc]
    dsimp only
    split
    · -- the reply target is recorded in the caller's mailbox, which keeps its messages
      rename_i callerSlot generation _
      have hsound : ∀ slot', ((s.setBox r.endpoint.slot box).boxes slot').Sound [] := by
        intro slot'
        rw [Inv.boxes_setBox]
        split
        · exact hbox
        · exact h.sound slot'
      have hkeep := messages_addReplyTarget (t := s.setBox r.endpoint.slot box)
        hsound callerSlot message.sender message.callId (r.endpoint.threadId, generation)
      refine o.committed h hpc hsel hend hmessages (fun _ hd => hd)
        (fun b => Inv.goto_pc s a b .idle) rfl ?_ ?_
      · exact (hkeep r.endpoint.slot).trans hbox'
      · exact fun slot' hne => (hkeep slot').trans (hsame slot' hne)
    · exact o.committed h hpc hsel hend hmessages (fun _ hd => hd)
        (fun b => Inv.goto_pc s a b .idle) rfl hbox' hsame

end OrderInv

variable [DecidableEq ι]

/-- The condition on a step: a call from inside the kernel finds its reply at an end of the queue, or not. -/
def inOrder (s : State ι ω) : Label ι ω → Bool
  | .popReply a =>
    match s.pc a with
    | .awaitReply filter => (Removal.popReply filter).orderly (s.boxes filter.receiver.slot)
    | _ => true
  | _ => true

theorem OrderInv.step {l : Label ι ω} (o : OrderInv s) (h : Inv s)
    (hok : s.inOrder l = true) (hs : s.step config l = some s') : OrderInv s' := by
  cases h.kind hs with
  | table r =>
    refine o.sub (fun slot => by rw [r.boxes]) (by unfold ordinary; rw [r.received]) (fun _ => r.dead) ?_
    intro b
    rcases r.pc b with hsame | ⟨-, e, hret, -⟩
    · exact .inl hsame
    · exact .inr (by rw [hret]; rfl)
  | move a pc _ hquiet _ _ =>
    exact o.sub (fun _ => List.Sublist.refl _) rfl (fun _ hd => hd) fun b => OrderInv.quiet_goto s a b hquiet
  | lock a pc e _ hlive _ hpc _ hcommit =>
    refine o.locked h hlive hcommit ?_
    rintro r slot message rfl
    cases hpc
  | enqueue a kernel message allocated hpc => exact o.enqueueStep h hpc allocated
  | snapshot a r allocated _ => exact o.snapshotStep allocated
  | commit a r slot message hpc => exact o.commitStep h hpc
  | popReply a filter _ hpc =>
    simp only [inOrder, hpc] at hok
    exact o.popReplyStep h hok
  | retire a e _ _ => exact o.retireStep h

omit [DecidableEq ι] in
/-- The messages a mailbox has delivered are among those it has accepted, in the same order. -/
theorem OrderInv.sublist_accepted (o : OrderInv s) (h : Inv s) (slot sender : Nat) :
    (s.ordinary.filter fun m => m.sender = sender && m.toSlot = slot).Sublist s.accepted := by
  have hfilter : (s.ordinary.filter fun m => m.sender = sender && m.toSlot = slot).Pairwise
      fun m m' => m.messageId < m'.messageId := by
    rw [← List.filter_filter]
    exact (o.received slot).filter _
  have : Std.Antisymm (fun m m' : Message ω => m.messageId < m'.messageId) :=
    ⟨fun _ _ hlt hgt => absurd hgt (Nat.lt_asymm hlt)⟩
  refine List.sublist_of_subperm_of_pairwise (List.Nodup.subperm ?_ ?_) hfilter h.accepted_sorted
  · exact hfilter.imp fun hlt heq => by simp [heq] at hlt
  · intro m hm
    have hmem : m ∈ s.received.map Prod.snd := List.mem_of_mem_filter (List.mem_of_mem_filter hm)
    obtain ⟨obs, hobs, rfl⟩ := List.mem_map.mp hmem
    exact (h.observed obs (List.mem_append_right _ hobs)).1

end State

/-! ## The order of receipt -/

/-- **Removals keep the order of the rest, and messages are received in the order of sending**, as long as
    `pop_reply_copy` finds its reply at an end of the queue. If the messages are distinct, a removal keeps the
    order only then; and in every run whose steps all meet this condition, the ordinary messages of one sender
    received from a mailbox are, in this order, among the messages accepted. -/
theorem messages_received_in_order {ι ω : Type} [DecidableEq ι] (config : Config) :
    (∀ (m : Mailbox ω) (next : Nat) (removal : Removal), m.Sound [] →
      (removal.orderly m = true → (removal.apply m next).messages.Sublist m.messages) ∧
      (m.messages.Nodup → (removal.apply m next).messages.Sublist m.messages → removal.orderly m = true)) ∧
      ∀ s : State ι ω, (system ι ω config).Reach (fun s l => s.inOrder l = true) s →
        (∀ slot, (s.boxes slot).Sound []) ∧ ∀ slot sender,
          (s.ordinary.filter fun m => m.sender = sender && m.toSlot = slot).Sublist s.accepted := by
  refine ⟨fun m next removal h => ⟨Removal.messages_sublist h next removal,
    Removal.orderly_of_sublist h next removal⟩, ?_⟩
  intro s hs
  have hinv : s.Inv ∧ s.OrderInv := by
    refine System.Reach.invariant (I := fun s : State ι ω => s.Inv ∧ s.OrderInv) ?_ ?_ hs
    · rintro s rfl
      exact ⟨State.Inv.initial, State.OrderInv.initial⟩
    · rintro s l s' ⟨h, o⟩ hok hstep
      exact ⟨h.step hstep, o.step h hok hstep⟩
  exact ⟨hinv.1.sound, fun slot sender => hinv.2.sublist_accepted hinv.1 slot sender⟩

/-- Thread 5 calls a provider from inside the kernel; the reply comes between two messages of sender 7, and
    thread 5 receives these afterwards. -/
def replyBetween : List (Label (Fin 2) Unit) :=
  [.reserve, .addThread 0 5 1, .startReply 1 5 9 3,
    .startSend 0 false (note 7 1 false 0), .lockSend 0, .enqueue 0 true,
    .startSend 0 false (note 9 1 true 3), .lockSend 0, .enqueue 0 true,
    .startSend 0 false (note 7 1 false 0), .lockSend 0, .enqueue 0 true, .popReply 1,
    .startReceive 1 5 false none false, .lockReceive 1, .snapshot 1 true, .lockCommit 1, .commit 1,
    .startReceive 1 5 false none false, .lockReceive 1, .snapshot 1 true, .lockCommit 1, .commit 1]

/-- The first message of sender 7 is received after the second. -/
theorem reply_pop_reorders : ∃ s : State (Fin 2) Unit, (system (Fin 2) Unit ⟨64, 4096⟩).Reachable s ∧
      s.accepted.map (fun m => (m.messageId, m.sender)) = [(1, 7), (2, 9), (3, 7)] ∧
      (s.ordinary.filter fun m => m.sender = 7 && m.toSlot = 0).map Message.messageId = [3, 1] ∧
      ¬ (s.ordinary.filter fun m => m.sender = 7 && m.toSlot = 0).Sublist s.accepted := by
  obtain ⟨s, hs, hsent, hreceived⟩ := System.reachable_of_exec
    (system (Fin 2) Unit ⟨64, 4096⟩) State.initial replyBetween
    (fun s => s.accepted.map (fun m => (m.messageId, m.sender)) = [(1, 7), (2, 9), (3, 7)] ∧
      (s.ordinary.filter fun m => m.sender = 7 && m.toSlot = 0).map Message.messageId = [3, 1]) rfl
        (by decide +kernel)
  refine ⟨s, hs, hsent, hreceived, fun hsub => ?_⟩
  have hids := hsub.map fun m => (m.messageId, m.sender)
  rw [hsent] at hids
  have hids' := hids.map Prod.fst
  rw [List.map_map] at hids'
  have hfst : (Prod.fst ∘ fun m : Message Unit => (m.messageId, m.sender)) = Message.messageId := rfl
  rw [hfst, hreceived] at hids'
  exact absurd hids' (by decide)

/-- Two messages of sender 7, and the reply behind both. -/
def replyBehind : List (Label (Fin 2) Unit) :=
  [.reserve, .addThread 0 5 1, .startReply 1 5 9 3,
    .startSend 0 false (note 7 1 false 0), .lockSend 0, .enqueue 0 true,
    .startSend 0 false (note 7 1 false 0), .lockSend 0, .enqueue 0 true,
    .startSend 0 false (note 9 1 true 3), .lockSend 0, .enqueue 0 true]

/-- The reply is taken out, and the messages are received. -/
def replyLast : List (Label (Fin 2) Unit) :=
  replyBehind ++ [.popReply 1,
    .startReceive 1 5 false none false, .lockReceive 1, .snapshot 1 true, .lockCommit 1, .commit 1,
    .startReceive 1 5 false none false, .lockReceive 1, .snapshot 1 true, .lockCommit 1, .commit 1]

theorem messages_received_in_order_replyLast :
    (∃ s : State (Fin 2) Unit, (s.boxes 0).messages.map Message.messageId = [1, 2, 3] ∧
      ((Removal.popReply ⟨9, 3, ⟨5, 0, 1⟩⟩).apply (s.boxes 0) 4).messages.map Message.messageId = [1, 2] ∧
      ((Removal.popReply ⟨9, 3, ⟨5, 0, 1⟩⟩).apply (s.boxes 0) 4).messages.Sublist (s.boxes 0).messages) ∧
    ∃ s : State (Fin 2) Unit, (system (Fin 2) Unit ⟨64, 4096⟩).Reach (fun s l => s.inOrder l = true) s ∧
      s.ordinary.map Message.messageId = [1, 2] ∧
      (s.ordinary.filter fun m => m.sender = 7 && m.toSlot = 0).Sublist s.accepted := by
  constructor
  · obtain ⟨s, hs, hqueued, hleft, horderly⟩ := System.reach_of_exec
      (system (Fin 2) Unit ⟨64, 4096⟩) State.inOrder
      State.initial replyBehind (fun s => (s.boxes 0).messages.map Message.messageId = [1, 2, 3] ∧
        ((Removal.popReply ⟨9, 3, ⟨5, 0, 1⟩⟩).apply (s.boxes 0) 4).messages.map Message.messageId = [1, 2] ∧
        (Removal.popReply ⟨9, 3, ⟨5, 0, 1⟩⟩).orderly (s.boxes 0) = true) rfl (by decide +kernel)
    obtain ⟨hremovals, hruns⟩ := messages_received_in_order (ι := Fin 2) (ω := Unit) ⟨64, 4096⟩
    exact ⟨s, hqueued, hleft, (hremovals _ 4 _ ((hruns s hs).1 0)).1 horderly⟩
  · obtain ⟨s, hs, hp⟩ := System.reach_of_exec (system (Fin 2) Unit ⟨64, 4096⟩) State.inOrder State.initial
      replyLast (fun s => s.ordinary.map Message.messageId = [1, 2]) rfl (by decide +kernel)
    exact ⟨s, hs, hp, ((messages_received_in_order ⟨64, 4096⟩).2 s hs).2 0 7⟩

end Mnu.Ipc
