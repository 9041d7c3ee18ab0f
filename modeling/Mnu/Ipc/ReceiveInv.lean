import Mnu.Lib.Update
import Mnu.Ipc.Receive
import Mnu.Ipc.EndpointInv

/-!
# `Mnu.Ipc.ReceiveInv` — when a receive call is all or nothing

Two facts about the rest of the kernel carry the argument. A queued message is determined by its identity, so
what a call commits to is the message it copied out (`Seen`). A reservation is determined by its ticket, so
what a call publishes is what it reserved (`Ticketed`). Both survive everything the others do (`Evolves`).

The call commits to the message before it installs the attachments, and nothing puts the message back. So the
call is all or nothing for as long as the installation does not fail (`installs`).
-/

namespace Mnu.Ipc

open Mnu.Lib Mnu.Task Function

variable {ω : Type} {message : Message ω} {pid : Nat} {table' : ObjectHandleTable ω}

namespace Kernel

variable {k k' : Kernel ω} {slot : Nat} {box : Mailbox ω}

/-! ## The kernel between the steps of the call -/

/-- What every operation keeps. -/
structure Ok (k : Kernel ω) : Prop where
  sound : ∀ slot, (k.boxes slot).Sound []
  few : ∀ slot, ∀ m ∈ (k.boxes slot).messages, m.objectHandles.handles.length ≤ maxObjectHandles
  issued : ∀ slot, ∀ m ∈ (k.boxes slot).messages, m.messageId < k.nextMessageId
  unique : ∀ slot slot', ∀ m ∈ (k.boxes slot).messages, ∀ m' ∈ (k.boxes slot').messages,
    m.messageId = m'.messageId → m = m'
  next_ne : k.nextMessageId ≠ 0
  tables : ∀ pid table, k.tables pid = some table → table.Sound
  spawned : ∀ pid table, k.tables pid = some table → pid < k.nextProcess

/-- What the kernel keeps of its past: an old identity names an old message, and an old ticket an old
    reservation. -/
structure Evolves (k k' : Kernel ω) : Prop where
  next_le : k.nextMessageId ≤ k'.nextMessageId
  messages : ∀ slot, ∀ m ∈ (k'.boxes slot).messages,
    (∃ slot', m ∈ (k.boxes slot').messages) ∨ k.nextMessageId ≤ m.messageId
  process_le : k.nextProcess ≤ k'.nextProcess
  tables : ∀ pid table', pid < k.nextProcess → k'.tables pid = some table' →
    ∃ table, k.tables pid = some table ∧ table.Evolves table'

theorem ok_boot : (boot : Kernel ω).Ok where
  sound := fun _ => Mailbox.sound_new
  few := by
    intro slot m hm
    cases hm
  issued := by
    intro slot m hm
    cases hm
  unique := by
    intro slot slot' m hm
    cases hm
  next_ne := Nat.one_ne_zero
  tables := by
    intro pid table h
    cases h
  spawned := by
    intro pid table h
    cases h

theorem boxes_setBox (k : Kernel ω) (slot slot' : Nat) (box : Mailbox ω) :
    (k.setBox slot box).boxes slot' = if slot' = slot then box else k.boxes slot' :=
  update_apply _ _ _ _

theorem tables_setTable (k : Kernel ω) (pid pid' : Nat) (table : ObjectHandleTable ω) :
    (k.setTable pid table).tables pid' = if pid' = pid then some table else k.tables pid' :=
  update_apply _ _ _ _

/-- A mailbox changes: its messages are among those of before, and a new one has the next identity. -/
theorem Ok.setBox (h : Ok k) (hbox : box.Sound []) {next : Nat} (hle : k.nextMessageId ≤ next)
    (new : Option (Message ω)) (hmem : ∀ m ∈ box.messages, m ∈ (k.boxes slot).messages ∨ m ∈ new)
    (hnew : ∀ m ∈ new, m.messageId = k.nextMessageId ∧ k.nextMessageId < next ∧
      m.objectHandles.handles.length ≤ maxObjectHandles) :
    Ok { k.setBox slot box with nextMessageId := next } ∧
      Evolves k { k.setBox slot box with nextMessageId := next } := by
  have hold : ∀ slot', ∀ m ∈ (update k.boxes slot box slot').messages,
    m ∈ (k.boxes slot').messages ∨ m ∈ new := by
    intro slot' m hm
    rcases of_update (P := (m ∈ Mailbox.messages ·)) hm with ⟨rfl, hin⟩ | ⟨-, hin⟩
    · exact hmem m hin
    · exact .inl hin
  refine ⟨⟨?_, ?_, ?_, ?_, ?_, h.tables, h.spawned⟩, hle, ?_, Nat.le_refl _,
    fun pid table _ ht => ⟨table, ht, .same rfl rfl⟩⟩
  · intro slot'
    show (update k.boxes slot box slot').Sound []
    rw [update_apply]
    split
    · exact hbox
    · exact h.sound slot'
  · intro slot' m hm
    exact (hold slot' m hm).elim (h.few slot' m) fun hm => (hnew m hm).2.2
  · intro slot' m hm
    rcases hold slot' m hm with hm | hm
    · exact (h.issued slot' m hm).trans_le hle
    · exact (hnew m hm).1.trans_lt (hnew m hm).2.1
  · -- the new identity is above all the old ones
    intro s₁ s₂ x hx y hy hid
    rcases hold s₁ x hx with hx | hx <;> rcases hold s₂ y hy with hy | hy
    · exact h.unique s₁ s₂ x hx y hy hid
    · exact absurd (hid.trans (hnew y hy).1) (h.issued s₁ x hx).ne
    · exact absurd (hid.symm.trans (hnew x hx).1) (h.issued s₂ y hy).ne
    · exact Option.mem_unique hx hy
  · exact Nat.ne_of_gt ((Nat.pos_of_ne_zero h.next_ne).trans_le hle)
  · intro slot' m hm
    exact (hold slot' m hm).imp (fun hm => ⟨slot', hm⟩) fun hm => (hnew m hm).1.ge

/-- Messages leave a mailbox, or stay. -/
theorem Ok.removes (h : Ok k) (hbox : box.Sound []) (hsub : ∀ m ∈ box.messages, m ∈ (k.boxes slot).messages) :
    Ok (k.setBox slot box) ∧ Evolves k (k.setBox slot box) :=
  h.setBox hbox (Nat.le_refl _) none (fun m hm => .inl (hsub m hm)) nofun

/-- A message is handed over; `sent` is what its mailbox makes of it. -/
theorem Ok.sends (h : Ok k) {sent : Mailbox ω × Nat × Bool} (hout : message.outgoing = true)
    (hq : message.messageId = 0 → (k.boxes slot).Queues message k.nextMessageId sent) :
    Ok { k.setBox slot sent.1 with nextMessageId := sent.2.1 } ∧
      Evolves k { k.setBox slot sent.1 with nextMessageId := sent.2.1 } := by
  rw [Message.outgoing, Bool.and_eq_true, decide_eq_true_iff, decide_eq_true_iff] at hout
  obtain ⟨box, next, accepted⟩ := sent
  obtain ⟨hsound, ⟨heq, hmessages⟩ | ⟨heq, hmessages⟩⟩ := hq hout.1
  · cases heq
    exact h.removes hsound fun m hm => hmessages ▸ hm
  · cases heq
    refine h.setBox hsound (Nat.le_succ _) (some { message with messageId := k.nextMessageId }) ?_ ?_
    · intro m hm
      rw [hmessages, List.mem_append, List.mem_singleton] at hm
      exact hm.imp_right (Option.some_inj.mpr ·.symm)
    · rintro m ⟨⟩
      exact ⟨rfl, Nat.lt_succ_self _, hout.2⟩

/-- The tables change: each is as it was, or has kept the old tickets, or belongs to a new process. -/
theorem Ok.retables (h : Ok k) {threads : Threads} {processOf : Nat → Option Nat}
    {tables : Nat → Option (ObjectHandleTable ω)} {nextProcess : Nat} (hle : k.nextProcess ≤ nextProcess)
    (hcases : ∀ pid table, tables pid = some table → k.tables pid = some table ∨
      table.Sound ∧ pid < nextProcess ∧
      (pid < k.nextProcess → ∃ old, k.tables pid = some old ∧ old.Evolves table)) :
    Ok { k with threads := threads, processOf := processOf, tables := tables, nextProcess := nextProcess } ∧
      Evolves k { k with
        threads := threads, processOf := processOf, tables := tables, nextProcess := nextProcess } := by
  refine ⟨⟨h.sound, h.few, h.issued, h.unique, h.next_ne, ?_, ?_⟩, Nat.le_refl _,
    fun slot m hm => .inl ⟨slot, hm⟩, hle, ?_⟩
  · intro pid table ht
    exact (hcases pid table ht).elim (h.tables pid table) And.left
  · intro pid table ht
    exact (hcases pid table ht).elim (fun hold => (h.spawned pid table hold).trans_le hle) fun hnew =>
      hnew.2.1
  · intro pid table hlt ht
    rcases hcases pid table ht with hold | hnew
    · exact ⟨table, hold, .same rfl rfl⟩
    · exact hnew.2.2 hlt

theorem Ok.setTable (h : Ok k) {table : ObjectHandleTable ω} (ht : k.tables pid = some table)
    (hsound : table'.Sound) (hevolves : table.Evolves table') :
    Ok (k.setTable pid table') ∧ Evolves k (k.setTable pid table') := by
  refine h.retables (Nat.le_refl _) ?_
  intro p t hp
  rw [update_apply] at hp
  split at hp
  · rename_i heq
    cases hp
    exact .inr ⟨hsound, heq ▸ h.spawned pid table ht, fun _ => ⟨table, heq ▸ ht, hevolves⟩⟩
  · exact .inl hp

/-- A sound mailbox stays sound under a receive, and the messages after it are among those before. -/
theorem Ok.commits (h : Ok k) (slot index id : Nat) :
    ∃ box committed, (k.boxes slot).commitReceive index id k.nextMessageId =
      (box, k.nextMessageId, committed) ∧ box.Sound [] ∧ ∀ m ∈ box.messages, m ∈ (k.boxes slot).messages := by
  rcases Mailbox.commitReceive_cases (h.sound slot) index id k.nextMessageId with
    ⟨error, heq⟩ | ⟨box, message, before, after, heq, hsound, -, -, hmessages, hmessages', -⟩
  · exact ⟨_, _, heq, h.sound slot, fun m hm => hm⟩
  · refine ⟨_, _, heq, hsound, ?_⟩
    rw [hmessages, hmessages']
    exact fun m hm => ((List.sublist_cons_self message after).append_left before).subset hm

/-- **Every operation of the others** keeps the invariant and what the kernel keeps of its past. -/
theorem Ok.apply (h : Ok k) {op : Op ω} (hop : k.apply op = some k') : Ok k' ∧ Evolves k k' := by
  cases op with
  | threads threads | processes processOf =>
    cases hop
    exact h.retables (Nat.le_refl _) fun pid table ht => .inl ht
  | enqueue configured message =>
    rw [Kernel.apply] at hop
    split at hop <;> cases hop
    exact h.sends ‹_› fun hid => Mailbox.enqueueMessage_queues (h.sound _) hid h.next_ne configured
  | push configured maxMsgSize allocated message =>
    rw [Kernel.apply] at hop
    split at hop <;> cases hop
    exact h.sends ‹_› fun hid =>
      Mailbox.pushMessage_queues (h.sound _) hid h.next_ne configured maxMsgSize allocated
  | commit slot index id =>
    obtain ⟨box, committed, heq, hsound, hsub⟩ := h.commits slot index id
    rw [Kernel.apply, heq] at hop
    cases hop
    exact h.removes hsound hsub
  | popReply filter =>
    rw [Kernel.apply] at hop
    rcases Mailbox.popReply_cases (h.sound filter.receiver.slot) filter k.nextMessageId with
      ⟨box, heq, hsound, hmessages, -⟩ | ⟨box, message, before, after, heq, hsound, -, -, hm, hm', -⟩
    · rw [heq] at hop
      cases hop
      exact h.removes hsound fun m hm => hmessages ▸ hm
    · rw [heq] at hop
      cases hop
      refine h.removes hsound ?_
      intro m hmem
      rw [hm', List.mem_append] at hmem
      rw [hm, List.mem_append]
      exact hmem.symm.imp id (List.mem_cons_of_mem _)
  | retire endpoint =>
    rw [Kernel.apply] at hop
    obtain ⟨box, retired, heq, hsound, hmessages, -⟩ :=
      Mailbox.retireDestination_spec (h.sound endpoint.slot) endpoint k.nextMessageId
    rw [heq] at hop
    cases hop
    refine h.removes hsound ?_
    intro m hm
    rw [hmessages] at hm
    exact List.mem_of_mem_filter hm
  | annotate slot waiter replyTargets replyOwner =>
    cases hop
    have hbox := h.sound slot
    exact h.removes ⟨hbox.ring, hbox.perm, hbox.queued_some, hbox.freed_none⟩ fun m hm => hm
  | spawn =>
    cases hop
    -- process identities are handed out once, so the new table has no past
    refine h.retables (Nat.le_succ _) ?_
    intro pid table ht
    rw [tables_setTable] at ht
    split at ht
    · cases ht
      exact .inr ⟨ObjectHandleTable.sound_new, by omega, by omega⟩
    · exact .inl ht
  | reap pid =>
    cases hop
    refine h.retables (Nat.le_refl _) ?_
    intro p table ht
    rw [update_apply] at ht
    split at ht
    · cases ht
    · exact .inl ht
  | table pid op =>
    obtain ⟨table, ht, rfl⟩ := Option.map_eq_some_iff.mp hop
    obtain ⟨hsound, hevolves⟩ := (h.tables pid table ht).apply op
    exact h.setTable ht hsound hevolves

end Kernel

/-! ## Reserving and publishing a batch -/

section Install

variable {table : ObjectHandleTable ω} {pairs : List (HandleReservation × ObjectHandleEntry ω)}

/-- **A table with room for the whole batch reserves it**, one selector for each attachment. -/
theorem reserveAll_of_room {owner : Nat} (room : Nat → Bool) (howner : owner ≠ 0)
    (entries : List (ObjectHandleEntry ω)) (index : Nat) (reserved : List HandleReservation)
    (hsound : table.Sound) (hgrant : ∀ i, index ≤ i → i < index + entries.length → room i = true)
    (hroom : table.entries.length + table.pending.length + entries.length ≤ processMaxObjectHandles)
    (hid : table.nextReservation + entries.length < 2 ^ 64) :
    ∃ table' pairs, reserveAll owner room index entries table reserved =
        (table', reserved ++ pairs.map Prod.fst, true) ∧ table'.Sound ∧ table.Evolves table' ∧
      table'.pending = table.pending ++ pairs ∧ pairs.map Prod.snd = entries := by
  induction entries generalizing index reserved table with
  | nil =>
    refine ⟨table, [], ?_, hsound, .same rfl rfl, (List.append_nil _).symm, rfl⟩
    rw [List.map_nil, List.append_nil]
    rfl
  | cons entry rest ih =>
    rw [List.length_cons] at hgrant hroom hid
    obtain ⟨next, handle, heq, hvacant⟩ :=
      ObjectHandleTable.reserve_of_room (t := table) (by omega) howner (by omega) entry
    have hsound' := hsound.withReservation hvacant next owner entry
    have hevolves := (hsound.apply (.reserve owner entry true)).2
    rw [ObjectHandleTable.apply, heq] at hevolves
    have hlen : (table.withReservation next handle owner entry).pending.length =
      table.pending.length + 1 := by
      simp [ObjectHandleTable.withReservation]
    obtain ⟨table', pairs, hrest, hsound'', hevolves', hpending, hentries⟩ :=
      ih (index + 1) (reserved ++ [⟨handle, table.nextReservation, owner⟩]) hsound'
        (fun i hi hlt => hgrant i (by omega) (by omega)) (by
          rw [hlen]
          show table.entries.length + _ + _ ≤ _
          omega)
        (by
          show table.nextReservation + 1 + _ < _
          omega)
    refine ⟨table', (⟨handle, table.nextReservation, owner⟩, entry) :: pairs, ?_, hsound'', ?_, ?_, ?_⟩
    · rw [reserveAll, hgrant index (Nat.le_refl _) (by omega), heq]
      show reserveAll owner room (index + 1) rest _ _ = _
      rw [hrest, List.append_assoc]
      rfl
    · exact hevolves.trans hevolves'
    · rw [hpending]
      show table.pending ++ [_] ++ pairs = _
      rw [List.append_assoc]
      rfl
    · rw [List.map_cons, hentries]

/-- The tickets of a batch, with what was reserved under each of them. -/
structure Ticketed (table : ObjectHandleTable ω) (pairs : List (HandleReservation × ObjectHandleEntry ω)) :
    Prop where
  handles : (pairs.map fun pair => pair.1.handle).Nodup
  issued : ∀ pair ∈ pairs, pair.1.identity < table.nextReservation
  same : ∀ pair ∈ pairs, ∀ r ∈ table.pending, r.1 = pair.1 → r = pair

theorem Ticketed.of_pending (h : table.Sound) {pending : List (HandleReservation × ObjectHandleEntry ω)}
    (hpending : table.pending = pending ++ pairs) : Ticketed table pairs := by
  have hmem : ∀ pair ∈ pairs, pair ∈ table.pending := fun pair hp => hpending ▸ List.mem_append_right _ hp
  refine ⟨?_, fun pair hp => h.issued pair (hmem pair hp), ?_⟩
  · have hnodup : (table.pending.map fun reservation => reservation.1.handle).Nodup := h.nodup.of_append_right
    rw [hpending, List.map_append] at hnodup
    exact hnodup.of_append_right
  · intro pair hp r hr heq
    exact List.inj_on_of_nodup_map h.identities hr (hmem pair hp) (congrArg HandleReservation.identity heq)

theorem Ticketed.evolves
    (h : Ticketed table pairs) (hevolves : table.Evolves table') : Ticketed table' pairs := by
  refine ⟨h.handles, fun pair hp => Nat.lt_of_lt_of_le (h.issued pair hp) hevolves.next_le, ?_⟩
  intro pair hp r hr heq
  refine h.same pair hp r (hevolves.old r hr ?_) heq
  rw [heq]
  exact h.issued pair hp

/-- **A batch that is still reserved is published as a whole**, each entry under its own selector. -/
theorem publishAll_of_reserved (pairs : List (HandleReservation × ObjectHandleEntry ω))
    (published : List HandleReservation) (hsound : table.Sound)
    (hnodup : (pairs.map fun pair => pair.1.handle).Nodup) (hmem : ∀ pair ∈ pairs, pair ∈ table.pending) :
    ∃ table', publishAll (pairs.map Prod.fst) published table = (table', true) ∧ table'.Sound ∧
      table.Evolves table' ∧ (∀ entry ∈ table.entries, entry ∈ table'.entries) ∧
      ∀ pair ∈ pairs, table.get pair.1.handle = none ∧ table'.get pair.1.handle = some pair.2 := by
  induction pairs generalizing published table with
  | nil =>
    exact ⟨table, rfl, hsound, .same rfl rfl, fun _ he => he, fun pair hp => by cases hp⟩
  | cons pair rest ih =>
    obtain ⟨ticket, entry⟩ := pair
    obtain ⟨hnew, hrest⟩ := List.nodup_cons.mp hnodup
    obtain ⟨pending, hp, hnone, heq⟩ := hsound.publishReserved (hmem _ List.mem_cons_self)
    have hevolves := (hsound.apply (.publishReserved ticket)).2
    rw [ObjectHandleTable.apply, heq] at hevolves
    have hsound' := hsound.published hp
    have hperm := ObjectHandleTable.insertSorted_perm ticket.handle entry table.entries
    obtain ⟨table', hpub, hsound'', hevolves', hkeep, hall⟩ :=
      ih (published ++ [ticket]) hsound' hrest (by
        intro other ho
        -- another selector, so another reservation
        have hne : other ≠ (ticket, entry) := fun he => hnew (List.mem_map.mpr ⟨other, ho, by rw [he]⟩)
        have hold := hp.mem_iff.mp (hmem other (List.mem_cons_of_mem _ ho))
        exact (List.mem_cons.mp hold).resolve_left hne)
    refine ⟨table', ?_, hsound'', ?_, ?_, ?_⟩
    · rw [List.map_cons, publishAll, heq]
      exact hpub
    · exact hevolves.trans hevolves'
    · intro e he
      exact hkeep e (hperm.mem_iff.mpr (List.mem_cons_of_mem _ he))
    · intro other ho
      rcases List.mem_cons.mp ho with rfl | ho
      · refine ⟨hnone, ?_⟩
        rw [hsound''.get_eq_some]
        exact hkeep _ (hperm.mem_iff.mpr List.mem_cons_self)
      · obtain ⟨hother, hgot⟩ := hall other ho
        refine ⟨?_, hgot⟩
        rw [ObjectHandleTable.get_eq_none] at hother ⊢
        exact fun hused => hother ((hperm.map Prod.fst).mem_iff.mpr (List.mem_cons_of_mem _ hused))

end Install

/-! ## What the call has done -/

/-- The queues, the reply obligations and the handle tables are as they were. -/
def Untouched (k k' : Kernel ω) : Prop :=
  (∀ slot, (k'.boxes slot).messages = (k.boxes slot).messages ∧
      (k'.boxes slot).replyTargets = (k.boxes slot).replyTargets ∧
      (k'.boxes slot).replyOwner = (k.boxes slot).replyOwner) ∧ k'.tables = k.tables

/-- The message has left its place in the queue, and the others have kept theirs. -/
def Consumed (slot : Nat) (message : Message ω) (k k' : Kernel ω) : Prop :=
  ∃ before after, (k.boxes slot).messages = before ++ message :: after ∧
    (k'.boxes slot).messages = before ++ after

/-- Each entry has got a selector of its own in the table of a process. -/
def Installed (pid : Nat) (entries : List (ObjectHandleEntry ω)) (k k' : Kernel ω) : Prop :=
  ∃ table table', k.tables pid = some table ∧ k'.tables pid = some table' ∧
    ∃ handles : List Nat, handles.Nodup ∧
      List.Forall₂ (fun handle entry => table.get handle = none ∧
        table'.get handle = some entry) handles entries

/-- A queued message with the identity of this one is this one. -/
def Seen (k : Kernel ω) (message : Message ω) : Prop :=
  message.messageId < k.nextMessageId ∧ message.objectHandles.handles.length ≤ maxObjectHandles ∧
    ∀ slot, ∀ m ∈ (k.boxes slot).messages, m.messageId = message.messageId → m = message

theorem untouched_refl (k : Kernel ω) : Untouched k k := ⟨fun _ => ⟨rfl, rfl, rfl⟩, rfl⟩

/-- The waiter is not among what a failed call must leave alone. -/
theorem untouched_waiter (k : Kernel ω) (slot waiter : Nat) :
    Untouched k (k.setBox slot { k.boxes slot with waiter := waiter }) := by
  refine ⟨?_, rfl⟩
  intro slot'
  rw [Kernel.boxes_setBox]
  split
  · rename_i heq
    subst heq
    exact ⟨rfl, rfl, rfl⟩
  · exact ⟨rfl, rfl, rfl⟩

theorem Kernel.Ok.waiter {k : Kernel ω} (h : k.Ok) (slot waiter : Nat) :
    (k.setBox slot { k.boxes slot with waiter := waiter }).Ok :=
  (h.removes (State.Inv.sound_waiter (h.sound slot) waiter) fun _ hm => hm).1

theorem Seen.evolves {k k' : Kernel ω} (h : Seen k message) (he : k.Evolves k') : Seen k' message := by
  obtain ⟨hlt, hfew, hsame⟩ := h
  refine ⟨Nat.lt_of_lt_of_le hlt he.next_le, hfew, ?_⟩
  intro slot m hm hid
  rcases he.messages slot m hm with ⟨slot', hold⟩ | hnew
  · exact hsame slot' m hold hid
  · omega

namespace Call

variable {call : Call} {s s' : State ω} {endpoint : IpcEndpoint} {message : Message ω} {k : Kernel ω}

/-- The sections of the call changed nothing that matters. -/
def Quiet (s : State ω) : Prop := ∀ p ∈ s.own, Untouched p.1 p.2

/-- One of the sections took this message from the receiver's queue. -/
def Took (call : Call) (s : State ω) (message : Message ω) : Prop :=
  ∃ endpoint : IpcEndpoint, endpoint.threadId = call.receiver ∧
    Mailbox.selects endpoint call.awaited message = true ∧ ∃ p ∈ s.own, Consumed endpoint.slot message p.1 p.2

/-- One of the sections reserved a selector for each entry, in the table of the process that the receiver
    belonged to then. -/
def Reserved (call : Call) (s : State ω) (pid : Nat) (entries : List (ObjectHandleEntry ω)) : Prop :=
  ∃ p ∈ s.own, p.1.processOf call.receiver = some pid ∧
    ∃ (table : ObjectHandleTable ω) (pairs : List (HandleReservation × ObjectHandleEntry ω)),
      p.2.tables pid = some table ∧ pairs.map Prod.snd = entries ∧ ∀ pair ∈ pairs, pair ∈ table.pending

/-- Attachments are only there if the call has an output for them, and never too many. -/
def Fits (call : Call) (message : Message ω) : Prop :=
  (call.output = false → message.objectHandles.handles = []) ∧
    message.objectHandles.handles.length ≤ maxObjectHandles

/-- What is known at each place. -/
def Progress (call : Call) (s : State ω) : Prop :=
  match s.pc with
  | .resolve | .done (.error _) | .clear _ (.error _) => Quiet s
  | .select endpoint _ | .await endpoint | .asleep endpoint => Quiet s ∧ endpoint.threadId = call.receiver
  | .copying endpoint _ snapshot | .commit endpoint _ snapshot =>
    Quiet s ∧ endpoint.threadId = call.receiver ∧ Seen s.kernel snapshot ∧ call.Fits snapshot ∧
      Mailbox.selects endpoint call.awaited snapshot = true
  | .clear _ (.ok message) | .finish message => call.Took s message ∧ call.Fits message
  | .copyOut pid tickets message | .publish pid tickets message =>
    call.Took s message ∧ call.Reserved s pid message.objectHandles.handles ∧ call.output = true ∧
      pid < s.kernel.nextProcess ∧ ∃ pairs, tickets = pairs.map Prod.fst ∧
        message.objectHandles.handles = pairs.map Prod.snd ∧
        ∀ table, s.kernel.tables pid = some table → Ticketed table pairs
  | .cancel _ _ _ => False
  | .done (.ok received) =>
    ∃ message, received = call.answer message ∧ call.Took s message ∧
      (call.output = false → message.objectHandles.handles = []) ∧
      (call.output = true → ∃ pid, call.Reserved s pid message.objectHandles.handles ∧
        ∃ p ∈ s.own, Installed pid message.objectHandles.handles p.1 p.2)

/-- The invariant of a call. -/
structure Inv (call : Call) (s : State ω) : Prop where
  ok : s.kernel.Ok
  progress : call.Progress s

/-- **The installation does not fail**: there is room for every attachment in the receiver's table, the
    selectors can be copied out, and nobody has withdrawn the reservations when they are published. -/
def installs (call : Call) (s : State ω) (l : Label ω) : Bool :=
  match l, s.pc with
  | .reserve room, .finish message =>
    let count := message.objectHandles.handles.length
    call.receiver ≠ 0 && (List.range count).all room &&
      ((s.kernel.processOf call.receiver).bind s.kernel.tables).any fun table =>
        table.entries.length + table.pending.length + count ≤ processMaxObjectHandles &&
          table.nextReservation + count < 2 ^ 64
  | .copyOut failure, .copyOut _ _ _ => failure.isNone
  | .publish, .publish pid tickets _ => (s.kernel.tables pid).any fun table => tickets.all table.isReserved
  | _, _ => true

theorem Quiet.leave (h : Quiet s) (hk : Untouched s.kernel k) (pc : Pc ω) : Quiet (s.leave k pc) := by
  intro p hp
  rcases List.mem_append.mp hp with hp | hp
  · exact h p hp
  · rw [List.mem_singleton.mp hp]
    exact hk

theorem Took.leave (h : call.Took s message) (k : Kernel ω) (pc : Pc ω) :
    call.Took (s.leave k pc) message := by
  obtain ⟨endpoint, hreceiver, hsel, p, hp, hc⟩ := h
  exact ⟨endpoint, hreceiver, hsel, p, List.mem_append_left _ hp, hc⟩

theorem Reserved.leave {entries : List (ObjectHandleEntry ω)} (h : call.Reserved s pid entries) (k : Kernel ω)
    (pc : Pc ω) : call.Reserved (s.leave k pc) pid entries := by
  obtain ⟨p, hp, hprocess, htable⟩ := h
  exact ⟨p, List.mem_append_left _ hp, hprocess, htable⟩

/-- The call goes on with what the receive has come to. -/
theorem progress_settle {outcome : Except Error (Message ω)} (hpc : s.pc = call.settle endpoint outcome)
    (h : match outcome with
      | .error _ => Quiet s
      | .ok message => call.Took s message ∧ call.Fits message) : call.Progress s := by
  unfold Progress
  by_cases hb : call.blocking = true
  · rw [settle, if_pos hb] at hpc
    cases outcome with
    | error | ok => simpa only [hpc] using h
  · rw [settle, if_neg hb] at hpc
    cases outcome with
    | error | ok => simpa only [hpc, received] using h

/-- Nothing the others do takes back what is known about the call. -/
theorem Progress.other (h : call.Progress s) (he : s.kernel.Evolves k) :
    call.Progress { s with kernel := k } := by
  have ticketed {pid : Nat} {pairs : List (HandleReservation × ObjectHandleEntry ω)}
      (hlt : pid < s.kernel.nextProcess) (hp : ∀ table, s.kernel.tables pid = some table →
        Ticketed table pairs) :
      ∀ table, k.tables pid = some table → Ticketed table pairs := by
    intro table' ht
    obtain ⟨table, hold, hevolves⟩ := he.tables pid table' hlt ht
    exact (hp table hold).evolves hevolves
  unfold Progress at h ⊢
  cases hpc : s.pc with
  | copying endpoint slot snapshot | commit endpoint slot snapshot =>
    simp only [hpc] at h ⊢
    exact ⟨h.1, h.2.1, h.2.2.1.evolves he, h.2.2.2⟩
  | copyOut pid tickets message | publish pid tickets message =>
    simp only [hpc] at h ⊢
    obtain ⟨htook, hreserved, hout, hlt, pairs, hfst, hsnd, hp⟩ := h
    exact ⟨htook, hreserved, hout, Nat.lt_of_lt_of_le hlt he.process_le, pairs, hfst, hsnd, ticketed hlt hp⟩
  | cancel pid tickets error => simp only [hpc] at h
  | resolve | select _ _ | await _ | asleep _ | finish _ =>
    simp only [hpc] at h ⊢
    exact h
  | clear endpoint outcome | done outcome => cases outcome <;> simp only [hpc] at h ⊢ <;> exact h

/-! ## The sections -/

theorem Inv.selectSection (h : call.Inv s) (hq : Quiet s) (hreceiver : endpoint.threadId = call.receiver)
    (again allocated : Bool) : call.Inv (call.selectSection s endpoint again allocated) := by
  have hsame (pc : Pc ω) : Quiet (s.leave s.kernel pc) := hq.leave (untouched_refl _) pc
  unfold Call.selectSection
  dsimp only
  split
  · exact ⟨h.ok, progress_settle rfl (hsame _)⟩
  · split
    · exact ⟨h.ok, progress_settle rfl (hsame _)⟩
    · rename_i slot snapshot hsnap
      obtain ⟨hplain, hsel, before, after, hmessages, -⟩ := Mailbox.snapshotReceive_some hsnap
      have hmem : snapshot ∈ (s.kernel.boxes endpoint.slot).messages := by simp [hmessages]
      have hfew := h.ok.few _ _ hmem
      have hseen : Seen s.kernel snapshot :=
        ⟨h.ok.issued _ _ hmem, hfew, fun slot' m hm hid => h.ok.unique _ _ m hm snapshot hmem hid⟩
      exact ⟨h.ok, hsame _, hreceiver, hseen, ⟨hplain, hfew⟩, hsel⟩
    · split
      · have hq' := hq.leave (untouched_waiter s.kernel endpoint.slot endpoint.threadId)
        refine ⟨h.ok.waiter _ _, ?_⟩
        cases again with
        | true | false => exact ⟨hq' _, hreceiver⟩
      · exact ⟨h.ok, hsame _⟩

/-- **The commit takes the message that was copied out, or nothing.** -/
theorem Inv.commitSection (h : call.Inv s) {slot : Nat} {snapshot : Message ω} (hq : Quiet s)
    (hreceiver : endpoint.threadId = call.receiver) (hseen : Seen s.kernel snapshot)
    (hfits : call.Fits snapshot)
    (hsel : Mailbox.selects endpoint call.awaited snapshot = true) (later : Threads) :
    call.Inv (call.commitSection s endpoint slot snapshot later) := by
  unfold Call.commitSection
  dsimp only
  split
  · exact ⟨h.ok, progress_settle rfl (hq.leave (untouched_refl _) _)⟩
  rcases Mailbox.commitReceive_cases (h.ok.sound endpoint.slot) slot snapshot.messageId
    s.kernel.nextMessageId with
    ⟨error, heq⟩ | ⟨box, message, before, after, heq, hsound, -, hid, hmessages, hmessages', -⟩
  · rw [heq]
    have hself : ({ s.kernel.setBox endpoint.slot (s.kernel.boxes endpoint.slot) with
        nextMessageId := s.kernel.nextMessageId } : Kernel ω) = s.kernel := by
      rw [Kernel.setBox, update_eq_self]
    dsimp only
    rw [hself]
    exact ⟨h.ok, progress_settle rfl (hq.leave (untouched_refl _) _)⟩
  · rw [heq]
    have hmem : message ∈ (s.kernel.boxes endpoint.slot).messages := by simp [hmessages]
    have hsame : message = snapshot := hseen.2.2 _ message hmem hid
    subst hsame
    have hsub : ∀ m ∈ box.messages, m ∈ (s.kernel.boxes endpoint.slot).messages := by
      rw [hmessages, hmessages']
      exact fun m hm => ((List.sublist_cons_self message after).append_left before).subset hm
    have hok := (h.ok.removes hsound hsub).1
    have took (k : Kernel ω) (pc : Pc ω) (hk : (k.boxes endpoint.slot).messages = box.messages) :
        call.Took (s.leave k pc) message :=
      ⟨endpoint, hreceiver, hsel, (s.kernel, k), by simp [State.leave], before, after,
        hmessages, hk.trans hmessages'⟩
    have hbox : ((s.kernel.setBox endpoint.slot box).boxes endpoint.slot).messages = box.messages := by
      rw [Kernel.boxes_setBox, if_pos rfl]
    dsimp only
    split
    · rename_i callerSlot generation _
      obtain ⟨hsound', hkeep⟩ := State.Inv.sound_addReplyTarget (hok.sound callerSlot) message.sender
        message.callId (endpoint.threadId, generation)
      refine ⟨(hok.removes hsound' fun m hm => hkeep ▸ hm).1, ?_⟩
      refine progress_settle rfl ⟨took _ _ ?_, hfits⟩
      show (((s.kernel.setBox endpoint.slot box).setBox callerSlot _).boxes endpoint.slot).messages = _
      rw [Kernel.boxes_setBox]
      split
      · rename_i heq'
        subst heq'
        exact hkeep.trans hbox
      · exact hbox
    · exact ⟨hok, progress_settle rfl ⟨took _ _ hbox, hfits⟩⟩

theorem Inv.clearWaiter (h : s.kernel.Ok) (endpoint : IpcEndpoint) :
    (clearWaiter s.kernel endpoint).Ok ∧ Untouched s.kernel (clearWaiter s.kernel endpoint) := by
  unfold Call.clearWaiter
  split
  · exact ⟨h.waiter _ _, untouched_waiter _ _ _⟩
  · exact ⟨h, untouched_refl _⟩

/-- With room for the whole batch, every attachment gets its selector. -/
theorem Inv.reserveSection (h : call.Inv s) (hpc : s.pc = .finish message) (htook : call.Took s message)
    (hfits : call.Fits message) (hout : call.output = true) {room : Nat → Bool}
    (hinstalls : call.installs s (.reserve room) = true) : call.Inv (call.reserveSection s message room) := by
  simp only [installs, hpc, Bool.and_eq_true, decide_eq_true_iff] at hinstalls
  obtain ⟨⟨howner, hgrant⟩, hany⟩ := hinstalls
  obtain ⟨table, hbind, hroom⟩ := (Option.any_eq_true _ _).mp hany
  obtain ⟨pid, hprocess, htable⟩ := Option.bind_eq_some_iff.mp hbind
  rw [Bool.and_eq_true, decide_eq_true_iff, decide_eq_true_iff] at hroom
  obtain ⟨table', pairs, heq, hsound, hevolves, hpending, hentries⟩ :=
    reserveAll_of_room room howner message.objectHandles.handles 0 [] (h.ok.tables pid table htable)
      (fun i _ hi => List.all_eq_true.mp hgrant i (List.mem_range.mpr (by omega))) hroom.1 hroom.2
  obtain ⟨hok, -⟩ := h.ok.setTable htable hsound hevolves
  unfold Call.reserveSection
  rw [if_neg (Nat.not_lt.mpr hfits.2), hprocess]
  dsimp only
  rw [htable]
  dsimp only
  rw [heq]
  have hreserved :
    call.Reserved (s.leave (s.kernel.setTable pid table') (.copyOut pid (pairs.map Prod.fst) message))
      pid message.objectHandles.handles := by
    refine ⟨(s.kernel, s.kernel.setTable pid table'), by simp [State.leave], hprocess, table', pairs,
      update_self _ _ _, hentries, ?_⟩
    exact fun pair hpair => hpending ▸ List.mem_append_right _ hpair
  refine ⟨hok, htook.leave _ _, hreserved, hout, h.ok.spawned pid table htable, pairs, rfl, hentries.symm, ?_⟩
  intro t ht
  have ht' : (s.kernel.setTable pid table').tables pid = some t := ht
  rw [Kernel.tables_setTable, if_pos rfl] at ht'
  cases ht'
  exact .of_pending hsound hpending

/-- Reservations that are all still there become the entries that were attached. -/
theorem Inv.publishSection (h : call.Inv s) {tickets : List HandleReservation}
    (hpc : s.pc = .publish pid tickets message) (hinstalls : call.installs s .publish = true) :
    call.Inv (call.publishSection s pid tickets message) := by
  have hp := h.progress
  unfold Progress at hp
  simp only [hpc] at hp
  obtain ⟨htook, hreserved, hout, -, pairs, rfl, hentries, hticketed⟩ := hp
  simp only [installs, hpc] at hinstalls
  obtain ⟨table, htable, hall⟩ := (Option.any_eq_true _ _).mp hinstalls
  have hpairs := hticketed table htable
  have hmem : ∀ pair ∈ pairs, pair ∈ table.pending := by
    intro pair hpair
    obtain ⟨entry, he⟩ :=
      ObjectHandleTable.isReserved_iff.mp (List.all_eq_true.mp hall pair.1 (List.mem_map_of_mem hpair))
    exact hpairs.same pair hpair _ he rfl ▸ he
  obtain ⟨table', heq, hsound, hevolves, -, hgot⟩ :=
    publishAll_of_reserved pairs [] (h.ok.tables pid table htable) hpairs.handles hmem
  unfold Call.publishSection
  rw [htable]
  dsimp only
  rw [publication, if_pos hall, heq]
  refine ⟨(h.ok.setTable htable hsound hevolves).1, message, rfl, htook.leave _ _, ?_, ?_⟩
  · intro hplain
    rw [hout] at hplain
    cases hplain
  · intro _
    refine ⟨pid, hreserved.leave _ _, (s.kernel, s.kernel.setTable pid table'), by simp [State.leave], table,
      table', htable, update_self _ _ _, pairs.map fun pair => pair.1.handle, hpairs.handles, ?_⟩
    rw [hentries, List.forall₂_map_left_iff, List.forall₂_map_right_iff, List.forall₂_same]
    exact hgot

/-- One step of the call, or of the others. -/
theorem Inv.step (h : call.Inv s) {l : Label ω} (hok : call.installs s l = true)
    (hs : call.step s l = some s') : call.Inv s' := by
  have hp := h.progress
  unfold Progress at hp
  unfold Call.step at hs
  split at hs
  · -- the others
    obtain ⟨k, hk, rfl⟩ := Option.map_eq_some_iff.mp hs
    obtain ⟨hkernel, hevolves⟩ := h.ok.apply hk
    exact ⟨hkernel, h.progress.other hevolves⟩
  · -- resolve
    rename_i hpc
    simp only [hpc] at hp
    split at hs
    · cases hs
      exact ⟨h.ok, hp⟩
    · split at hs
      · cases hs
        exact ⟨h.ok, hp⟩
      · cases hs
        exact ⟨h.ok, hp, rfl⟩
  · -- select
    rename_i hpc
    simp only [hpc] at hp
    cases hs
    exact h.selectSection hp.1 hp.2 _ _
  · -- copy
    rename_i hpc
    simp only [hpc] at hp
    split at hs
    · cases hs
      exact ⟨h.ok, progress_settle rfl hp.1⟩
    · cases hs
      exact ⟨h.ok, hp⟩
  · -- commit
    rename_i hpc
    simp only [hpc] at hp
    cases hs
    obtain ⟨hq, hreceiver, hseen, hfits, hsel⟩ := hp
    exact h.commitSection hq hreceiver hseen hfits hsel _
  · -- clear
    rename_i endpoint outcome hpc
    cases hs
    obtain ⟨hkernel, hsame⟩ := Inv.clearWaiter h.ok endpoint
    refine ⟨hkernel, ?_⟩
    cases outcome with simp only [hpc] at hp
    | error error =>
      exact hp.leave hsame _
    | ok message =>
      exact ⟨hp.1.leave _ _, hp.2⟩
  · -- await
    rename_i hpc
    simp only [hpc] at hp
    split at hs
    · cases hs
      exact ⟨h.ok, hp.1⟩
    · cases hs
      exact ⟨h.ok, hp⟩
  · -- wake
    rename_i endpoint hpc
    simp only [hpc] at hp
    cases hs
    obtain ⟨hkernel, hsame⟩ := Inv.clearWaiter h.ok endpoint
    exact ⟨hkernel, hp.1.leave hsame _, hp.2⟩
  · -- finish
    rename_i message hpc
    simp only [hpc] at hp
    split at hs
    · cases hs
    rename_i hout
    have hnone := hp.2.1 (by simpa using hout)
    split at hs
    · cases hs
      exact ⟨h.ok, message, rfl, hp.1, fun _ => hnone, fun ht => absurd ht hout⟩
    · rename_i hsome
      exact absurd (by rw [hnone]; rfl) hsome
  · -- reserve
    rename_i hpc
    have hp' := hp
    simp only [hpc] at hp'
    split at hs
    · rename_i hout
      cases hs
      exact h.reserveSection hpc hp'.1 hp'.2 hout hok
    · cases hs
  · -- copyOut
    rename_i hpc
    simp only [hpc] at hp
    split at hs
    · simp [installs, hpc] at hok
    · cases hs
      exact ⟨h.ok, hp⟩
  · -- publish
    rename_i hpc
    cases hs
    exact h.publishSection hpc hok
  · -- cancel
    rename_i hpc
    simp only [hpc] at hp
  · cases hs

end Call

/-- **A receive call is all or nothing as long as the installation of its attachments does not fail.** In
    every run of the kernel in which that holds, a call that has returned an error has changed no queue, no
    reply obligation and no handle table in any of its sections, and a call that has returned a message has
    taken it from the queue and has installed every attachment under a selector of its own, in the table of
    the process that the receiver belonged to when the selectors were reserved. -/
theorem receive_all_or_nothing (call : Call) (s : Call.State ω)
    (hs : (call.system ω).Reach (fun s l => call.installs s l = true) s) :
    (∀ error, s.pc = .done (.error error) → ∀ p ∈ s.own, Untouched p.1 p.2) ∧
      ∀ received, s.pc = .done (.ok received) → ∃ message, received = call.answer message ∧
        call.Took s message ∧ (call.output = false → message.objectHandles.handles = []) ∧
        (call.output = true → ∃ pid, call.Reserved s pid message.objectHandles.handles ∧
          ∃ p ∈ s.own, Installed pid message.objectHandles.handles p.1 p.2) := by
  have hinv : call.Inv s := by
    refine hs.invariant (I := call.Inv) ?_ fun s l s' h hok hstep => h.step hok hstep
    intro s hinit
    cases hinit
    refine ⟨Kernel.ok_boot, ?_⟩
    intro p hp
    cases hp
  have hp := hinv.progress
  unfold Call.Progress at hp
  constructor
  · intro error hpc
    simp only [hpc] at hp
    exact hp
  · intro received hpc
    simp only [hpc] at hp
    exact hp

/-- A call of thread 7 to thread 5, with one attachment. -/
def parcel : Message Unit where
  messageId := 0
  sender := 7
  toThread := 5
  toSlot := 0
  toGeneration := 1
  isReply := false
  expectsReply := true
  callId := 3
  len := 0
  data := []
  objectHandles := ⟨0, [⟨(), .read⟩]⟩

/-- Thread 5 of a new process, alone in slot 0. -/
def lonely : Threads := fun slot => if slot = 0 then some ⟨5, 1, false⟩ else none

/-- Thread 5 receives the parcel up to the point where the selector is copied out. -/
def unpack : List (Call.Label Unit) :=
  [.other (.threads lonely), .other .spawn,
    .other (.processes fun thread => if thread = 5 then some 1 else none),
    .other (.enqueue 64 parcel), .resolve, .select true, .copy none, .commit lonely, .reserve fun _ => true]

/-- `recv_object_handles`, without blocking. -/
def recvObjectHandles : Call := ⟨5, 4096, true, false, none⟩

/-- What a call that has returned answers. -/
def Call.Pc.answer {ω : Type} : Call.Pc ω → Option (Except Error Received)
  | .done answer => some answer
  | _ => none

theorem Call.Pc.done_of_answer {ω : Type} {pc : Call.Pc ω} {answer : Except Error Received}
    (h : pc.answer = some answer) : pc = .done answer := by
  cases pc <;> cases h
  rfl

theorem receive_all_or_nothing_unpack : ∃ s : Call.State Unit,
      (recvObjectHandles.system Unit).Reach (fun s l => recvObjectHandles.installs s l = true) s ∧
        s.pc = .done (.ok ⟨7, 0, true⟩) ∧ ∃ message, recvObjectHandles.Took s message ∧
          ∃ pid, recvObjectHandles.Reserved s pid message.objectHandles.handles ∧
            ∃ p ∈ s.own, Installed pid message.objectHandles.handles p.1 p.2 := by
  obtain ⟨s, hs, hp⟩ := System.reach_of_exec (recvObjectHandles.system Unit)
    recvObjectHandles.installs .initial
    (unpack ++ [.copyOut none, .publish]) (fun s => s.pc.answer = some (.ok ⟨7, 0, true⟩)) rfl
    (by decide +kernel)
  have hpc := Call.Pc.done_of_answer hp
  obtain ⟨message, -, htook, -, hinstalled⟩ := (receive_all_or_nothing recvObjectHandles s hs).2 _ hpc
  exact ⟨s, hs, hpc, message, htook, hinstalled rfl⟩

/-- **An output that cannot be written loses the message.** The call returns `InvalidAddress`; its message has
    left the queue, the obligation to reply has been recorded, and the attachment is nowhere. -/
theorem message_lost_on_bad_output : ∃ s : Call.State Unit, (recvObjectHandles.system Unit).Reachable s ∧
      s.pc = .done (.error .invalidAddress) ∧
      (∃ p ∈ s.own, (p.1.boxes 0).messages.length = 1 ∧ (p.2.boxes 0).messages.length = 0 ∧
        (p.1.boxes 0).replyTargets = [] ∧ (p.2.boxes 0).replyTargets = [⟨7, 3⟩]) ∧
      (s.kernel.boxes 0).messages.length = 0 ∧ (s.kernel.boxes 0).replyTargets = [⟨7, 3⟩] ∧
      (s.kernel.tables 1).map (fun table => table.selectors) = some [] := by
  obtain ⟨s, hs, hp⟩ := System.reachable_of_exec (recvObjectHandles.system Unit) .initial
    (unpack ++ [.copyOut (some .invalidAddress), .cancel]) (fun s =>
      s.pc.answer = some (.error .invalidAddress) ∧ (∃ p ∈ s.own, (p.1.boxes 0).messages.length = 1 ∧
        (p.2.boxes 0).messages.length = 0 ∧ (p.1.boxes 0).replyTargets = [] ∧
          (p.2.boxes 0).replyTargets = [⟨7, 3⟩]) ∧
      (s.kernel.boxes 0).messages.length = 0 ∧ (s.kernel.boxes 0).replyTargets = [⟨7, 3⟩] ∧
      (s.kernel.tables 1).map (fun table => table.selectors) = some []) rfl (by decide +kernel)
  exact ⟨s, hs, Call.Pc.done_of_answer hp.1, hp.2⟩

end Mnu.Ipc
