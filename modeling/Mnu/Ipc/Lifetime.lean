import Mnu.Ipc.Endpoint
import Mnu.Ipc.Rotation

/-!
# `Mnu.Ipc.Lifetime` — the lifetimes of thread slots and the invariant of the IPC system

A lifetime is *issued* when its generation has left the reservation, and *dead* when it is issued and its slot
does not have it as a live thread. Generations are handed out once, so a dead lifetime stays dead
(`Retabled.dead`), and that carries the rest of the invariant: a retired lifetime has no message in any
mailbox, and a message still queued belongs to a thread in the queue or to a retirement that is under way.

This module has the invariant (`State.Inv`) and the steps that change the thread queue or move a party without
touching a mailbox. The sections under the mailbox lock are in `Mnu.Ipc.EndpointInv`.
-/

namespace Mnu.Ipc

open Mnu.Lib Function

namespace Threads

variable {threads : Threads} {id slot : Nat} {e : IpcEndpoint} (h : threads.endpointForThread id = some e)

/-- The slot of this lifetime has this thread with this generation. -/
def Occupies (threads : Threads) (e : IpcEndpoint) : Prop :=
  ∃ thread, threads e.slot = some thread ∧ thread.id = e.threadId ∧ thread.ipcGeneration = e.generation

/-- And the thread has not terminated. Generation zero is no lifetime. -/
def Live (threads : Threads) (e : IpcEndpoint) : Prop :=
  e.generation ≠ 0 ∧ ∃ thread, threads e.slot = some thread ∧ thread.id = e.threadId ∧
    thread.ipcGeneration = e.generation ∧ thread.terminated = false

theorem Live.occupies (h : Live threads e) : Occupies threads e := by
  obtain ⟨-, thread, hslot, hid, hgen, -⟩ := h
  exact ⟨thread, hslot, hid, hgen⟩

/-- A slot has one lifetime at a time. -/
theorem Occupies.unique {e' : IpcEndpoint} (h : Occupies threads e) (h' : Occupies threads e')
    (hslot : e.slot = e'.slot) : e = e' := by
  obtain ⟨thread, ht, hid, hgen⟩ := h
  obtain ⟨thread', ht', hid', hgen'⟩ := h'
  rw [hslot, ht'] at ht
  cases ht
  cases e
  cases e'
  simp_all

theorem slotIndex_some (h : threads.slotIndex id = some slot) :
    slot < maxThreads ∧ ∃ thread, threads slot = some thread ∧ thread.id = id := by
  have hfound := List.find?_some h
  have hmem := List.mem_of_find?_eq_some h
  refine ⟨List.mem_range.mp hmem, ?_⟩
  obtain ⟨thread, ht, hid⟩ := (Option.any_eq_true _ _).mp hfound
  exact ⟨thread, ht, by simpa using hid⟩

theorem ipcSlotIndexAndGeneration_eq {generation : Nat} :
    threads.ipcSlotIndexAndGeneration id = some (slot, generation) ↔
      threads.slotIndex id = some slot ∧ ∃ thread, threads slot = some thread ∧
        thread.ipcGeneration = generation ∧ generation ≠ 0 := by
  unfold ipcSlotIndexAndGeneration
  constructor
  · intro h
    obtain ⟨found, hfound, h⟩ := Option.bind_eq_some_iff.mp h
    obtain ⟨thread, ht, h⟩ := Option.bind_eq_some_iff.mp h
    split at h
    · rename_i hne
      cases h
      exact ⟨hfound, thread, ht, rfl, hne⟩
    · cases h
  · rintro ⟨hfound, thread, ht, rfl, hne⟩
    rw [hfound, Option.bind_some, ht, Option.bind_some, if_pos hne]

/-- What passes the check is live. -/
theorem live_of_endpointIsValid (h : threads.endpointIsValid e = true) : Live threads e := by
  have h' := of_decide_eq_true h
  unfold liveIpcSlotIndexAndGeneration at h'
  obtain ⟨slot, hslot, h'⟩ := Option.bind_eq_some_iff.mp h'
  obtain ⟨thread, ht, h'⟩ := Option.bind_eq_some_iff.mp h'
  split at h'
  · cases h'
  rename_i halive
  obtain ⟨hslot', thread', ht', hgen, hne⟩ := ipcSlotIndexAndGeneration_eq.mp h'
  rw [hslot] at hslot'
  cases hslot'
  rw [ht] at ht'
  cases ht'
  obtain ⟨-, found, hfound, hid⟩ := slotIndex_some hslot
  rw [ht] at hfound
  cases hfound
  exact ⟨hne, thread, ht, hid, hgen, by simpa using halive⟩

include h in
theorem occupies_of_endpointForThread : Occupies threads e ∧ e.threadId = id := by
  unfold endpointForThread at h
  obtain ⟨⟨slot, generation⟩, hsg, rfl⟩ := Option.map_eq_some_iff.mp h
  obtain ⟨hslot, thread, ht, hgen, -⟩ := ipcSlotIndexAndGeneration_eq.mp hsg
  obtain ⟨-, found, hfound, hid⟩ := slotIndex_some hslot
  rw [ht] at hfound
  cases hfound
  exact ⟨⟨thread, ht, hid, hgen⟩, rfl⟩

/-! ## Changes of the table -/

/-- The threads of the second table are those of the first, less some, and some of them terminated. -/
def Narrows (threads threads' : Threads) : Prop :=
  ∀ slot thread, threads' slot = some thread → ∃ old, threads slot = some old ∧ old.id = thread.id ∧
    old.ipcGeneration = thread.ipcGeneration ∧ (thread.terminated = false → old.terminated = false)

theorem Narrows.live {threads' : Threads} (hn : Narrows threads threads') (h : Live threads' e) :
    Live threads e := by
  obtain ⟨hne, thread, ht, hid, hgen, halive⟩ := h
  obtain ⟨old, hold, hid', hgen', halive'⟩ := hn _ _ ht
  exact ⟨hne, old, hold, hid'.trans hid, hgen'.trans hgen, halive' halive⟩

/-- A terminated thread keeps its slot, and its lifetime is over. -/
theorem terminate_slot (threads : Threads) (id : Nat) (slot : Nat) :
    threads.terminate id slot = threads slot ∨
      ∃ thread, threads slot = some thread ∧ threads.terminate id slot =
        some { thread with terminated := true } := by
  unfold terminate
  cases hfound : threads.slotIndex id with
  | none => exact .inl rfl
  | some found =>
    by_cases hslot : slot = found
    · subst hslot
      obtain ⟨-, thread, ht, -⟩ := slotIndex_some hfound
      refine .inr ⟨thread, ht, ?_⟩
      show update threads slot _ slot = _
      rw [update_self, ht]
      rfl
    · exact .inl (update_of_ne hslot _ _)

theorem narrows_terminate (threads : Threads) (id : Nat) : Narrows threads (threads.terminate id) := by
  intro slot thread ht
  rcases terminate_slot threads id slot with hsame | ⟨old, hold, hnew⟩
  · exact ⟨thread, hsame ▸ ht, rfl, rfl, fun halive => halive⟩
  · rw [hnew] at ht
    cases ht
    exact ⟨old, hold, rfl, rfl, nofun⟩

theorem Occupies.terminate (h : Occupies threads e) : Occupies (threads.terminate id) e := by
  obtain ⟨thread, ht, hid, hgen⟩ := h
  rcases terminate_slot threads id e.slot with hsame | ⟨old, hold, hnew⟩
  · exact ⟨thread, hsame.trans ht, hid, hgen⟩
  · rw [hold] at ht
    cases ht
    exact ⟨_, hnew, hid, hgen⟩

include h in
/-- Termination ends the lifetime. -/
theorem not_live_terminate : ¬ Live (threads.terminate id) e := by
  rintro ⟨-, thread, ht, -, -, halive⟩
  obtain ⟨⟨slot, generation⟩, hsg, rfl⟩ := Option.map_eq_some_iff.mp h
  obtain ⟨hslot, -⟩ := ipcSlotIndexAndGeneration_eq.mp hsg
  rw [Threads.terminate, hslot] at ht
  have ht' : update threads slot _ slot = some thread := ht
  rw [update_self] at ht'
  obtain ⟨old, -, rfl⟩ := Option.map_eq_some_iff.mp ht'
  cases halive

/-- Only the slot of the removed thread changes. -/
theorem remove_slot (threads : Threads) (id slot : Nat) :
    threads.remove id slot = threads slot ∨ threads.slotIndex id = some slot ∧
      threads.remove id slot = none := by
  unfold remove
  cases hfound : threads.slotIndex id with
  | none => exact .inl rfl
  | some found =>
    by_cases hslot : slot = found
    · subst hslot
      exact .inr ⟨rfl, update_self _ _ _⟩
    · exact .inl (update_of_ne hslot _ _)

theorem narrows_remove (threads : Threads) (id : Nat) : Narrows threads (threads.remove id) := by
  intro slot thread ht
  rcases remove_slot threads id slot with hsame | ⟨-, hnone⟩
  · exact ⟨thread, hsame ▸ ht, rfl, rfl, fun halive => halive⟩
  · rw [hnone] at ht
    cases ht

include h in
/-- So does removal. -/
theorem not_live_remove : ¬ Live (threads.remove id) e := by
  rintro ⟨-, thread, ht, -⟩
  obtain ⟨⟨slot, generation⟩, hsg, rfl⟩ := Option.map_eq_some_iff.mp h
  obtain ⟨hslot, -⟩ := ipcSlotIndexAndGeneration_eq.mp hsg
  rw [Threads.remove, hslot] at ht
  have ht' : update threads slot none slot = some thread := ht
  rw [update_self] at ht'
  cases ht'

/-- A lifetime with a generation that loses its slot is the one the removal hands over for retirement. -/
theorem Occupies.remove (h : Occupies threads e) (hgen : e.generation ≠ 0) (id : Nat) :
    Occupies (threads.remove id) e ∨ threads.endpointForThread id = some e := by
  obtain ⟨thread, ht, hid, hg⟩ := h
  rcases remove_slot threads id e.slot with hsame | ⟨hslot, -⟩
  · exact .inl ⟨thread, hsame.trans ht, hid, hg⟩
  · right
    obtain ⟨-, found, hfound, hid'⟩ := slotIndex_some hslot
    rw [ht] at hfound
    cases hfound
    have hsg : threads.ipcSlotIndexAndGeneration id = some (e.slot, e.generation) :=
      ipcSlotIndexAndGeneration_eq.mpr ⟨hslot, thread, ht, hg, hgen⟩
    rw [endpointForThread, hsg]
    cases e
    simp_all

end Threads

namespace State

variable {ι ω : Type} {s : State ι ω} {a : ι} {e : IpcEndpoint} {slot id generation : Nat}

/-- The generation has been given to a thread (or is zero, which no thread uses for IPC). -/
def Issued (s : State ι ω) (generation : Nat) : Prop :=
  generation < s.nextGeneration ∧ generation ∉ s.reserved

/-- The lifetime is over. -/
def Dead (s : State ι ω) (e : IpcEndpoint) : Prop := s.Issued e.generation ∧ ¬ s.threads.Live e

/-- The lifetime has its slot, or its retirement is under way. -/
def Kept (s : State ι ω) (e : IpcEndpoint) : Prop := s.threads.Occupies e ∨ ∃ a, s.pc a = .retire e

/-- What a party at this place relies on. -/
def PcOk (s : State ι ω) : Pc ω → Prop
  | .send _ message => message.messageId = 0
  | .sendChecked _ message =>
    message.messageId = 0 ∧ message.toSlot < maxThreads ∧ message.toGeneration ≠ 0 ∧
      s.Issued message.toGeneration ∧ message.endpoint ∉ s.retired ∧ s.Kept message.endpoint
  | .copying r _ message | .committing r _ message =>
    message ∈ s.accepted ∧ Mailbox.selects r.endpoint r.reply message = true
  | .retire e => s.Dead e
  | .idle | .receive _ | .receiveChecked _ | .awaitReply _ => True

/-- The invariant of the runs. -/
structure Inv (s : State ι ω) : Prop where
  sound : ∀ slot, (s.boxes slot).Sound []
  nextId : s.nextMessageId ≠ 0
  nextGen : s.nextGeneration ≠ 0
  accepted_lt : ∀ m ∈ s.accepted, m.messageId < s.nextMessageId
  accepted_sorted : s.accepted.Pairwise fun m m' => m.messageId < m'.messageId
  accepted_issued : ∀ m ∈ s.accepted, m.toSlot < maxThreads ∧ m.toGeneration ≠ 0 ∧ s.Issued m.toGeneration
  queued_accepted : ∀ slot, ∀ m ∈ (s.boxes slot).messages, m ∈ s.accepted ∧ m.toSlot = slot
  reserved_nodup : s.reserved.Nodup
  reserved_lt : ∀ g ∈ s.reserved, g ≠ 0 ∧ g < s.nextGeneration
  threads_issued : ∀ slot thread, s.threads slot = some thread → s.Issued thread.ipcGeneration
  lock_iff : ∀ a, s.lock = some a ↔ (s.pc a).locked = true
  pcs : ∀ a, s.PcOk (s.pc a)
  observed : ∀ o ∈ s.seen ++ s.received, o.2 ∈ s.accepted ∧ o.2.endpoint = o.1
  retired_dead : ∀ e ∈ s.retired, s.Dead e
  retired_dropped : ∀ e ∈ s.retired, ∀ slot, ∀ m ∈ (s.boxes slot).messages, m.endpoint ≠ e
  kept : ∀ slot, ∀ m ∈ (s.boxes slot).messages, s.Kept m.endpoint

namespace Inv

theorem initial : Inv (State.initial : State ι ω) where
  sound := fun _ => Mailbox.sound_new
  nextId := Nat.one_ne_zero
  nextGen := Nat.one_ne_zero
  accepted_lt := by simp [State.initial]
  accepted_sorted := List.Pairwise.nil
  accepted_issued := by simp [State.initial]
  queued_accepted := by
    intro slot m hm
    cases hm
  reserved_nodup := List.nodup_nil
  reserved_lt := by simp [State.initial]
  threads_issued := by simp [State.initial]
  lock_iff := by simp [State.initial, Pc.locked]
  pcs := fun _ => trivial
  observed := by simp [State.initial]
  retired_dead := by simp [State.initial]
  retired_dropped := by simp [State.initial]
  kept := by
    intro slot m hm
    cases hm

/-- Equal identities are the same message. -/
theorem eq_of_id (h : Inv s) {m m' : Message ω} (hm : m ∈ s.accepted) (hm' : m' ∈ s.accepted)
    (hid : m.messageId = m'.messageId) : m = m' := by
  have hnodup : (s.accepted.map Message.messageId).Nodup :=
    List.pairwise_map.mpr (h.accepted_sorted.imp Nat.ne_of_lt)
  exact List.inj_on_of_nodup_map hnodup hm hm' hid

/-! ## Changes of the thread queue -/

/-- A change of the thread queue and of the generations. The parties stay where they are, but for idle ones
    that go on to retire a lifetime that is over; nothing is alive afterwards that was not, apart from
    lifetimes that had not been issued; and a lifetime that loses its slot is retired next, or has been. -/
structure Retabled (s s' : State ι ω) : Prop where
  boxes : s'.boxes = s.boxes
  nextMessageId : s'.nextMessageId = s.nextMessageId
  lock : s'.lock = s.lock
  accepted : s'.accepted = s.accepted
  seen : s'.seen = s.seen
  received : s'.received = s.received
  retired : s'.retired = s.retired
  issued : ∀ g, s.Issued g → s'.Issued g
  live : ∀ e, s.Issued e.generation → s'.threads.Live e → s.threads.Live e
  pc : ∀ b, s'.pc b = s.pc b ∨ s.pc b = .idle ∧ ∃ e, s'.pc b = .retire e ∧ s'.Dead e
  occupied : ∀ e, e.generation ≠ 0 → s.threads.Occupies e → s'.Kept e ∨ e ∈ s.retired
  nextGen : s'.nextGeneration ≠ 0
  reserved_nodup : s'.reserved.Nodup
  reserved_lt : ∀ g ∈ s'.reserved, g ≠ 0 ∧ g < s'.nextGeneration
  threads_issued : ∀ slot thread, s'.threads slot = some thread → s'.Issued thread.ipcGeneration

namespace Retabled

variable {s' : State ι ω}

theorem dead (r : Retabled s s') (hd : s.Dead e) : s'.Dead e :=
  ⟨r.issued _ hd.1, fun hlive => hd.2 (r.live e hd.1 hlive)⟩

theorem kept (r : Retabled s s') (hk : s.Kept e) (hgen : e.generation ≠ 0)
    (hret : e ∉ s.retired) : s'.Kept e := by
  rcases hk with hocc | ⟨b, hb⟩
  · rcases r.occupied e hgen hocc with hk | hmem
    · exact hk
    · exact absurd hmem hret
  · rcases r.pc b with hsame | ⟨hidle, -⟩
    · exact .inr ⟨b, hsame.trans hb⟩
    · rw [hidle] at hb
      cases hb

theorem pcOk (r : Retabled s s') {pc : Pc ω} (hok : s.PcOk pc) : s'.PcOk pc := by
  cases pc with
  | sendChecked kernel message =>
    obtain ⟨hid, hslot, hgen, hissued, hret, hkept⟩ := hok
    exact ⟨hid, hslot, hgen, r.issued _ hissued, r.retired ▸ hret, r.kept hkept hgen hret⟩
  | copying recv slot message | committing recv slot message => exact ⟨r.accepted ▸ hok.1, hok.2⟩
  | retire e => exact r.dead hok
  | send kernel message => exact hok
  | idle | receive _ | receiveChecked _ | awaitReply _ => exact trivial

end Retabled

/-- **Changes of threads keep the invariant.** -/
theorem retable {s' : State ι ω} (h : Inv s) (r : Retabled s s') : Inv s' where
  sound := r.boxes ▸ h.sound
  nextId := r.nextMessageId ▸ h.nextId
  nextGen := r.nextGen
  accepted_lt := by
    rw [r.accepted, r.nextMessageId]
    exact h.accepted_lt
  accepted_sorted := r.accepted ▸ h.accepted_sorted
  accepted_issued := by
    intro m hm
    obtain ⟨hslot, hne, hi⟩ := h.accepted_issued m (r.accepted ▸ hm)
    exact ⟨hslot, hne, r.issued _ hi⟩
  queued_accepted := by
    rw [r.boxes, r.accepted]
    exact h.queued_accepted
  reserved_nodup := r.reserved_nodup
  reserved_lt := r.reserved_lt
  threads_issued := r.threads_issued
  lock_iff := by
    intro b
    rw [r.lock, h.lock_iff b]
    rcases r.pc b with hsame | ⟨hidle, e, hret, -⟩
    · rw [hsame]
    · rw [hidle, hret]
      rfl
  pcs := by
    intro b
    rcases r.pc b with hsame | ⟨-, e, hret, hdead⟩
    · rw [hsame]
      exact r.pcOk (h.pcs b)
    · rw [hret]
      exact hdead
  observed := by
    rw [r.seen, r.received, r.accepted]
    exact h.observed
  retired_dead := fun e he => r.dead (h.retired_dead e (r.retired ▸ he))
  retired_dropped := by
    rw [r.retired, r.boxes]
    exact h.retired_dropped
  kept := by
    rw [r.boxes]
    intro slot m hm
    refine r.kept (h.kept slot m hm) (h.accepted_issued m (h.queued_accepted slot m hm).1).2.1 ?_
    intro hret
    exact h.retired_dropped _ hret slot m hm rfl

theorem issued_of_occupies (h : Inv s) (hocc : s.threads.Occupies e) : s.Issued e.generation := by
  obtain ⟨thread, ht, -, hgen⟩ := hocc
  exact hgen ▸ h.threads_issued _ _ ht

section Table

variable {threads : Threads} {pc : ι → Pc ω}

/-- The reservations stay as they are and the table loses threads. -/
theorem narrow (h : Inv s) (hn : s.threads.Narrows threads)
    (hpc : ∀ b, pc b = s.pc b ∨ s.pc b = .idle ∧ ∃ e, pc b = .retire e ∧
      s.threads.Occupies e ∧ ¬ threads.Live e) (hocc : ∀ e, e.generation ≠ 0 → s.threads.Occupies e →
      (threads.Occupies e ∨ ∃ b, pc b = .retire e) ∨ e ∈ s.retired) :
    Retabled s { s with threads := threads, pc := pc } := by
  refine ⟨rfl, rfl, rfl, rfl, rfl, rfl, rfl, fun _ hg => hg, fun _ _ hlive => hn.live hlive,
    ?_, hocc, h.nextGen, h.reserved_nodup, h.reserved_lt, ?_⟩
  · intro b
    refine (hpc b).imp_right ?_
    rintro ⟨hidle, e, he, hocc, hlive⟩
    exact ⟨hidle, e, he, h.issued_of_occupies hocc, hlive⟩
  · intro slot thread ht
    obtain ⟨old, hold, -, hgen, -⟩ := hn slot thread ht
    exact hgen ▸ h.threads_issued slot old hold

/-- A thread with a generation from the reservation, or with none, gets the slot. -/
theorem setThread (h : Inv s) {t : IpcThread} (hset : threads = update s.threads slot (some t))
    (hgen : t.ipcGeneration = 0 ∨ t.ipcGeneration ∈ s.reserved)
    (hpc : ∀ b, pc b = s.pc b ∨ s.pc b = .idle ∧ ∃ e, pc b = .retire e ∧
      s.threads.Occupies e ∧ ¬ threads.Live e)
    (hocc : ∀ e, s.threads.Occupies e → e.slot = slot → ∃ b, pc b = .retire e) :
    Retabled s { s with threads := threads, reserved := s.reserved.erase t.ipcGeneration, pc := pc } := by
  have hissued : ∀ g, s.Issued g → g < s.nextGeneration ∧ g ∉ s.reserved.erase t.ipcGeneration :=
    fun g hg => ⟨hg.1, fun hmem => hg.2 (List.mem_of_mem_erase hmem)⟩
  have hcases : ∀ slot' thread, threads slot' = some thread → t = thread ∨ s.threads slot' = some thread := by
    intro slot' thread ht
    by_cases hslot : slot' = slot
    · rw [hset, hslot, update_self] at ht
      exact .inl (Option.some.inj ht)
    · rw [hset, update_of_ne hslot] at ht
      exact .inr ht
  refine ⟨rfl, rfl, rfl, rfl, rfl, rfl, rfl, hissued, ?_, ?_, ?_, h.nextGen,
    h.reserved_nodup.erase _, fun g hg => h.reserved_lt g (List.mem_of_mem_erase hg), ?_⟩
  · -- the lifetime of the t thread had not been issued
    rintro e hi ⟨hne, thread, ht, hid, hg, halive⟩
    rcases hcases _ _ ht with rfl | ht
    · rw [hg] at hgen
      rcases hgen with hzero | hmem
      · exact absurd hzero hne
      · exact absurd hmem hi.2
    · exact ⟨hne, thread, ht, hid, hg, halive⟩
  · intro b
    refine (hpc b).imp_right ?_
    rintro ⟨hidle, e, he, hocc, hlive⟩
    exact ⟨hidle, e, he, hissued _ (h.issued_of_occupies hocc), hlive⟩
  · intro e _ hocc'
    left
    by_cases hslot : e.slot = slot
    · exact .inr (hocc e hocc' hslot)
    · obtain ⟨thread, ht, hrest⟩ := hocc'
      exact .inl ⟨thread, (congrFun hset _).trans ((update_of_ne hslot _ _).trans ht), hrest⟩
  · intro slot' thread ht
    rcases hcases _ _ ht with rfl | ht
    · refine ⟨?_, h.reserved_nodup.not_mem_erase⟩
      rcases hgen with hzero | hmem
      · exact hzero ▸ Nat.pos_of_ne_zero h.nextGen
      · exact (h.reserved_lt _ hmem).2
    · exact hissued _ (h.threads_issued slot' thread ht)

end Table

theorem reserve (h : Inv s) :
    Retabled s { s with
      nextGeneration := s.nextGeneration + 1
      reserved := s.nextGeneration :: s.reserved } := by
  have hissued : ∀ g, s.Issued g → g < s.nextGeneration + 1 ∧ g ∉ s.nextGeneration :: s.reserved := by
    intro g hg
    refine ⟨hg.1.trans (Nat.lt_succ_self _), ?_⟩
    rw [List.mem_cons, not_or]
    exact ⟨hg.1.ne, hg.2⟩
  refine ⟨rfl, rfl, rfl, rfl, rfl, rfl, rfl, hissued, fun _ _ hl => hl, fun _ => .inl rfl,
    fun e _ hocc => .inl (.inl hocc), Nat.succ_ne_zero _, ?_, ?_, ?_⟩
  · exact List.nodup_cons.mpr ⟨fun hmem => (h.reserved_lt _ hmem).2.ne rfl, h.reserved_nodup⟩
  · intro g hg
    rcases List.mem_cons.mp hg with rfl | hg
    · exact ⟨h.nextGen, Nat.lt_succ_self _⟩
    · exact ⟨(h.reserved_lt g hg).1, (h.reserved_lt g hg).2.trans (Nat.lt_succ_self _)⟩
  · intro slot thread ht
    exact hissued _ (h.threads_issued slot thread ht)

/-! ## Steps of one party -/

variable [DecidableEq ι] {pc : Pc ω}

theorem goto_pc (s : State ι ω) (a b : ι) (pc : Pc ω) :
    (s.goto a pc).pc b = if b = a then pc else s.pc b := by
  show update s.pc a pc b = _
  rw [update_apply]

/-- A party that is not about to retire something may move on. -/
theorem kept_goto (hk : s.Kept e) (hnot : ∀ e, s.pc a ≠ .retire e) : (s.goto a pc).Kept e := by
  rcases hk with hocc | ⟨b, hb⟩
  · exact .inl hocc
  · refine .inr ⟨b, ?_⟩
    rw [goto_pc, if_neg]
    · exact hb
    · rintro rfl
      exact hnot e hb

theorem pcOk_goto {pc' : Pc ω} (hok : s.PcOk pc') (hnot : ∀ e, s.pc a ≠ .retire e) :
    (s.goto a pc).PcOk pc' := by
  cases pc' with
  | sendChecked kernel message =>
    obtain ⟨hid, hslot, hgen, hissued, hret, hkept⟩ := hok
    exact ⟨hid, hslot, hgen, hissued, hret, kept_goto hkept hnot⟩
  | _ => exact hok

/-- A party that retires nothing takes another place, and the mailbox lock with it or not. -/
theorem place {lock : Option ι} (h : Inv s) (hok : s.PcOk pc) (hnot : ∀ e, s.pc a ≠ .retire e)
    (hlock : ∀ b, lock = some b ↔ (if b = a then pc else s.pc b).locked = true) :
    Inv ({ s with lock := lock }.goto a pc) := by
  refine { h with lock_iff := ?_, pcs := ?_, kept := ?_ }
  · intro b
    rw [goto_pc]
    exact hlock b
  · intro b
    rw [goto_pc]
    by_cases hb : b = a
    · rw [if_pos hb]
      exact pcOk_goto (s := { s with lock := lock }) hok hnot
    · rw [if_neg hb]
      exact pcOk_goto (s := { s with lock := lock }) (h.pcs b) hnot
  · intro slot m hm
    exact kept_goto (s := { s with lock := lock }) (h.kept slot m hm) hnot

/-- A move outside the mailbox lock that changes nothing but the place. -/
theorem goto (h : Inv s) (hok : s.PcOk pc) (hlocked : pc.locked = (s.pc a).locked)
    (hnot : ∀ e, s.pc a ≠ .retire e) : Inv (s.goto a pc) := by
  refine h.place hok hnot fun b => ?_
  by_cases hb : b = a
  · rw [if_pos hb, hlocked, hb]
    exact h.lock_iff a
  · rw [if_neg hb]
    exact h.lock_iff b

/-- The mailbox lock is taken. -/
theorem locked (h : Inv s) (hfree : s.lock = none) (hpc : pc.locked = true)
    (hnot : ∀ e, s.pc a ≠ .retire e) (hok : s.PcOk pc) : Inv ({ s with lock := some a }.goto a pc) := by
  refine h.place hok hnot fun b => ?_
  by_cases hb : b = a
  · rw [if_pos hb, hb]
    exact ⟨fun _ => hpc, fun _ => rfl⟩
  · rw [if_neg hb, ← h.lock_iff b, hfree]
    exact ⟨fun heq => absurd (Option.some.inj heq).symm hb, nofun⟩

/-! ## The labels of the thread queue -/

/-- An idle party that goes on to retire an endpoint, if there is one. -/
theorem retireNext_pc (s : State ι ω) (a b : ι) (endpoint : Option IpcEndpoint) (hidle : s.pc a = .idle) :
    (s.retireNext a endpoint).pc b = s.pc b ∨
      s.pc b = .idle ∧ ∃ e, (s.retireNext a endpoint).pc b = .retire e ∧ endpoint = some e := by
  have hpc : (s.retireNext a endpoint).pc b = if b = a then endpoint.elim .idle .retire else s.pc b :=
    goto_pc s a b _
  rw [hpc]
  by_cases hb : b = a
  · rw [if_pos hb, hb, hidle]
    cases endpoint with
    | none => exact .inl rfl
    | some e => exact .inr ⟨rfl, e, rfl, rfl⟩
  · exact .inl (if_neg hb)

omit [DecidableEq ι] in
theorem addThread (h : Inv s) (hfree : s.threads slot = none)
    (hgen : generation = 0 ∨ generation ∈ s.reserved) : Retabled s { s with
      threads := update s.threads slot (some ⟨id, generation, false⟩)
      reserved := s.reserved.erase generation } := by
  refine h.setThread rfl hgen (fun _ => .inl rfl) ?_
  rintro e ⟨thread, ht, -⟩ hslot
  rw [hslot, hfree] at ht
  cases ht

omit [DecidableEq ι] in
theorem beginExit (h : Inv s) (id : Nat) : Retabled s { s with threads := s.threads.terminate id } :=
  h.narrow (Threads.narrows_terminate _ id) (fun _ => .inl rfl) fun _ _ hocc => .inl (.inl hocc.terminate)

theorem terminate (h : Inv s) (hidle : s.pc a = .idle) (id : Nat) :
    Retabled s ({ s with threads := s.threads.terminate id }.retireNext a
      (s.threads.endpointForThread id)) := by
  refine h.narrow (Threads.narrows_terminate _ id) ?_ fun _ _ hocc => .inl (.inl hocc.terminate)
  intro b
  refine (retireNext_pc { s with threads := s.threads.terminate id } a b _ hidle).imp_right ?_
  rintro ⟨hidle, e, hpc, he⟩
  exact ⟨hidle, e, hpc, (Threads.occupies_of_endpointForThread he).1, Threads.not_live_terminate he⟩

theorem removeThread (h : Inv s) (hidle : s.pc a = .idle) (id : Nat) :
    Retabled s ({ s with threads := s.threads.remove id }.retireNext a (s.threads.endpointForThread id)) := by
  refine h.narrow (Threads.narrows_remove _ id) ?_ ?_
  · intro b
    refine (retireNext_pc { s with threads := s.threads.remove id } a b _ hidle).imp_right ?_
    rintro ⟨hidle, e, hpc, he⟩
    exact ⟨hidle, e, hpc, (Threads.occupies_of_endpointForThread he).1, Threads.not_live_remove he⟩
  · intro e hgen hocc
    refine .inl ((hocc.remove hgen id).imp_right ?_)
    intro he
    refine ⟨a, ?_⟩
    rw [he]
    exact update_self _ _ _

omit [DecidableEq ι] in
theorem removeQuiescent (h : Inv s) (hret : ∀ e, s.threads.endpointForThread id = some e → e ∈ s.retired) :
    Retabled s { s with threads := s.threads.remove id } := by
  refine h.narrow (Threads.narrows_remove _ id) (fun _ => .inl rfl) ?_
  intro e hgen hocc
  exact (hocc.remove hgen id).imp .inl (hret e)

/-- **A new image starts a new lifetime.** -/
theorem replaceImage (h : Inv s) (hidle : s.pc a = .idle) {previous : Nat}
    {threads : Threads} (hrep : s.threads.replaceIpcGeneration id generation = some (threads, slot, previous))
    (hmem : generation ∈ s.reserved) :
    Retabled s ({ s with threads := threads, reserved := s.reserved.erase generation }.goto a
      (.retire ⟨id, slot, previous⟩)) := by
  unfold Threads.replaceIpcGeneration at hrep
  obtain ⟨found, hfound, hrep⟩ := Option.bind_eq_some_iff.mp hrep
  obtain ⟨old, hold, hrep⟩ := Option.map_eq_some_iff.mp hrep
  cases hrep
  obtain ⟨-, thread, ht, hid⟩ := Threads.slotIndex_some hfound
  rw [hold] at ht
  cases ht
  refine h.setThread (t := { old with ipcGeneration := generation }) rfl (.inr hmem) ?_ ?_
  · intro b
    by_cases hb : b = a
    · refine .inr ⟨hb ▸ hidle, ⟨id, slot, old.ipcGeneration⟩, hb ▸ update_self _ _ _,
        ⟨old, hold, hid, rfl⟩, ?_⟩
      rintro ⟨-, thread, ht, -, hg, -⟩
      cases (update_self ..).symm.trans ht
      -- the generation of the thread is issued, the one it gets was reserved
      have hgen : generation = old.ipcGeneration := hg
      exact (h.threads_issued slot old hold).2 (hgen ▸ hmem)
    · exact .inl (update_of_ne hb _ _)
  · rintro e ⟨thread, ht, hid', hg⟩ hslot
    refine ⟨a, ?_⟩
    rw [hslot, hold] at ht
    cases ht
    cases e
    simp_all

end Inv

end State

end Mnu.Ipc
