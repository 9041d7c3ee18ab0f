import Mnu.Ipc.Rotation
import Mnu.Lib.Run

/-!
# `Mnu.Ipc.MailboxRuns` — a mailbox is never given up

The operations of one mailbox in any order, taken apart into the calls that move one slot: reserving and
filling a slot, queueing it, reading the head of the queue, emptying a slot. Under the mailbox lock an
operation has at most one slot in its hands (`held`). The three operations that rotate the queue are steps of
their own, and the other mailboxes draw message identities from the same counter.

`quarantines` says when a step would enter one of the branches for inconsistent storage. `Inv` rules them out:
the slots are partitioned (`Mailbox.Sound`), and the messages in the queue and in hand are in order together
(`Tidy`).
-/

namespace Mnu.Ipc

open Mnu.Lib Function

namespace Mailbox

variable {ω : Type} {m : Mailbox ω} {held : List Nat} {slot next : Nat} {message : Message ω}
  {configured : Nat}
  {xs ys : List (Message ω)}

/-! ## The branches for inconsistent storage -/

/-- `take_slot` finds its slot out of range, unused already, or empty. -/
def takeCorrupt (m : Mailbox ω) (idx : Nat) : Bool :=
  mailboxCap ≤ idx || mailboxCap ≤ m.freeCount || ((List.range m.freeCount).any fun i => m.free i = idx) ||
    (m.slots idx).isNone

/-- `reserve_slot` finds an occupied slot among the unused ones. -/
def reserveCorrupt (m : Mailbox ω) (configured : Nat) (isReply : Bool) : Bool :=
  !m.full configured isReply &&
    (mailboxCap ≤ m.free (m.freeCount - 1) || (m.slots (m.free (m.freeCount - 1))).isSome)

/-- A turn of the queue that empties the slots with `takes`, or only the first of them if `once`, finds an
    entry missing, an empty slot, or no place to put an entry back. -/
def turnCorrupt (takes : Message ω → Bool) (once : Bool) : Nat → Mailbox ω → Nat → Bool
  | 0, _, _ => false
  | n + 1, m, next =>
    match m.dequeueSlot with
    | none => true
    | some (slot, m) =>
      match m.message slot with
      | none => true
      | some message =>
        if takes message then
          m.takeCorrupt slot || (!once && turnCorrupt takes once n (m.takeSlot slot).1 next)
        else
          match m.enqueueSlot slot next with
          | none => true
          | some (m, next) => turnCorrupt takes once n m next

/-- `commit_receive` finds its message in a slot that is not queued, or cannot turn the queue. -/
def commitCorrupt (m : Mailbox ω) (slot id next : Nat) : Bool :=
  mailboxCap < m.count || ((m.message slot).any (fun message => message.messageId = id) &&
    (slot ∉ m.queued || match commitLoop slot m.count m next with
      | (_, _, false) => true
      | (m, _, true) => m.takeCorrupt slot))

theorem takeSlot_of_corrupt (h : m.takeCorrupt slot = true) : m.takeSlot slot = (m.quarantine, none) := by
  unfold takeSlot
  repeat' split
  all_goals first | rfl | simp_all [takeCorrupt]

namespace Sound

theorem takeCorrupt_eq_false (h : Sound (slot :: held) m) (hm : m.slots slot = some message) :
    m.takeCorrupt slot = false := by
  -- a slot given up would not be the message that `take_slot` returns
  by_contra hc
  have heq : m.takeSlot slot = _ := takeSlot_of_corrupt (by simpa using hc)
  simp [(h.takeSlot hm).1] at heq

theorem reserveCorrupt_eq_false (h : Sound [] m) (isReply : Bool) :
    m.reserveCorrupt configured isReply = false := by
  by_cases hzero : m.freeCount = 0
  · simp [reserveCorrupt, full, hzero]
  · have hmem : m.free (m.freeCount - 1) ∈ m.freed :=
      List.mem_map.mpr ⟨m.freeCount - 1, List.mem_range.mpr (by omega), rfl⟩
    have hlt : m.free (m.freeCount - 1) < mailboxCap := h.lt_cap (by simp [hmem])
    simp [reserveCorrupt, h.freed_none _ hmem, Nat.not_le.mpr hlt]

/-- A turn of a sound queue meets nothing wrong. -/
theorem turnCorrupt_eq_false (takes : Message ω → Bool) (once : Bool) {n : Nat}
    (h : Sound [] m) (hn : n ≤ m.count) (next : Nat) : turnCorrupt takes once n m next = false := by
  induction n generalizing m with
  | zero => rfl
  | succ n ih =>
    have hlen : m.queued.length = m.count := RingBuffer.length_toList m.toRingBuffer
    obtain ⟨x, xs, hq⟩ := List.exists_cons_of_length_pos (l := m.queued) (by omega)
    obtain ⟨r₁, hd, hlist₁, h₁⟩ := h.dequeueSlot hq
    have hcount₁ : r₁.count = xs.length := by rw [← hlist₁, RingBuffer.length_toList]
    rw [hq, List.length_cons] at hlen
    obtain ⟨message, hmsg, hm, hid⟩ := h.message_queued (show x ∈ m.queued by simp [hq])
    rw [turnCorrupt, hd]
    simp only [show ({ m with toRingBuffer := r₁ } : Mailbox ω).message x = some message from hmsg]
    split
    · obtain ⟨htake, h₂⟩ := h₁.takeSlot hm
      rw [h₁.takeCorrupt_eq_false hm, htake, ih h₂ (by show n ≤ r₁.count; omega)]
      simp
    · obtain ⟨r₂, he, hlist₂, h₂⟩ := h₁.enqueueSlot hm hid next
      have hcount₂ : r₂.count = r₁.count + 1 := by
        rw [← @RingBuffer.length_toList _ mailboxCap r₂, hlist₂, List.length_append, queued,
          RingBuffer.length_toList, List.length_singleton]
      simp only [he]
      exact ih h₂ (by show n ≤ r₂.count; omega)

/-- With nothing in hand, a slot with a message is queued. -/
theorem queued_of_message (h : Sound [] m) (hmsg : m.message slot = some message) :
    slot ∈ m.queued ∧ m.slots slot = some message := by
  unfold Mailbox.message at hmsg
  split at hmsg
  · rename_i hlt
    have hmem := h.perm.mem_iff.mpr (List.mem_range.mpr hlt)
    simp only [List.append_nil, List.mem_append] at hmem
    exact ⟨hmem.resolve_right fun hf => by simp [h.freed_none slot hf] at hmsg, hmsg⟩
  · cases hmsg

theorem commitCorrupt_eq_false (h : Sound [] m) (slot id next : Nat) :
    m.commitCorrupt slot id next = false := by
  have hcap : ¬ mailboxCap < m.count := Nat.not_lt.mpr h.count_le
  have hlen : m.queued.length = m.count := RingBuffer.length_toList m.toRingBuffer
  by_cases hany : (m.message slot).any fun message => message.messageId = id
  · obtain ⟨message, hmsg, -⟩ := (Option.any_eq_true _ _).mp hany
    obtain ⟨hq, hm⟩ := h.queued_of_message hmsg
    obtain ⟨r, hloop, -, hsound⟩ := commitLoop_spec h (List.append_nil _).symm slot next
    have hmem : slot ∈ m.queued.filter (· = slot) ++ [] := by simp [hq]
    obtain ⟨before, after, hheld⟩ := List.append_of_mem hmem
    rw [hheld] at hsound
    have htake := (hsound.held_perm List.perm_middle).takeCorrupt_eq_false hm
    rw [hlen] at hloop
    simp [commitCorrupt, hcap, hq, hloop, htake]
  · simp only [commitCorrupt, hany]
    simp [hcap]

end Sound

/-! ## Runs -/

/-- A mailbox between two calls under its lock: the slot an operation has in hand, and `NEXT_MESSAGE_ID`. -/
structure Run (ω : Type) where
  mailbox : Mailbox ω
  held : Option Nat
  next : Nat

/-- An operation on a mailbox. -/
inductive Act (ω : Type) where
  /-- `reserve_slot`, and the message written to the slot. -/
  | reserve (message : Message ω) (asReply : Bool)
  | enqueueSlot
  | dequeueSlot
  | takeSlot
  | retireDestination (endpoint : IpcEndpoint)
  | popReplyCopy (filter : ReplyFilter) (outputLen : Nat)
  | commitReceive (slot id : Nat)
  /-- Another mailbox takes an identity. -/
  | elsewhere

/-- One call. A message that is filled in has no identity yet, and only a reply is admitted as one; a slot
    that cannot be queued is emptied. -/
def step (configured : Nat) (s : Run ω) : Act ω → Option (Run ω)
  | .reserve message asReply =>
    if s.held = none ∧ message.messageId = 0 ∧ (asReply → message.isReply) then
      match s.mailbox.reserveSlot configured asReply with
      | (m, none) => some { s with mailbox := m }
      | (m, some slot) =>
        some { s with mailbox := { m with slots := update m.slots slot (some message) }, held := some slot }
    else none
  | .enqueueSlot =>
    s.held.map fun slot =>
      match s.mailbox.enqueueSlot slot s.next with
      | some (m, next) => ⟨m, none, next⟩
      | none => ⟨(s.mailbox.takeSlot slot).1, none, s.next⟩
  | .dequeueSlot =>
    if s.held = none then
      s.mailbox.dequeueSlot.map fun (slot, m) => { s with mailbox := m, held := some slot }
    else none
  | .takeSlot => s.held.map fun slot => { s with mailbox := (s.mailbox.takeSlot slot).1, held := none }
  | .retireDestination endpoint =>
    if s.held = none then
      let (m, next, _) := s.mailbox.retireDestination endpoint s.next
      some ⟨m, none, next⟩
    else none
  | .popReplyCopy filter outputLen =>
    if s.held = none then
      let (m, next, _) := s.mailbox.popReplyCopy filter outputLen s.next
      some ⟨m, none, next⟩
    else none
  | .commitReceive slot id =>
    if s.held = none then
      let (m, next, _) := s.mailbox.commitReceive slot id s.next
      some ⟨m, none, next⟩
    else none
  | .elsewhere => if s.next + 1 < 2 ^ 64 then some { s with next := s.next + 1 } else none

/-- Whether a call enters a branch for inconsistent storage. -/
def quarantines (configured : Nat) (s : Run ω) : Act ω → Bool
  | .reserve _ asReply => s.mailbox.reserveCorrupt configured asReply
  | .enqueueSlot =>
    s.held.any fun slot => (s.mailbox.enqueueSlot slot s.next).isNone && s.mailbox.takeCorrupt slot
  | .dequeueSlot => false
  | .takeSlot => s.held.any s.mailbox.takeCorrupt
  | .retireDestination endpoint =>
    mailboxCap < s.mailbox.count ||
      turnCorrupt (fun message => message.endpoint = endpoint) false s.mailbox.count s.mailbox s.next
  | .popReplyCopy filter _ => turnCorrupt filter.accepts true s.mailbox.count s.mailbox s.next
  | .commitReceive slot id => s.mailbox.commitCorrupt slot id s.next
  | .elsewhere => false

/-- A mailbox starts empty, and identities start at one. -/
def system (ω : Type) (configured : Nat) : System (Run ω) (Act ω) :=
  ⟨fun s => s = ⟨new, none, 1⟩, step configured⟩

/-- The messages in hand and in the queue. -/
def Run.all (s : Run ω) : List (Message ω) := (s.held.bind s.mailbox.slots).toList ++ s.mailbox.messages

/-- Messages in order: identities are handed out once, and the last place is not used by ordinary messages. -/
structure Tidy (configured next : Nat) (xs : List (Message ω)) : Prop where
  ids : (xs.map Message.messageId).Pairwise fun a b => a = b → a = 0
  issued : ∀ x ∈ xs, x.messageId < next
  ordinary : xs.countP (fun x => !x.isReply) ≤ ipcMailboxCap configured - 1

theorem Tidy.perm (h : Tidy configured next xs) (hp : xs.Perm ys) : Tidy configured next ys where
  ids := (hp.map _).pairwise h.ids fun hab hba => hba ▸ hab hba.symm
  issued := fun x hx => h.issued x (hp.mem_iff.mpr hx)
  ordinary := hp.countP_eq _ ▸ h.ordinary

theorem Tidy.sublist (h : Tidy configured next xs) (hs : ys.Sublist xs) : Tidy configured next ys where
  ids := h.ids.sublist (hs.map _)
  issued := fun x hx => h.issued x (hs.subset hx)
  ordinary := (hs.countP_le).trans h.ordinary

theorem Tidy.mono {next' : Nat} (h : Tidy configured next xs) (hle : next ≤ next') :
    Tidy configured next' xs :=
  ⟨h.ids, fun x hx => (h.issued x hx).trans_le hle, h.ordinary⟩

/-- A message that had no identity is given the next one. -/
theorem Tidy.stamp (h : Tidy configured next (message :: xs)) :
    Tidy configured (next + 1) ({ message with messageId := next } :: xs) where
  ids := by
    refine List.pairwise_cons.mpr ⟨fun b hb heq => ?_, (List.pairwise_cons.mp h.ids).2⟩
    obtain ⟨x, hx, rfl⟩ := List.mem_map.mp hb
    exact absurd heq (h.issued x (List.mem_cons_of_mem _ hx)).ne'
  issued := by
    have hissued := (h.mono (Nat.le_succ next)).issued
    simp only [List.forall_mem_cons] at hissued ⊢
    exact ⟨Nat.lt_succ_self _, hissued.2⟩
  ordinary := h.ordinary

/-- What holds between any two calls. -/
structure Inv (configured : Nat) (s : Run ω) : Prop where
  sound : Sound s.held.toList s.mailbox
  in_hand : ∀ slot ∈ s.held, (s.mailbox.slots slot).isSome
  tidy : Tidy configured s.next s.all
  pos : s.next ≠ 0

variable {s s' : Run ω} (h : Inv configured s)

/-- A call that leaves nothing in hand leaves a sound mailbox with tidy messages. -/
theorem Inv.idle {m : Mailbox ω} (hsound : Sound [] m) (htidy : Tidy configured next m.messages)
    (hpos : next ≠ 0) : Inv configured ⟨m, none, next⟩ :=
  ⟨hsound, nofun, htidy, hpos⟩

include h

theorem Inv.of_none (hheld : s.held = none) :
    Sound [] s.mailbox ∧ Tidy configured s.next s.mailbox.messages := by
  obtain ⟨hsound, -, htidy, -⟩ := h
  simp only [Run.all, hheld] at hsound htidy
  exact ⟨hsound, htidy⟩

theorem Inv.of_some (hheld : s.held = some slot) :
    ∃ message, s.mailbox.slots slot = some message ∧ Sound [slot] s.mailbox ∧
      Tidy configured s.next (message :: s.mailbox.messages) := by
  obtain ⟨message, hm⟩ := Option.isSome_iff_exists.mp (h.in_hand slot hheld)
  obtain ⟨hsound, -, htidy, -⟩ := h
  simp only [Run.all, hheld, Option.bind_some, hm] at hsound htidy
  exact ⟨message, hm, hsound, htidy⟩

omit h

theorem inv_start : Inv configured (⟨new, none, 1⟩ : Run ω) :=
  .idle sound_new ⟨List.Pairwise.nil, nofun, Nat.zero_le _⟩ Nat.one_ne_zero

include h

/-- The slot in hand goes back to the unused ones. -/
theorem Inv.release (hheld : s.held = some slot) :
    Inv configured ⟨(s.mailbox.takeSlot slot).1, none, s.next⟩ := by
  obtain ⟨message, hm, hsound, -⟩ := h.of_some hheld
  obtain ⟨htake, hreleased⟩ := hsound.takeSlot hm
  have hnot : slot ∉ s.mailbox.queued := fun hs =>
    (List.nodup_append.mp (List.nodup_append.mp hsound.nodup).1).2.2 slot hs slot (by simp) rfl
  rw [htake]
  refine .idle hreleased (h.tidy.sublist ?_) h.pos
  rw [Sound.messages_released hnot]
  exact List.sublist_append_right _ _

theorem Inv.reserve (hheld : s.held = none) (hid : message.messageId = 0) {asReply : Bool}
    (hreply : asReply → message.isReply) (hs : step configured s (.reserve message asReply) = some s') :
    Inv configured s' := by
  obtain ⟨hsound, htidy⟩ := h.of_none hheld
  simp only [step, if_pos (show s.held = none ∧ message.messageId = 0 ∧ (asReply → message.isReply) from
    ⟨hheld, hid, hreply⟩)] at hs
  rcases reserveSlot_cases hsound configured asReply with ⟨-, heq⟩ | ⟨hfull, slot, heq, hslot⟩
  · rw [heq] at hs
    cases hs
    exact h
  · rw [heq] at hs
    cases hs
    obtain ⟨hwrite, hmessages⟩ := hslot.write message
    refine ⟨hwrite, fun s' hs' => ?_, ?_, h.pos⟩
    · cases hs'; simp
    have hall : Run.all (ω := ω) ⟨{ s.mailbox with
        freeCount := s.mailbox.freeCount - 1
        slots := update s.mailbox.slots slot (some message) }, some slot, s.next⟩ =
          message :: s.mailbox.messages := by
      simp only [Run.all, Option.bind_some, update_self]
      exact congrArg (message :: ·) hmessages
    show Tidy configured s.next (Run.all ⟨_, some slot, s.next⟩)
    rw [hall]
    refine ⟨List.pairwise_cons.mpr ⟨fun _ _ _ => hid, htidy.ids⟩, ?_, ?_⟩
    · simpa [hid, Nat.pos_of_ne_zero h.pos] using htidy.issued
    · -- a message that is not admitted as a reply leaves one place
      have hcount : s.mailbox.messages.length ≤ s.mailbox.count := by
        rw [← @RingBuffer.length_toList _ mailboxCap s.mailbox.toRingBuffer]
        exact List.length_filterMap_le _ _
      have hle := htidy.ordinary
      have hcountP := List.countP_le_length (p := fun x : Message ω => !x.isReply) (l := s.mailbox.messages)
      rw [List.countP_cons]
      cases hr : message.isReply with
      | true => simpa [hr] using hle
      | false =>
        have : asReply = false := by cases asReply <;> simp_all
        subst this
        simp [full] at hfull
        simp
        omega

/-- The slot in hand joins the queue, with an identity from now on. -/
theorem Inv.enqueue (hs : step configured s .enqueueSlot = some s') : Inv configured s' := by
  obtain ⟨slot, hheld, rfl⟩ := Option.map_eq_some_iff.mp hs
  obtain ⟨message, hm, hsound, htidy⟩ := h.of_some hheld
  by_cases hid : message.messageId = 0
  · by_cases hwrap : s.next + 1 < 2 ^ 64
    · obtain ⟨m', he, hqueued, hmessages⟩ := hsound.enqueueSlot_fresh hm hid h.pos hwrap
      simp only [he]
      exact .idle hqueued (htidy.stamp.perm (hmessages ▸ (List.perm_append_singleton _ _).symm))
        (Nat.succ_ne_zero _)
    · simp only [hsound.enqueueSlot_new hm hid, if_neg hwrap]
      exact h.release hheld
  · obtain ⟨r, he, hlist, hqueued⟩ := hsound.enqueueSlot hm hid s.next
    simp only [he]
    refine .idle hqueued (htidy.perm ?_) h.pos
    show List.Perm _ ((r.toList mailboxCap).filterMap s.mailbox.slots)
    rw [hlist, List.filterMap_append, List.filterMap_cons_some hm]
    exact (List.perm_append_singleton _ _).symm

/-- The head of the queue is in hand. -/
theorem Inv.dequeue (hheld : s.held = none) (hs : step configured s .dequeueSlot = some s') :
    Inv configured s' := by
  obtain ⟨hsound, -⟩ := h.of_none hheld
  simp only [step, hheld, if_true] at hs
  cases hq : s.mailbox.queued with
  | nil => simp [Mailbox.dequeueSlot, RingBuffer.dequeue_eq_none.mpr hq] at hs
  | cons slot rest =>
    obtain ⟨r, hd, hrest, hslot⟩ := hsound.dequeueSlot hq
    obtain ⟨message, -, hm, -⟩ := hsound.message_queued (show slot ∈ s.mailbox.queued by simp [hq])
    rw [hd] at hs
    cases hs
    refine ⟨hslot, fun s' hs' => ?_, ?_, h.pos⟩
    · cases hs'; simp [hm]
    have hall : s.all = message :: rest.filterMap s.mailbox.slots := by
      simp [Run.all, hheld, messages, hq, hm]
    have hnew : Run.all ⟨{ s.mailbox with toRingBuffer := r }, some slot, s.next⟩ =
        message :: rest.filterMap s.mailbox.slots := by
      simp [Run.all, hm, messages, queued, hrest]
    exact hnew ▸ hall ▸ h.tidy

theorem Inv.step {act : Act ω} (hs : Mailbox.step configured s act = some s') : Inv configured s' := by
  cases act with
  | reserve message asReply =>
    by_cases hok : s.held = none ∧ message.messageId = 0 ∧ (asReply → message.isReply)
    · exact h.reserve hok.1 hok.2.1 hok.2.2 hs
    · simp [Mailbox.step, hok] at hs
  | enqueueSlot => exact h.enqueue hs
  | takeSlot =>
    obtain ⟨slot, hheld, rfl⟩ := Option.map_eq_some_iff.mp hs
    exact h.release hheld
  | elsewhere =>
    simp only [Mailbox.step, Option.ite_none_right_eq_some, Option.some.injEq] at hs
    obtain ⟨-, rfl⟩ := hs
    exact ⟨h.sound, h.in_hand, h.tidy.mono (Nat.le_succ _), Nat.succ_ne_zero _⟩
  | dequeueSlot =>
    by_cases hheld : s.held = none
    · exact h.dequeue hheld hs
    · simp [Mailbox.step, hheld] at hs
  | retireDestination endpoint =>
    simp only [Mailbox.step, Option.ite_none_right_eq_some, Option.some.injEq] at hs
    obtain ⟨hheld, rfl⟩ := hs
    obtain ⟨hsound, htidy⟩ := h.of_none hheld
    obtain ⟨m', retired, heq, hsound', hmessages, -⟩ := retireDestination_spec hsound endpoint s.next
    rw [heq]
    exact .idle hsound' (htidy.sublist (hmessages ▸ List.filter_sublist)) h.pos
  | popReplyCopy filter outputLen =>
    simp only [Mailbox.step, popReplyCopy, Option.ite_none_right_eq_some, Option.some.injEq] at hs
    obtain ⟨hheld, rfl⟩ := hs
    obtain ⟨hsound, htidy⟩ := h.of_none hheld
    rcases popReply_cases hsound filter s.next with
      ⟨m', heq, hsound', hmessages, -⟩ | ⟨m', message, before, after, heq, hsound', -, -, hold, hmessages, -⟩
    · rw [heq]
      exact .idle hsound' (hmessages ▸ htidy) h.pos
    · rw [heq]
      refine .idle hsound' ?_ h.pos
      rw [hmessages]
      exact ((hold ▸ htidy).sublist ((List.sublist_cons_self message after).append_left before)).perm
        List.perm_append_comm
  | commitReceive slot id =>
    simp only [Mailbox.step, Option.ite_none_right_eq_some, Option.some.injEq] at hs
    obtain ⟨hheld, rfl⟩ := hs
    obtain ⟨hsound, htidy⟩ := h.of_none hheld
    rcases commitReceive_cases hsound slot id s.next with
      ⟨error, heq⟩ | ⟨m', message, before, after, heq, hsound', -, -, hold, hmessages, -⟩
    · rw [heq]
      exact .idle hsound htidy h.pos
    · rw [heq]
      refine .idle hsound' ?_ h.pos
      rw [hmessages]
      exact (hold ▸ htidy).sublist ((List.sublist_cons_self message after).append_left before)

omit h

theorem inv_reachable (h : (system ω configured).Reachable s) : Inv configured s := by
  refine System.Reach.invariant (fun s h0 => ?_) (fun s act s' h _ hs => h.step hs) h
  cases h0
  exact inv_start

include h

/-- With the invariant no call enters a branch for inconsistent storage. -/
theorem Inv.quarantines_eq_false {act : Act ω}
    (hs : (Mailbox.step configured s act).isSome = true) : quarantines configured s act = false := by
  have idle (hheld : s.held = none) : Sound [] s.mailbox := (h.of_none hheld).1
  have intact : s.held.any s.mailbox.takeCorrupt = false := by
    cases hheld : s.held with
    | none => rfl
    | some slot =>
      obtain ⟨message, hm, hsound, -⟩ := h.of_some hheld
      exact hsound.takeCorrupt_eq_false hm
  cases act with
  | reserve message asReply =>
    refine (idle ?_).reserveCorrupt_eq_false asReply
    by_contra hno
    simp [Mailbox.step, hno] at hs
  | enqueueSlot =>
    cases hheld : s.held with
    | none => simp [quarantines, hheld]
    | some slot =>
      simp [quarantines, hheld, show s.mailbox.takeCorrupt slot = false by simpa [hheld] using intact]
  | takeSlot => exact intact
  | dequeueSlot | elsewhere => rfl
  | retireDestination endpoint =>
    have hsound := idle (by by_contra hno; simp [Mailbox.step, hno] at hs)
    simp [quarantines, hsound.turnCorrupt_eq_false _ _ (Nat.le_refl _), hsound.count_le]
  | popReplyCopy filter outputLen =>
    have hsound := idle (by by_contra hno; simp [Mailbox.step, hno] at hs)
    exact hsound.turnCorrupt_eq_false _ _ (Nat.le_refl _) _
  | commitReceive slot id =>
    exact (idle (by by_contra hno; simp [Mailbox.step, hno] at hs)).commitCorrupt_eq_false slot id _

/-- While no reply is queued there is a place for one. -/
theorem Inv.reply_accepted (hheld : s.held = none)
    (hnone : ∀ x ∈ s.mailbox.messages, x.isReply = false) (hreply : message.isReply = true)
    (hid : message.messageId = 0) (hnext : s.next + 1 < 2 ^ 64) :
    (s.mailbox.enqueueMessage configured message s.next).2.2 = true := by
  obtain ⟨hsound, htidy⟩ := h.of_none hheld
  have hlen : s.mailbox.messages.length = s.mailbox.count := by
    rw [← @RingBuffer.length_toList _ mailboxCap s.mailbox.toRingBuffer]
    refine List.filterMap_length_eq_length.mpr fun slot hslot => ?_
    obtain ⟨message, hm, -⟩ := hsound.queued_some slot hslot
    simp [hm]
  have hcap : 2 ≤ ipcMailboxCap configured ∧ ipcMailboxCap configured ≤ mailboxCap := by
    unfold ipcMailboxCap mailboxCap
    omega
  have hordinary : s.mailbox.count ≤ ipcMailboxCap configured - 1 := by
    have hall : s.mailbox.messages.countP (fun x => !x.isReply) = s.mailbox.messages.length :=
      List.countP_eq_length.mpr fun x hx => by simp [hnone x hx]
    rw [← hlen, ← hall]
    exact htidy.ordinary
  have hsizes := hsound.sizes
  rw [List.length_nil] at hsizes
  rcases reserveSlot_cases hsound configured true with ⟨hfull, -⟩ | ⟨-, slot, heq, hslot⟩
  · simp [full] at hfull
    omega
  · rw [enqueueMessage, hreply, heq]
    have hwrite := hslot.write message
    have hen := hwrite.1.enqueueSlot_new (update_self ..) hid s.next
    simp only [fillSlot, hen, if_pos hnext]

omit h

/-- **A mailbox stays in order.** Between any two calls the queued slots, the slot in hand and the unused
    slots are the slot array; every queued slot holds a message, under an identity of its own; ordinary
    messages leave one place. So no call enters a branch for inconsistent storage, and a reply is accepted
    while none is queued, as long as there are identities. -/
theorem mailbox_in_order (h : (system ω configured).Reachable s) :
    (s.mailbox.queued ++ s.held.toList ++ s.mailbox.freed).Perm (List.range mailboxCap) ∧
      (∀ slot ∈ s.mailbox.queued, ∃ message, s.mailbox.slots slot = some message) ∧
      (s.mailbox.messages.map Message.messageId).Nodup ∧
      s.mailbox.messages.countP (fun x => !x.isReply) ≤ ipcMailboxCap configured - 1 ∧
      (∀ act, (step configured s act).isSome = true → quarantines configured s act = false) ∧
      (s.held = none → (∀ x ∈ s.mailbox.messages, x.isReply = false) → s.next + 1 < 2 ^ 64 →
        ∀ message, message.isReply = true → message.messageId = 0 →
          (s.mailbox.enqueueMessage configured message s.next).2.2 = true) := by
  have hinv := inv_reachable h
  have htidy := hinv.tidy.sublist (List.sublist_append_right _ _)
  refine ⟨hinv.sound.perm, fun slot hs => ?_, ?_, htidy.ordinary, fun act hs => hinv.quarantines_eq_false hs,
    fun hheld hnone hnext message hreply hid => hinv.reply_accepted hheld hnone hreply hid hnext⟩
  · obtain ⟨message, hm, -⟩ := hinv.sound.queued_some slot hs
    exact ⟨message, hm⟩
  · -- the identity of a queued message is not zero, so equal ones would be the same message
    refine htidy.ids.imp_of_mem fun ha _ hz heq => ?_
    obtain ⟨x, hx, rfl⟩ := List.mem_map.mp ha
    obtain ⟨slot, hs, hm⟩ := List.mem_filterMap.mp hx
    obtain ⟨message, hm', hid⟩ := hinv.sound.queued_some slot hs
    cases hm.symm.trans hm'
    exact hid (hz heq)

/-- A message as its sender fills it in. -/
def blank (isReply : Bool) : Message Unit := ⟨0, 1, 2, 0, 1, isReply, false, 0, 0, [], ⟨0, []⟩⟩

/-- With an ordinary message in the queue of the smallest mailbox, a second one is refused and a reply
    accepted. -/
theorem mailbox_in_order_smallest : ∃ s, (system Unit 2).Reachable s ∧ s.mailbox.count = 1 ∧
      (s.mailbox.enqueueMessage 2 (blank false) s.next).2.2 = false ∧
      (s.mailbox.enqueueMessage 2 (blank true) s.next).2.2 = true := by
  obtain ⟨s, hs, hcount, hheld, hnone, hnext, hrefused⟩ := System.reachable_of_exec
    (system Unit 2) ⟨new, none, 1⟩ [.reserve (blank false) false, .enqueueSlot]
    (fun s => s.mailbox.count = 1 ∧ s.held = none ∧
      (∀ x ∈ s.mailbox.messages, x.isReply = false) ∧ s.next = 2 ∧
      (s.mailbox.enqueueMessage 2 (blank false) s.next).2.2 = false) rfl (by decide +kernel)
  exact ⟨s, hs, hcount, hrefused,
    (mailbox_in_order hs).2.2.2.2.2 hheld hnone (by rw [hnext]; decide) (blank true) rfl rfl⟩

/-- Once the other mailboxes have used up the identities, an empty mailbox refuses a reply. -/
theorem reply_refused_without_identity : ∃ s, (system Unit 64).Reachable s ∧
    s.held = none ∧ s.mailbox.messages = [] ∧
      (s.mailbox.enqueueMessage 64 (blank true) s.next).2.2 = false := by
  have hrun : ∀ k, k + 1 < 2 ^ 64 → (system Unit 64).Reachable ⟨new, none, k + 1⟩ := by
    intro k
    induction k with
    | zero => exact fun _ => .init rfl
    | succ k ih =>
      exact fun hk =>
        System.Reach.step (M := system Unit 64) (l := Act.elsewhere) (ih (by omega)) trivial (if_pos hk)
  exact ⟨_, hrun (2 ^ 64 - 2) (by decide), rfl, rfl, by decide +kernel⟩

end Mailbox

end Mnu.Ipc
