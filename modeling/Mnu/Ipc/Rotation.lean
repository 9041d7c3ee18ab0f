import Mnu.Ipc.Mailbox

/-!
# `Mnu.Ipc.Rotation` — what the mailbox operations do to the queue of messages

A mailbox is `Sound` with respect to the slots an operation currently holds: the queued, the held and the
unused slots are together the sixty-four slots, each once; a queued slot has a message with an identity, and
an unused one has none. In a sound mailbox nothing is ever quarantined.

Each loop is then described by its effect on `messages`, the queued messages in order. Removing a message by
`commit_receive` or the messages of a lifetime by `retire_destination` leaves the others in place
(`commitReceive_cases`, `retireDestination_spec`). `pop_reply_copy` puts the part behind the reply in front of
the part before it (`popReply_cases`).
-/

namespace Mnu.Ipc

open Mnu.Lib Function

namespace Mailbox

variable {ω : Type} {m : Mailbox ω} {held xs ys : List Nat} {slot next : Nat} {message : Message ω}
  {reply : Option (Nat × Nat)} {endpoint : IpcEndpoint} {acceptHandles : Bool}

/-- The unused slots, as the stack holds them. -/
def freed (m : Mailbox ω) : List Nat := (List.range m.freeCount).map m.free

/-- The queued messages in order. -/
def messages (m : Mailbox ω) : List (Message ω) := m.queued.filterMap m.slots

/-- The mailbox is in order, apart from the slots an operation has `held` back. -/
structure Sound (held : List Nat) (m : Mailbox ω) : Prop where
  ring : m.toRingBuffer.Sound mailboxCap
  perm : (m.queued ++ held ++ m.freed).Perm (List.range mailboxCap)
  queued_some : ∀ s ∈ m.queued, ∃ message, m.slots s = some message ∧ message.messageId ≠ 0
  freed_none : ∀ s ∈ m.freed, m.slots s = none

theorem sound_new : Sound [] (new : Mailbox ω) where
  ring := ⟨Nat.zero_lt_succ _, Nat.zero_le _, rfl⟩
  perm := by
    show ([] ++ [] ++ (List.range mailboxCap).map fun i => i).Perm _
    simp
  queued_some := by
    intro s hs
    cases hs
  freed_none := fun _ _ => rfl

namespace Sound

section Held

variable (h : Sound held m)
include h

theorem held_perm {held' : List Nat} (hp : held.Perm held') : Sound held' m where
  ring := h.ring
  perm := ((hp.append_left m.queued).append_right m.freed).symm.trans h.perm
  queued_some := h.queued_some
  freed_none := h.freed_none

/-- The slots in the three places are different from each other. -/
theorem nodup : (m.queued ++ held ++ m.freed).Nodup :=
  h.perm.nodup_iff.mpr List.nodup_range

theorem queued_nodup : m.queued.Nodup :=
  (List.nodup_append.mp (List.nodup_append.mp h.nodup).1).1

theorem lt_cap (hs : slot ∈ m.queued ++ held ++ m.freed) : slot < mailboxCap :=
  List.mem_range.mp (h.perm.mem_iff.mp hs)

theorem sizes : m.count + held.length + m.freeCount = mailboxCap := by
  have hlen := h.perm.length_eq
  have hq : m.queued.length = m.count := RingBuffer.length_toList m.toRingBuffer
  have hf : m.freed.length = m.freeCount := by simp [freed]
  simpa [hq, hf, Nat.add_assoc] using hlen

theorem count_le : m.count ≤ mailboxCap := by
  have := h.sizes
  omega

/-- A message is found in every queued slot. -/
theorem message_queued (hs : slot ∈ m.queued) :
    ∃ message, m.message slot = some message ∧ m.slots slot = some message ∧ message.messageId ≠ 0 := by
  obtain ⟨message, hm, hid⟩ := h.queued_some slot hs
  have hlt : slot < mailboxCap := h.lt_cap (by simp [hs])
  exact ⟨message, by rw [Mailbox.message, if_pos hlt, hm], hm, hid⟩

/-! ## One entry -/

/-- Reading the head moves a slot from the queue into the hands of the operation. -/
theorem dequeueSlot {rest : List Nat} (hq : m.queued = slot :: rest) :
    ∃ r, m.dequeueSlot = some (slot, { m with toRingBuffer := r }) ∧ r.toList mailboxCap = rest ∧
      Sound (slot :: held) { m with toRingBuffer := r } := by
  obtain ⟨r, hr, hrest⟩ := RingBuffer.exists_dequeue h.ring hq
  refine ⟨r, by rw [Mailbox.dequeueSlot, hr]; rfl, hrest, h.ring.dequeue hr, ?_, ?_, h.freed_none⟩
  · show (r.toList mailboxCap ++ slot :: held ++ m.freed).Perm _
    refine List.Perm.trans ?_ h.perm
    rw [hq, hrest]
    exact List.perm_middle.append_right _
  · intro s hs
    have hs' : s ∈ rest := hrest ▸ hs
    exact h.queued_some s (hq ▸ List.mem_cons_of_mem _ hs')

end Held

section Taken

variable (h : Sound (slot :: held) m) (hm : m.slots slot = some message) (hid : message.messageId ≠ 0)
include h

theorem room : slot < mailboxCap ∧ m.count < mailboxCap ∧ m.freeCount < mailboxCap := by
  have hsizes := h.sizes
  rw [List.length_cons] at hsizes
  exact ⟨h.lt_cap (by simp), by omega, by omega⟩

include hm hid

/-- A held slot that goes to the end of the queue must have a message with an identity. -/
theorem append : (m.toRingBuffer.enqueue mailboxCap slot).toList mailboxCap = m.queued ++ [slot] ∧
      Sound held { m with toRingBuffer := m.toRingBuffer.enqueue mailboxCap slot } := by
  have hroom := h.room.2.1
  have hlist : (m.toRingBuffer.enqueue mailboxCap slot).toList mailboxCap = m.queued ++ [slot] :=
    RingBuffer.toList_enqueue h.ring hroom
  refine ⟨hlist, h.ring.enqueue hroom, ?_, ?_, h.freed_none⟩
  · show ((m.toRingBuffer.enqueue mailboxCap slot).toList mailboxCap ++ held ++ m.freed).Perm _
    rw [hlist]
    simpa using h.perm
  · intro s hs
    have hs' : s ∈ m.queued ++ [slot] := hlist ▸ (show s ∈ RingBuffer.toList mailboxCap _ from hs)
    rcases List.mem_append.mp hs' with hs | hs
    · exact h.queued_some s hs
    · rw [List.mem_singleton.mp hs]
      exact ⟨message, hm, hid⟩

/-- An entry that has been queued before is queued again as it is. -/
theorem enqueueSlot (next : Nat) : ∃ r, m.enqueueSlot slot next = some ({ m with toRingBuffer := r }, next) ∧
      r.toList mailboxCap = m.queued ++ [slot] ∧ Sound held { m with toRingBuffer := r } := by
  refine ⟨_, ?_, h.append hm hid⟩
  rw [Mailbox.enqueueSlot, if_neg (Nat.not_le.mpr h.room.2.1), Mailbox.message, if_pos h.room.1, hm]
  exact if_neg hid

/-- The entry just taken off the front goes to the end. -/
theorem requeue {xs ys : List Nat} (next : Nat)
    (hq : m.queued = xs ++ ys) : ∃ r, m.enqueueSlot slot next = some ({ m with toRingBuffer := r }, next) ∧
      r.toList mailboxCap = xs ++ (ys ++ [slot]) ∧ Sound held { m with toRingBuffer := r } := by
  obtain ⟨r, he, hlist, hsound⟩ := h.enqueueSlot hm hid next
  exact ⟨r, he, by rw [hlist, hq, List.append_assoc], hsound⟩

omit hm hid

/-- A new message gets the next identity, as long as there is one. -/
theorem enqueueSlot_new (hm : m.slots slot = some message)
    (hid : message.messageId = 0) (next : Nat) :
    m.enqueueSlot slot next = if next + 1 < 2 ^ 64 then some ({ m with
          toRingBuffer := m.toRingBuffer.enqueue mailboxCap slot
          slots := update m.slots slot (some { message with messageId := next }) }, next + 1) else none := by
  rw [Mailbox.enqueueSlot, if_neg (Nat.not_le.mpr h.room.2.1), Mailbox.message, if_pos h.room.1, hm]
  exact if_pos hid

end Taken

/-- The mailbox after `take_slot`. -/
def released (m : Mailbox ω) (slot : Nat) : Mailbox ω :=
  { m with
    slots := update m.slots slot none
    free := update m.free m.freeCount slot
    freeCount := m.freeCount + 1 }

theorem freed_released (m : Mailbox ω) (slot : Nat) : (released m slot).freed = m.freed ++ [slot] := by
  show (List.range (m.freeCount + 1)).map (update m.free m.freeCount slot) = _
  rw [List.range_succ, List.map_append]
  congr 1
  · apply List.map_congr_left
    intro i hi
    exact update_of_ne (List.mem_range.mp hi).ne _ _
  · simp

/-- The message of a held slot leaves it, and the slot is unused again. -/
theorem takeSlot (h : Sound (slot :: held) m) (hm : m.slots slot = some message) :
    m.takeSlot slot = (released m slot, some message) ∧ Sound held (released m slot) := by
  obtain ⟨hlt, -, hroom⟩ := h.room
  have hnot : slot ∉ m.freed := fun hs => by
    rw [h.freed_none slot hs] at hm
    cases hm
  have hqueued : slot ∉ m.queued := by
    intro hs
    have hdisj := (List.nodup_append.mp (List.nodup_append.mp h.nodup).1).2.2
    exact hdisj slot hs slot (by simp) rfl
  refine ⟨?_, h.ring, ?_, ?_, ?_⟩
  · have hany : ((List.range m.freeCount).any fun i => m.free i = slot) = false := by
      rw [List.any_eq_false]
      intro i hi hfree
      exact hnot (List.mem_map.mpr ⟨i, hi, by simpa using hfree⟩)
    rw [Mailbox.takeSlot, if_neg (Nat.not_le.mpr hlt), if_neg (Nat.not_le.mpr hroom), hany, hm]
    rfl
  · show (m.queued ++ held ++ (released m slot).freed).Perm _
    rw [freed_released]
    refine List.Perm.trans ?_ h.perm
    rw [← List.append_assoc]
    refine (List.perm_append_singleton slot _).trans ?_
    rw [List.append_assoc, List.append_assoc, List.cons_append]
    exact List.perm_middle.symm
  · intro s hs
    have hne : s ≠ slot := fun heq => hqueued (heq ▸ hs)
    show ∃ message, update m.slots slot none s = some message ∧ _
    rw [update_of_ne hne]
    exact h.queued_some s hs
  · intro s hs
    show update m.slots slot none s = none
    by_cases heq : s = slot
    · rw [heq, update_self]
    · rw [update_of_ne heq]
      rw [freed_released] at hs
      rcases List.mem_append.mp hs with hs | hs
      · exact h.freed_none s hs
      · exact absurd (List.mem_singleton.mp hs) heq

/-- Clearing a slot outside the queue leaves the messages alone. -/
theorem messages_released (hnot : slot ∉ m.queued) : (released m slot).messages = m.messages := by
  show m.queued.filterMap (update m.slots slot none) = _
  apply List.filterMap_congr
  intro s hs
  have hne : s ≠ slot := fun heq => hnot (heq ▸ hs)
  exact update_of_ne hne _ _

end Sound

/-! ## `commit_receive` -/

/-- One turn of the queue: the entries visited are behind the others, without `slot`, which is held. -/
theorem commitLoop_spec (h : Sound held m) (hq : m.queued = xs ++ ys) (slot next : Nat) :
    ∃ r, commitLoop slot xs.length m next = ({ m with toRingBuffer := r }, next, true) ∧
      r.toList mailboxCap = ys ++ xs.filter (· ≠ slot) ∧
      Sound (xs.filter (· = slot) ++ held) { m with toRingBuffer := r } := by
  induction xs generalizing m ys held with
  | nil => exact ⟨m.toRingBuffer, rfl, by simpa [queued] using hq, h⟩
  | cons x xs ih =>
    obtain ⟨r₁, hd, hlist₁, h₁⟩ := h.dequeueSlot hq
    obtain ⟨message, -, hm, hid⟩ := h.message_queued (show x ∈ m.queued by simp [hq])
    rw [List.length_cons, commitLoop, hd]
    by_cases hx : x = slot
    · subst hx
      obtain ⟨r, hloop, hlist, hsound⟩ := ih h₁ hlist₁
      refine ⟨r, ?_, by simpa using hlist, hsound.held_perm ?_⟩
      · show (if x = x then _ else _) = _
        rw [if_pos rfl]
        exact hloop
      · simp
    · obtain ⟨r₂, he, hq₂, h₂⟩ := h₁.requeue hm hid next hlist₁
      obtain ⟨r, hloop, hlist, hsound⟩ := ih h₂ hq₂
      refine ⟨r, ?_, by simpa [hx] using hlist, by simpa [hx] using hsound⟩
      show (if x = slot then _ else _) = _
      rw [if_neg hx, he]
      exact hloop

/-- **`commit_receive` takes out exactly the message it names**, or changes nothing. -/
theorem commitReceive_cases (h : Sound [] m) (slot id next : Nat) :
    (∃ error, m.commitReceive slot id next = (m, next, .error error)) ∨
      ∃ m' message before after, m.commitReceive slot id next = (m', next, .ok message) ∧ Sound [] m' ∧
        m.slots slot = some message ∧ message.messageId = id ∧
        m.messages = before ++ message :: after ∧ m'.messages = before ++ after ∧
        m'.replyTargets = m.replyTargets ∧ m'.replyOwner = m.replyOwner := by
  rw [commitReceive, if_neg (Nat.not_lt.mpr h.count_le)]
  by_cases hany : (m.message slot).any fun message => message.messageId = id
  · by_cases hq : slot ∈ m.queued
    · right
      obtain ⟨message, hmsg, hm, -⟩ := h.message_queued hq
      have hid : message.messageId = id := by simpa [hmsg] using hany
      obtain ⟨r, hloop, hlist, hsound⟩ := commitLoop_spec h (List.append_nil _).symm slot next
      have hlen : m.queued.length = m.count := RingBuffer.length_toList m.toRingBuffer
      obtain ⟨before, after, hsplit⟩ := List.append_of_mem hq
      -- the slot is queued once, so the turn holds just this one back
      have hnd : (slot :: (before ++ after)).Nodup := List.nodup_middle.mp (hsplit ▸ h.queued_nodup)
      have hnot : slot ∉ before ++ after := (List.nodup_cons.mp hnd).1
      have hne : ∀ s ∈ before ++ after, s ≠ slot := fun s hs heq => hnot (heq ▸ hs)
      have hfilter : (before ++ slot :: after).filter (· ≠ slot) = before ++ after := by
        rw [List.filter_append, List.filter_cons_of_neg (by simp), ← List.filter_append]
        exact List.filter_eq_self.mpr fun s hs => decide_eq_true (hne s hs)
      have hheld : m.queued.filter (· = slot) = [slot] := by
        rw [List.filter_eq, List.count_eq_one_of_mem h.queued_nodup hq]
        rfl
      rw [hheld] at hsound
      rw [hsplit, hfilter, List.nil_append] at hlist
      obtain ⟨htake, hreleased⟩ := Sound.takeSlot hsound hm
      refine ⟨_, message, before.filterMap m.slots, after.filterMap m.slots, ?_, hreleased, hm, hid, ?_, ?_,
        rfl, rfl⟩
      · rw [if_neg (by simp [hany]), if_neg (not_not.mpr hq), ← hlen, hloop]
        simp only [htake]
      · rw [messages, hsplit, List.filterMap_append, List.filterMap_cons_some hm]
      · rw [Sound.messages_released (by rw [queued, hlist]; exact hnot), messages, queued, hlist,
          List.filterMap_append]
    · left
      exact ⟨_, by rw [if_neg (by simp [hany]), if_pos hq]⟩
  · left
    exact ⟨_, if_pos (by simp [hany])⟩

/-! ## `pop_reply_copy` -/

/-- The loop passes entries that are no match to the end of the queue, and stops at the first match. -/
theorem popReplyLoop_cases (h : Sound [] m) (hq : m.queued = xs ++ ys) (filter : ReplyFilter) (next : Nat) :
    (∃ r, popReplyLoop filter xs.length m next = ({ m with toRingBuffer := r }, next, none) ∧
        r.toList mailboxCap = ys ++ xs ∧ Sound [] { m with toRingBuffer := r } ∧
        ∀ x ∈ xs.filterMap m.slots, filter.accepts x = false) ∨
      ∃ r before s after message, xs = before ++ s :: after ∧ m.slots s = some message ∧
        filter.accepts message = true ∧ (∀ x ∈ before.filterMap m.slots, filter.accepts x = false) ∧
        popReplyLoop filter xs.length m next =
          (Sound.released { m with toRingBuffer := r } s, next, some message) ∧
        r.toList mailboxCap = after ++ ys ++ before ∧ Sound []
          (Sound.released { m with toRingBuffer := r } s) := by
  induction xs generalizing m ys with
  | nil => exact .inl ⟨m.toRingBuffer, rfl, by simpa [queued] using hq, h, by simp⟩
  | cons x xs ih =>
    obtain ⟨r₁, hd, hlist₁, h₁⟩ := h.dequeueSlot hq
    obtain ⟨message, hmsg, hm, hid⟩ := h.message_queued (show x ∈ m.queued by simp [hq])
    rw [List.length_cons, popReplyLoop, hd]
    have hmsg₁ : Mailbox.message { m with toRingBuffer := r₁ } x = some message := hmsg
    by_cases hacc : filter.accepts message = true
    · obtain ⟨htake, hreleased⟩ := h₁.takeSlot hm
      refine .inr ⟨r₁, [], x, xs, message, rfl, hm, hacc, by simp, ?_, by simpa using hlist₁, hreleased⟩
      simp only [hmsg₁, hacc, if_true, htake]
    · obtain ⟨r₂, he, hq₂, h₂⟩ := h₁.requeue hm hid next hlist₁
      have hcons : ∀ l : List Nat, (∀ y ∈ l.filterMap m.slots, filter.accepts y = false) →
          ∀ y ∈ (x :: l).filterMap m.slots, filter.accepts y = false := by
        intro l hl
        rw [List.filterMap_cons_some hm]
        exact List.forall_mem_cons.mpr ⟨by simpa using hacc, hl⟩
      simp only [hmsg₁, hacc, if_false, he, Bool.false_eq_true]
      rcases ih h₂ hq₂ with ⟨r, hloop, hlist, hsound, hnone⟩ |
          ⟨r, before, s, after, found, hxs, hs, hfound, hnone, hloop, hlist, hsound⟩
      · exact .inl ⟨r, hloop, by simpa using hlist, hsound, hcons xs hnone⟩
      · exact .inr ⟨r, x :: before, s, after, found, by rw [hxs]; rfl, hs, hfound, hcons before hnone, hloop,
          by simpa using hlist, hsound⟩

/-- **`pop_reply_copy` swaps the two sides of the reply it takes out**, and without a match it changes
    nothing. -/
theorem popReply_cases (h : Sound [] m) (filter : ReplyFilter) (next : Nat) :
    (∃ m', m.popReply filter next = (m', next, none) ∧ Sound [] m' ∧ m'.messages = m.messages ∧
        (∀ x ∈ m.messages, filter.accepts x = false) ∧
        m'.replyTargets = m.replyTargets ∧ m'.replyOwner = m.replyOwner) ∨
      ∃ m' message before after, m.popReply filter next = (m', next, some message) ∧ Sound [] m' ∧
        filter.accepts message = true ∧ (∀ x ∈ before, filter.accepts x = false) ∧
        m.messages = before ++ message :: after ∧ m'.messages = after ++ before ∧
        m'.replyTargets = m.replyTargets ∧ m'.replyOwner = m.replyOwner := by
  have hlen : m.queued.length = m.count := RingBuffer.length_toList m.toRingBuffer
  rcases popReplyLoop_cases h (List.append_nil m.queued).symm filter next with
    ⟨r, hloop, hlist, hsound, hnone⟩ | ⟨r, before, s, after, message, hq, hm, hacc,
      hnone, hloop, hlist, hsound⟩
  · refine .inl ⟨_, by rw [popReply, ← hlen, hloop], hsound, ?_, hnone, rfl, rfl⟩
    show (r.toList mailboxCap).filterMap m.slots = _
    rw [hlist]
    rfl
  · have hnd : (s :: (before ++ after)).Nodup := List.nodup_middle.mp (hq ▸ h.queued_nodup)
    have hnot : s ∉ before ++ after := (List.nodup_cons.mp hnd).1
    refine .inr ⟨_, message, before.filterMap m.slots, after.filterMap m.slots,
      by rw [popReply, ← hlen, hloop], hsound, hacc, hnone, ?_, ?_, rfl, rfl⟩
    · rw [messages, hq, List.filterMap_append, List.filterMap_cons_some hm]
    · rw [List.append_nil] at hlist
      have hnot' : s ∉ ({ m with toRingBuffer := r } : Mailbox ω).queued := by
        rw [queued, hlist]
        simpa [and_comm] using hnot
      rw [Sound.messages_released hnot', messages, queued, hlist, List.filterMap_append]

/-! ## `retire_destination` -/

/-- Whether a slot holds a message of this lifetime. -/
def holdsFor (m : Mailbox ω) (endpoint : IpcEndpoint) (slot : Nat) : Bool :=
  (m.slots slot).any fun message => message.endpoint = endpoint

/-- The loop keeps the entries of the other lifetimes, in order and with their messages. -/
theorem retireLoop_spec (h : Sound [] m) (hq : m.queued = xs ++ ys)
    (endpoint : IpcEndpoint) (next : Nat) (retired : List (Message ω)) :
    ∃ m', retireLoop endpoint xs.length m next retired =
        (m', next, retired ++ (xs.filter (m.holdsFor endpoint)).filterMap m.slots) ∧ Sound [] m' ∧
      m'.queued = ys ++ xs.filter (fun s => !m.holdsFor endpoint s) ∧
        (∀ s ∈ m'.queued, m'.slots s = m.slots s) ∧
      m'.replyTargets = m.replyTargets ∧ m'.replyOwner = m.replyOwner ∧ m'.waiter = m.waiter := by
  induction xs generalizing m ys retired with
  | nil =>
    refine ⟨m, by simp [retireLoop], h, by simpa using hq, fun _ _ => rfl, rfl, rfl, rfl⟩
  | cons x xs ih =>
    obtain ⟨r₁, hd, hlist₁, h₁⟩ := h.dequeueSlot hq
    obtain ⟨message, hmsg, hm, hid⟩ := h.message_queued (show x ∈ m.queued by simp [hq])
    have hmsg₁ : Mailbox.message { m with toRingBuffer := r₁ } x = some message := hmsg
    have hnd : (x :: xs ++ ys).Nodup := hq ▸ h.queued_nodup
    have hne : ∀ s ∈ xs ++ ys, s ≠ x := fun s hs heq => (List.nodup_cons.mp hnd).1 (heq ▸ hs)
    rw [List.length_cons, retireLoop, hd]
    by_cases he : message.endpoint = endpoint
    · -- the slot is freed, which changes no slot still to be visited
      have hx : m.holdsFor endpoint x = true := by simp [holdsFor, hm, he]
      obtain ⟨htake, h₂⟩ := h₁.takeSlot hm
      let m₁ := Sound.released { m with toRingBuffer := r₁ } x
      have hsame : ∀ s ∈ xs ++ ys, m₁.slots s = m.slots s := fun s hs => update_of_ne (hne s hs) _ _
      have hholds : ∀ s ∈ xs, m₁.holdsFor endpoint s = m.holdsFor endpoint s := fun s hs => by
        rw [holdsFor, holdsFor, hsame s (List.mem_append_left _ hs)]
      obtain ⟨m', hloop, hsound, hlist, hslots, hrest⟩ := ih (m := m₁) h₂ hlist₁ (retired ++ [message])
      have hkeep : xs.filter (fun s => !m₁.holdsFor endpoint s) = xs.filter fun s => !m.holdsFor endpoint s :=
        List.filter_congr fun s hs => by rw [hholds s hs]
      have hgone : (xs.filter (m₁.holdsFor endpoint)).filterMap m₁.slots =
          (xs.filter (m.holdsFor endpoint)).filterMap m.slots := by
        rw [List.filter_congr hholds]
        exact List.filterMap_congr fun s hs => hsame s (List.mem_append_left _ (List.mem_of_mem_filter hs))
      refine ⟨m', ?_, hsound, ?_, ?_, hrest⟩
      · simp only [hmsg₁, he, if_true, htake]
        refine hloop.trans ?_
        rw [hgone, List.filter_cons_of_pos hx, List.filterMap_cons_some hm]
        simp
      · rw [hlist, hkeep, List.filter_cons_of_neg (by simp [hx])]
      · intro s hs
        rw [hslots s hs]
        apply hsame
        rw [hlist] at hs
        rcases List.mem_append.mp hs with hs | hs
        · exact List.mem_append_right _ hs
        · exact List.mem_append_left _ (List.mem_of_mem_filter hs)
    · have hx : m.holdsFor endpoint x = false := by simp [holdsFor, hm, he]
      obtain ⟨r₂, hen, hq₂, h₂⟩ := h₁.requeue hm hid next hlist₁
      obtain ⟨m', hloop, hsound, hlist, hslots, hrest⟩ := ih h₂ hq₂ retired
      refine ⟨m', ?_, hsound, ?_, hslots, hrest⟩
      · simp only [hmsg₁, he, if_false, hen]
        rw [hloop, List.filter_cons_of_neg (by simp [hx])]
        rfl
      · rw [hlist, List.filter_cons_of_pos (by simp [hx])]
        simp [holdsFor]

/-- Selecting slots by their messages is selecting the messages. -/
theorem filterMap_filter_slots {f : Nat → Option (Message ω)} {p : Message ω → Bool}
    (select : Option (Message ω) → Bool) (hp : ∀ x, select (some x) = p x) (xs : List Nat) :
    (xs.filter fun s => select (f s)).filterMap f = (xs.filterMap f).filter p := by
  rw [List.filter_filterMap, List.filterMap_filter]
  apply List.filterMap_congr
  intro s _
  cases f s with
  | none => simp
  | some x => simp [hp, Option.filter]

/-- **`retire_destination` removes the messages of the lifetime and keeps the others in order.** -/
theorem retireDestination_spec (h : Sound [] m) (endpoint : IpcEndpoint) (next : Nat) :
    ∃ m' retired, m.retireDestination endpoint next = (m', next, retired) ∧ Sound [] m' ∧
      m'.messages = m.messages.filter (fun x => x.endpoint ≠ endpoint) ∧
      retired = m.messages.filter (fun x => x.endpoint = endpoint) := by
  have hlen : m.queued.length = m.count := RingBuffer.length_toList m.toRingBuffer
  obtain ⟨m', hloop, hsound, hlist, hslots, -⟩ :=
    retireLoop_spec h (List.append_nil m.queued).symm endpoint next []
  have hmessages : m'.messages = m.messages.filter (fun x => x.endpoint ≠ endpoint) := by
    rw [messages, List.filterMap_congr hslots, hlist, List.nil_append]
    exact filterMap_filter_slots (p := fun x => x.endpoint ≠ endpoint)
      (fun found : Option (Message ω) => !found.any fun x => x.endpoint = endpoint) (by simp) m.queued
  have hretired : (m.queued.filter (m.holdsFor endpoint)).filterMap m.slots =
      m.messages.filter (fun x => x.endpoint = endpoint) :=
    filterMap_filter_slots (p := fun x => x.endpoint = endpoint)
      (fun found : Option (Message ω) => found.any fun x => x.endpoint = endpoint) (by simp) m.queued
  rw [retireDestination, if_neg (Nat.not_lt.mpr h.count_le), ← hlen, hloop]
  by_cases howner : m'.replyOwner = some (endpoint.threadId, endpoint.generation)
  · exact ⟨_, _, if_pos howner, ⟨hsound.ring, hsound.perm, hsound.queued_some, hsound.freed_none⟩, hmessages,
      hretired⟩
  · exact ⟨_, _, if_neg howner, hsound, hmessages, hretired⟩

/-! ## Sending -/

/-- The guard of `reserve_slot`. -/
def full (m : Mailbox ω) (configured : Nat) (isReply : Bool) : Bool :=
  m.freeCount = 0 || ipcMailboxCap configured - (if isReply then 0 else 1) ≤ m.count

/-- A reserved slot comes from the unused ones and is empty. -/
theorem reserveSlot_cases (h : Sound [] m) (configured : Nat) (isReply : Bool) :
    m.full configured isReply = true ∧ m.reserveSlot configured isReply = (m, none) ∨
      m.full configured isReply = false ∧
      ∃ slot, m.reserveSlot configured isReply = ({ m with freeCount := m.freeCount - 1 }, some slot) ∧
        Sound [slot] { m with freeCount := m.freeCount - 1 } := by
  by_cases hfull : (m.freeCount = 0 || ipcMailboxCap configured - (if isReply then 0 else 1) ≤ m.count) = true
  · exact .inl ⟨hfull, if_pos hfull⟩
  · refine .inr ⟨by simpa [full] using hfull, ?_⟩
    have hpos : m.freeCount ≠ 0 := fun h0 => hfull (by simp [h0])
    obtain ⟨n, hn⟩ := Nat.exists_eq_succ_of_ne_zero hpos
    have hfreed : m.freed = (List.range n).map m.free ++ [m.free n] := by
      rw [freed, hn, List.range_succ, List.map_append]
      rfl
    have hmem : m.free n ∈ m.freed := by simp [hfreed]
    have hnone : m.slots (m.free n) = none := h.freed_none _ hmem
    have hlt : m.free n < mailboxCap := h.lt_cap (by simp [hmem])
    refine ⟨m.free n, ?_, h.ring, ?_, h.queued_some, ?_⟩
    · rw [reserveSlot, if_neg hfull]
      show (if _ then _ else _) = _
      rw [hn, Nat.succ_sub_one, if_neg]
      simp [hnone, hlt]
    · show (m.queued ++ [m.free n] ++ (List.range (m.freeCount - 1)).map m.free).Perm _
      refine List.Perm.trans ?_ h.perm
      rw [hn, Nat.succ_sub_one, hfreed, List.append_nil, List.append_assoc]
      exact List.Perm.append_left _ List.perm_append_comm
    · intro s hs
      apply h.freed_none
      rw [hfreed]
      refine List.mem_append_left _ ?_
      have hs' : s ∈ (List.range (m.freeCount - 1)).map m.free := hs
      rwa [hn, Nat.succ_sub_one] at hs'

/-- A held slot may be given any message. -/
theorem Sound.write (h : Sound (slot :: held) m) (message : Message ω) :
    Sound (slot :: held) { m with slots := update m.slots slot (some message) } ∧
      ({ m with slots := update m.slots slot (some message) } : Mailbox ω).messages = m.messages := by
  have hnd := (List.perm_middle.append_right m.freed).nodup_iff.mp h.nodup
  rw [List.cons_append, List.nodup_cons] at hnd
  have hne : ∀ s, s ∈ m.queued ∨ s ∈ m.freed → s ≠ slot := fun s hs heq => hnd.1 (by
    rcases hs with hs | hs <;> simp [← heq, hs])
  refine ⟨⟨h.ring, h.perm, ?_, ?_⟩, ?_⟩
  · intro s hs
    show ∃ x, update m.slots slot (some message) s = some x ∧ _
    rw [update_of_ne (hne s (.inl hs))]
    exact h.queued_some s hs
  · intro s hs
    show update m.slots slot (some message) s = none
    rw [update_of_ne (hne s (.inr hs))]
    exact h.freed_none s hs
  · show m.queued.filterMap (update m.slots slot (some message)) = m.queued.filterMap m.slots
    exact List.filterMap_congr fun s hs => update_of_ne (hne s (.inl hs)) _ _

/-- A held message without an identity gets the next one before its slot is queued. -/
theorem Sound.enqueueSlot_fresh (h : Sound (slot :: held) m) (hm : m.slots slot = some message)
    (hid : message.messageId = 0) (hnext : next ≠ 0) (hwrap : next + 1 < 2 ^ 64) :
    ∃ m', m.enqueueSlot slot next = some (m', next + 1) ∧ Sound held m' ∧
      m'.messages = m.messages ++ [{ message with messageId := next }] := by
  obtain ⟨h₂, hmessages⟩ := h.write { message with messageId := next }
  have hslot : update m.slots slot (some { message with messageId := next }) slot =
      some { message with messageId := next } := update_self _ _ _
  obtain ⟨hlist, hsound⟩ := h₂.append hslot hnext
  refine ⟨_, ?_, hsound, ?_⟩
  · rw [h.enqueueSlot_new hm hid, if_pos hwrap]
  · show ((m.toRingBuffer.enqueue mailboxCap slot).toList mailboxCap).filterMap _ = _
    rw [hlist, List.filterMap_append, ← hmessages]
    exact congrArg (_ ++ ·) (List.filterMap_cons_some hslot)

/-- What adding a message comes to: it is refused, or becomes the last of the queue with the next identity. -/
def Queues (m : Mailbox ω) (message : Message ω) (next : Nat) (sent : Mailbox ω × Nat × Bool) : Prop :=
  Sound [] sent.1 ∧ (sent.2 = (next, false) ∧ sent.1.messages = m.messages ∨
    sent.2 = (next + 1, true) ∧ sent.1.messages = m.messages ++ [{ message with messageId := next }])

theorem fillSlot_queues (h : Sound [slot] m) (hid : message.messageId = 0) (hnext : next ≠ 0) :
    m.Queues message next (m.fillSlot message slot next) := by
  obtain ⟨h₁, hmessages₁⟩ := h.write message
  have hslot₁ : update m.slots slot (some message) slot = some message := update_self _ _ _
  rw [fillSlot]
  by_cases hwrap : next + 1 < 2 ^ 64
  · obtain ⟨m', heq, hsound, hmessages⟩ := h₁.enqueueSlot_fresh hslot₁ hid hnext hwrap
    simp only [heq]
    exact ⟨hsound, .inr ⟨rfl, hmessages.trans (by rw [hmessages₁])⟩⟩
  · -- the slot is unused again
    obtain ⟨htake, hreleased⟩ := h₁.takeSlot hslot₁
    simp only [h₁.enqueueSlot_new hslot₁ hid next, if_neg hwrap, htake]
    refine ⟨hreleased, .inl ⟨rfl, ?_⟩⟩
    rw [← hmessages₁]
    apply Sound.messages_released
    intro hs
    exact (List.nodup_append.mp (List.nodup_append.mp h.nodup).1).2.2 slot hs slot (by simp) rfl

/-- **A message sent is refused, or becomes the last of the queue with the next identity.** -/
theorem enqueueMessage_queues (h : Sound [] m) (hid : message.messageId = 0) (hnext : next ≠ 0)
    (configured : Nat) : m.Queues message next (m.enqueueMessage configured message next) := by
  rw [enqueueMessage]
  rcases reserveSlot_cases h configured message.isReply with ⟨-, hr⟩ | ⟨-, slot, hr, hslot⟩
  · rw [hr]
    exact ⟨h, .inl ⟨rfl, rfl⟩⟩
  · rw [hr]
    exact fillSlot_queues hslot hid hnext

theorem pushMessage_queues (h : Sound [] m) (hid : message.messageId = 0) (hnext : next ≠ 0)
    (configured maxMsgSize : Nat) (allocated : Bool) :
    m.Queues message next (m.pushMessage configured maxMsgSize allocated message next) := by
  unfold pushMessage
  split
  · exact ⟨h, .inl ⟨rfl, rfl⟩⟩
  · rcases reserveSlot_cases h configured false with ⟨-, hr⟩ | ⟨-, slot, hr, hslot⟩
    · rw [hr]
      exact ⟨h, .inl ⟨rfl, rfl⟩⟩
    · rw [hr]
      exact fillSlot_queues hslot hid hnext

/-! ## Selecting -/

theorem selectLoop_some
    (hs : m.selectLoop endpoint acceptHandles reply xs = .ok (some (slot, message))) :
    ∃ before after, xs = before ++ slot :: after ∧ m.slots slot = some message ∧
      selects endpoint reply message = true ∧
        (∀ x ∈ before.filterMap m.slots, selects endpoint reply x = false) ∧
      (acceptHandles = false → message.objectHandles.handles = []) := by
  induction xs with
  | nil => cases hs
  | cons x xs ih =>
    rw [selectLoop] at hs
    split at hs
    · cases hs
    rename_i found hfound
    have hx : m.slots x = some found := by
      unfold Mailbox.message at hfound
      split at hfound
      · exact hfound
      · cases hfound
    split at hs
    · rename_i hno
      obtain ⟨before, after, hxs, hrest⟩ := ih hs
      obtain ⟨hslot, hsel, hnone, hplain⟩ := hrest
      refine ⟨x :: before, after, by rw [hxs]; rfl, hslot, hsel, ?_, hplain⟩
      rw [List.filterMap_cons_some hx]
      exact List.forall_mem_cons.mpr ⟨by simpa using hno, hnone⟩
    · rename_i hyes
      split at hs
      · cases hs
      rename_i hplain
      split at hs
      · cases hs
      cases hs
      exact ⟨[], xs, rfl, hx, by simpa using hyes, by simp, fun h => by simpa [h] using hplain⟩

/-- **`snapshot_receive` selects the first message that fits**; it never passes one over. -/
theorem snapshotReceive_some {allocated : Bool}
    (hs : m.snapshotReceive endpoint acceptHandles reply allocated = .ok (some (slot, message))) :
    (acceptHandles = false → message.objectHandles.handles = []) ∧ selects endpoint reply message = true ∧
      ∃ before after, m.messages = before ++ message :: after ∧
        ∀ x ∈ before, selects endpoint reply x = false := by
  unfold snapshotReceive at hs
  split at hs
  · cases hs
  split at hs
  · rename_i selected hloop
    split at hs
    · cases hs
      obtain ⟨before, after, hq, hm, hsel, hnone, hplain⟩ := selectLoop_some hloop
      refine ⟨hplain, hsel, before.filterMap m.slots, after.filterMap m.slots, ?_, hnone⟩
      rw [messages, hq, List.filterMap_append, List.filterMap_cons_some hm]
    · cases hs
  · rename_i hother
    exact absurd hs (hother _)

end Mailbox

end Mnu.Ipc
