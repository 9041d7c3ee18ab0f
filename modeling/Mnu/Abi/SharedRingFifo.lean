import Mnu.Abi.SharedRing

/-!
# `Mnu.Abi.SharedRingFifo` — what a shared ring delivers

Two invariants, both over all interleavings. `Counted` says that the counters are the numbers of successful
calls modulo `2 ^ 32`, so that their difference is the number of unread messages, and it needs nothing. `Kept`
says that the unread messages are in their slots, and it needs `drained`: since `2 ^ 32` is 4 modulo 31, the
slots after the wraparound of the counter lie four behind, and each of the four first pushes hits the message
four before it.
-/

namespace Mnu.Abi.SharedRing

open Mnu.Lib Function

/-! ## Counters -/

/-- Free-running counters that are close to each other have the distance of what they count. -/
theorem distance_eq {P C : Nat} (hle : C ≤ P) (hroom : P ≤ C + slotCount) :
    (UInt32.ofNat P - UInt32.ofNat C).toNat = P - C := by
  unfold slotCount at hroom
  rw [UInt32.toNat_sub, UInt32.toNat_ofNat', UInt32.toNat_ofNat']
  omega

theorem counter_inj {P C : Nat} (hle : C ≤ P) (hroom : P ≤ C + slotCount) :
    UInt32.ofNat C = UInt32.ofNat P ↔ C = P := by
  constructor
  · intro h
    have hzero := distance_eq hle hroom
    rw [h, UInt32.sub_self] at hzero
    have : P - C = 0 := hzero.symm
    omega
  · rintro rfl
    rfl

theorem slotOf_ofNat (i : Nat) : slotOf (UInt32.ofNat i) = i % 2 ^ 32 % slotCount := by
  rw [slotOf, UInt32.toNat_ofNat']

/-- Two messages less than 31 apart have different slots, unless the later is one of the four first after a
    wraparound of the counter and the other is four before it. -/
theorem slotOf_ne {i P : Nat} (hlt : i < P) (hroom : P < i + slotCount)
    (hwrap : 4 ≤ P % 2 ^ 32 ∨ P < i + 4) : slotOf (UInt32.ofNat i) ≠ slotOf (UInt32.ofNat P) := by
  rw [slotOf_ofNat, slotOf_ofNat]
  unfold slotCount at *
  -- the counter wraps around once between them, or not at all
  have hepoch : P / 2 ^ 32 = i / 2 ^ 32 ∨ P / 2 ^ 32 = i / 2 ^ 32 + 1 := by omega
  rcases hepoch with hsame | hnext <;> omega

/-! ## What a step can do -/

/-- What a step can do. -/
inductive Moves (s : State) : Label → State → Prop where
  | enters {m} : s.producer = .idle → m.valid = true → Moves s (.push m) { s with producer := .begin m }
  | loads {m} : s.producer = .begin m → Moves s .producer { s with producer := .loaded m s.ring.producer }
  | passes {m index} : s.producer = .loaded m index → ¬ slotCount ≤ (index - s.ring.consumer).toNat →
      Moves s .producer { s with producer := .checked m index }
  | writes {m index} : s.producer = .checked m index →
      Moves s .producer { s with ring := s.ring.write index m, producer := .written m index }
  | publishes {m index} : s.producer = .written m index → Moves s .producer { s with
        ring := { s.ring with producer := index + 1 }, producer := .returned none, pushed := s.pushed ++ [m] }
  | answers {l e} : Moves s l { s with producer := .returned (some e) }
  | rests : Moves s .producer { s with producer := .idle }
  | begins : Moves s .pop { s with consumer := .begin }
  | looks : s.consumer = .begin → Moves s .consumer { s with consumer := .loaded s.ring.consumer }
  | finds {index} : s.consumer = .loaded index → index ≠ s.ring.producer →
      Moves s .consumer { s with consumer := .checked index }
  | reads {index} : s.consumer = .checked index → (s.ring.slots (slotOf index)).valid = true →
      Moves s .consumer { s with consumer := .read index (s.ring.slots (slotOf index)) }
  | takes {index m} : s.consumer = .read index m → Moves s .consumer { s with
        ring := { s.ring with consumer := index + 1 }
        consumer := .returned (.ok m)
        popped := s.popped ++ [m] }
  | fails {e} : Moves s .consumer { s with consumer := .returned (.error e) }
  | leaves : Moves s .consumer { s with consumer := .idle }

variable {s s' : State} {l : Label}

/-- **Inversion.** -/
theorem step_cases (h : step s l = some s') : Moves s l s' := by
  cases l with simp only [step] at h
  | push m =>
    split at h
    · cases h
      split
      · exact .enters ‹_› ‹_›
      · exact .answers
    · cases h
  | pop =>
    split at h
    · cases h
      exact .begins
    · cases h
  | producer =>
    split at h
    · cases h
    · cases h
      exact .loads ‹_›
    · split at h <;> cases h
      · exact .answers
      · exact .passes ‹_› ‹_›
    · cases h
      exact .writes ‹_›
    · cases h
      exact .publishes ‹_›
    · cases h
      exact .rests
  | consumer =>
    split at h
    · cases h
    · cases h
      exact .looks ‹_›
    · split at h <;> cases h
      · exact .fails
      · exact .finds ‹_› ‹_›
    · split at h <;> cases h
      · exact .reads ‹_› ‹_›
      · exact .fails
    · cases h
      exact .takes ‹_›
    · cases h
      exact .leaves

/-! ## The counters count -/

/-- The slot that the producer has passed the check for and not yet published. -/
def Producer.entered : Producer → Option UInt32
  | .checked _ index => some index
  | .written _ index => some index
  | _ => none

/-- The slot that the consumer has found filled and not yet given back. -/
def Consumer.taking : Consumer → Option UInt32
  | .checked index => some index
  | .read index _ => some index
  | _ => none

/-- The counters count the messages. -/
structure Counted (s : State) : Prop where
  le : s.popped.length ≤ s.pushed.length
  room : s.pushed.length ≤ s.popped.length + slotCount
  producer : s.ring.producer = UInt32.ofNat s.pushed.length
  consumer : s.ring.consumer = UInt32.ofNat s.popped.length
  loaded : ∀ m index, s.producer = .loaded m index → index = s.ring.producer
  entered : ∀ index, s.producer.entered = some index →
    index = s.ring.producer ∧ s.pushed.length < s.popped.length + slotCount
  looked : ∀ index, s.consumer = .loaded index → index = s.ring.consumer
  taking : ∀ index, s.consumer.taking = some index → index = s.ring.consumer ∧
    s.popped.length < s.pushed.length

theorem Counted.unread (h : Counted s) :
    (s.ring.producer - s.ring.consumer).toNat = s.pushed.length - s.popped.length := by
  rw [h.producer, h.consumer]
  exact distance_eq h.le h.room

theorem Counted.moves (h : Counted s) (hm : Moves s l s') : Counted s' := by
  obtain ⟨hle, hroom, hproducer, hconsumer, hloaded, hentered, hlooked, htaking⟩ := h
  have hunread := (Counted.mk hle hroom hproducer hconsumer hloaded hentered hlooked htaking).unread
  cases hm with
  | enters _ _ | answers | rests => exact ⟨hle, hroom, hproducer, hconsumer, nofun, nofun, hlooked, htaking⟩
  | loads _ =>
    refine ⟨hle, hroom, hproducer, hconsumer, ?_, nofun, hlooked, htaking⟩
    rintro m index ⟨⟩
    rfl
  | @passes m index hp hroom' =>
    refine ⟨hle, hroom, hproducer, hconsumer, nofun, ?_, hlooked, htaking⟩
    rintro _ ⟨⟩
    have heq := hloaded m index hp
    rw [heq, hunread] at hroom'
    refine ⟨heq, ?_⟩
    show s.pushed.length < s.popped.length + slotCount
    omega
  | @writes m index hp =>
    refine ⟨hle, hroom, hproducer, hconsumer, nofun, ?_, hlooked, htaking⟩
    rintro _ ⟨⟩
    exact hentered index (by rw [hp]; rfl)
  | @publishes m index hp =>
    obtain ⟨heq, hlt⟩ := hentered index (by rw [hp]; rfl)
    refine ⟨?_, ?_, ?_, hconsumer, nofun, nofun, hlooked, fun i hi => ⟨(htaking i hi).1, ?_⟩⟩
    · rw [List.length_append]
      exact Nat.le_add_right_of_le hle
    · rw [List.length_append]
      exact hlt
    · show index + 1 = _
      rw [heq, hproducer, List.length_append, UInt32.ofNat_add]
      rfl
    · rw [List.length_append]
      exact Nat.lt_add_right _ (htaking i hi).2
  | begins | fails | leaves => exact ⟨hle, hroom, hproducer, hconsumer, hloaded, hentered, nofun, nofun⟩
  | looks _ =>
    refine ⟨hle, hroom, hproducer, hconsumer, hloaded, hentered, ?_, nofun⟩
    rintro index ⟨⟩
    rfl
  | @finds index hp hne =>
    refine ⟨hle, hroom, hproducer, hconsumer, hloaded, hentered, nofun, ?_⟩
    rintro _ ⟨⟩
    have heq := hlooked index hp
    refine ⟨heq, Nat.lt_of_le_of_ne hle fun h0 => hne ?_⟩
    rw [heq, hproducer, hconsumer, h0]
  | @reads index hp _ =>
    refine ⟨hle, hroom, hproducer, hconsumer, hloaded, hentered, nofun, ?_⟩
    rintro _ ⟨⟩
    exact htaking index (by rw [hp]; rfl)
  | @takes index m hp =>
    obtain ⟨heq, hlt⟩ := htaking index (by rw [hp]; rfl)
    refine ⟨?_, ?_, hproducer, ?_, hloaded, fun i hi => ⟨(hentered i hi).1, ?_⟩, nofun, nofun⟩
    · rw [List.length_append]
      exact hlt
    · rw [List.length_append, Nat.add_right_comm]
      exact Nat.le_add_right_of_le hroom
    · show index + 1 = _
      rw [heq, hconsumer, List.length_append, UInt32.ofNat_add]
      rfl
    · rw [List.length_append, Nat.add_right_comm]
      exact Nat.lt_add_right _ (hentered i hi).2

theorem counted_reachable (h : sharedRing.Reachable s) : Counted s := by
  refine System.Reach.invariant ?_ ?_ h
  · rintro s rfl
    exact ⟨Nat.le_refl _, Nat.zero_le _, rfl, rfl, nofun, nofun, nofun, nofun⟩
  · intro s l s' hi _ hs
    exact hi.moves (step_cases hs)

/-! ## The unread messages stay -/

/-- What a run has to observe: a push at one of the four first values of the counter is not accepted while
    four messages or more are unread. -/
def drained (s : State) : Label → Bool
  | .producer =>
    match s.producer with
    | .loaded _ index =>
      let unread := (index - s.ring.consumer).toNat
      slotCount ≤ unread || 4 ≤ index.toNat || unread < 4
    | _ => true
  | _ => true

/-- The message of the push that is under way. -/
def Producer.message : Producer → Option Message
  | .begin m => some m
  | .loaded m _ => some m
  | .checked m _ => some m
  | .written m _ => some m
  | _ => none

/-- The invariant: the unread messages are in their slots. -/
structure Kept (s : State) : Prop where
  counted : Counted s
  order : s.popped <+: s.pushed
  valid : ∀ m ∈ s.pushed, m.valid = true
  carried : ∀ m, s.producer.message = some m → m.valid = true
  held : ∀ i m, s.popped.length ≤ i → s.pushed[i]? = some m → s.ring.slots (slotOf (.ofNat i)) = m
  wrap : ∀ index, s.producer.entered = some index →
    4 ≤ s.pushed.length % 2 ^ 32 ∨ s.pushed.length < s.popped.length + 4
  written : ∀ m index, s.producer = .written m index → s.ring.slots (slotOf index) = m
  read : ∀ index m, s.consumer = .read index m → s.pushed[s.popped.length]? = some m

/-- The slot of a message that is yet to be written holds no unread one. -/
theorem Kept.apart (h : Kept s) {index : UInt32} (hp : s.producer.entered = some index) {i : Nat}
    (hle : s.popped.length ≤ i) (hlt : i < s.pushed.length) : slotOf (.ofNat i) ≠ slotOf index := by
  obtain ⟨heq, hroom⟩ := h.counted.entered index hp
  rw [heq, h.counted.producer]
  refine slotOf_ne hlt (by omega) ?_
  exact (h.wrap index hp).imp_right fun hnear => by omega

/-- The message in its slot is held there once it is published. -/
theorem Kept.publish (h : Kept s) {m m' : Message} {index : UInt32} (hp : s.producer = .written m index)
    {i : Nat} (hle : s.popped.length ≤ i) (hi : (s.pushed ++ [m])[i]? = some m') :
    s.ring.slots (slotOf (.ofNat i)) = m' := by
  rcases Nat.lt_or_ge i s.pushed.length with hlt | hge
  · rw [List.getElem?_append_left hlt] at hi
    exact h.held i m' hle hi
  · rw [List.getElem?_append_right hge] at hi
    obtain ⟨h0, h1⟩ := List.getElem?_eq_some_iff.mp hi
    have hlast : i = s.pushed.length := by
      simp only [List.length_singleton] at h0
      omega
    subst hlast
    have hm' : m = m' := by simpa using h1
    subst hm'
    rw [← h.counted.producer, ← (h.counted.entered index (by rw [hp]; rfl)).1]
    exact h.written m index hp

/-- The next pop continues the order. -/
theorem Kept.take (h : Kept s) {m : Message} (hread : s.pushed[s.popped.length]? = some m) :
    s.popped ++ [m] <+: s.pushed := by
  obtain ⟨rest, hrest⟩ := h.order
  rw [← hrest, List.getElem?_append_right (Nat.le_refl _), Nat.sub_self] at hread
  cases rest with
  | nil => cases hread
  | cons m' rest =>
    cases hread
    exact ⟨rest, by rw [← hrest]; simp⟩

/-- **Every step keeps the invariant.** -/
theorem Kept.moves (h : Kept s) (hd : drained s l = true) (hm : Moves s l s') : Kept s' := by
  have hcounted := h.counted.moves hm
  cases hm with
  | enters _ hv =>
    refine ⟨hcounted, h.order, h.valid, ?_, h.held, nofun, nofun, h.read⟩
    rintro _ ⟨⟩
    exact hv
  | @loads m hp =>
    refine ⟨hcounted, h.order, h.valid, ?_, h.held, nofun, nofun, h.read⟩
    rintro _ ⟨⟩
    exact h.carried m (by rw [hp]; rfl)
  | @passes m index hp hroom =>
    refine ⟨hcounted, h.order, h.valid, ?_, h.held, ?_, nofun, h.read⟩
    · rintro _ ⟨⟩
      exact h.carried m (by rw [hp]; rfl)
    · intro _ _
      have hle := h.counted.le
      simp only [drained, hp, Bool.or_eq_true, decide_eq_true_eq] at hd
      rw [h.counted.loaded m index hp, h.counted.unread] at hd hroom
      rcases hd with (hfull | hlate) | hfew
      · exact absurd hfull hroom
      · rw [h.counted.producer, UInt32.toNat_ofNat'] at hlate
        exact .inl hlate
      · refine .inr ?_
        show s.pushed.length < s.popped.length + 4
        omega
  | @writes m index hp =>
    have hentered : s.producer.entered = some index := by rw [hp]; rfl
    refine ⟨hcounted, h.order, h.valid, ?_, ?_, ?_, ?_, h.read⟩
    · rintro _ ⟨⟩
      exact h.carried m (by rw [hp]; rfl)
    · intro i m' hle hi
      obtain ⟨hlt, _⟩ := List.getElem?_eq_some_iff.mp hi
      exact (update_of_ne (h.apart hentered hle hlt) _ _).trans (h.held i m' hle hi)
    · exact fun _ _ => h.wrap index hentered
    · rintro _ _ ⟨⟩
      exact update_self _ _ _
  | @publishes m index hp =>
    refine ⟨hcounted, h.order.trans (List.prefix_append _ _), ?_, nofun, fun _ _ => h.publish hp, nofun,
      nofun, ?_⟩
    · intro m' hm'
      rcases List.mem_append.mp hm' with h0 | h0
      · exact h.valid m' h0
      · cases List.mem_singleton.mp h0
        exact h.carried m (by rw [hp]; rfl)
    · intro i m' hi
      rw [List.getElem?_append_left (h.counted.taking i (by rw [hi]; rfl)).2]
      exact h.read i m' hi
  | answers | rests => exact ⟨hcounted, h.order, h.valid, nofun, h.held, nofun, nofun, h.read⟩
  | begins | looks _ | finds _ _ | fails | leaves =>
    exact ⟨hcounted, h.order, h.valid, h.carried, h.held, h.wrap, h.written, nofun⟩
  | @reads index hp _ =>
    refine ⟨hcounted, h.order, h.valid, h.carried, h.held, h.wrap, h.written, ?_⟩
    rintro _ _ ⟨⟩
    obtain ⟨heq, hlt⟩ := h.counted.taking index (by rw [hp]; rfl)
    have hget := List.getElem?_eq_getElem hlt
    show s.pushed[s.popped.length]? = _
    rw [hget, heq, h.counted.consumer, h.held _ _ (Nat.le_refl _) hget]
  | @takes index m hp =>
    refine ⟨hcounted, h.take (h.read index m hp), h.valid, h.carried, ?_, ?_, h.written, nofun⟩
    · intro i m' hle hi
      refine h.held i m' (Nat.le_trans ?_ hle) hi
      rw [List.length_append]
      exact Nat.le_add_right _ _
    · intro i hi
      refine (h.wrap i hi).imp_right fun hnear => ?_
      rw [List.length_append]
      exact Nat.lt_of_lt_of_le hnear (by omega)

theorem kept_reach (h : sharedRing.Reach (fun s l => drained s l = true) s) : Kept s := by
  refine System.Reach.invariant ?_ ?_ h
  · rintro s rfl
    exact ⟨counted_reachable (.init rfl), List.prefix_rfl, nofun, nofun, nofun, nofun, nofun, nofun⟩
  · intro s l s' hi hd hs
    exact hi.moves hd (step_cases hs)

/-! ## What the ring promises -/

/-- The messages between the counters. -/
def Ring.unread (r : Ring) : List Message :=
  (List.range (r.producer - r.consumer).toNat).map fun i => r.slots (slotOf (r.consumer + .ofNat i))

/-- The answers of the calls mean what they say, also while the other side is at work. -/
structure Reports (s : State) : Prop where
  /-- A push that succeeds puts its message at the end of what was pushed, and nothing else does. -/
  succeeds : ∀ l s', step s l = some s' →
    (s'.pushed = s.pushed ∧ (s'.producer = .returned none → s.producer = .returned none)) ∨
      ∃ m, s.producer.message = some m ∧ s'.producer = .returned none ∧ s'.pushed = s.pushed ++ [m]
  /-- Its message is the one that it was given. -/
  given : ∀ l s' m, step s l = some s' → s'.producer.message = some m →
    s.producer.message = some m ∨ l = .push m
  /-- A pop that succeeds returns what it puts at the end of what was popped, and nothing else does. -/
  returns : ∀ l s', step s l = some s' →
    (s'.popped = s.popped ∧ ∀ m, s'.consumer = .returned (.ok m) → s.consumer = .returned (.ok m)) ∨
      ∃ m, s'.consumer = .returned (.ok m) ∧ s'.popped = s.popped ++ [m]
  full : ∀ m index, s.producer = .loaded m index → ∃ s', step s .producer = some s' ∧
    (s'.producer = .returned (some .full) ↔ s.pushed.length = s.popped.length + slotCount)
  empty : ∀ index, s.consumer = .loaded index → ∃ s', step s .consumer = some s' ∧
    (s'.consumer = .returned (.error .empty) ↔ s.pushed.length = s.popped.length)
  pushes : ∀ m, m.valid = true →
    (push s.ring m = .error .full ↔ s.pushed.length = s.popped.length + slotCount)
  pops : pop s.ring = .error .empty ↔ s.pushed.length = s.popped.length

/-- What was pushed comes out. -/
structure Delivers (s : State) : Prop where
  /-- What was pushed has been popped, in this order and once, or is there to be popped. -/
  exactly : s.pushed = s.popped ++ s.ring.unread
  /-- A push leaves all unread messages alone. -/
  spares : ∀ m index s', s.producer = .checked m index → step s .producer = some s' →
    s'.ring.unread = s.ring.unread
  /-- No slot is written while it is read. -/
  apart : ∀ i j, s.producer.entered = some i → s.consumer.taking = some j → slotOf i ≠ slotOf j
  /-- What is there can be popped. -/
  valid : ∀ index, s.consumer = .checked index → (s.ring.slots (slotOf index)).valid = true

theorem Moves.pushed (h : Moves s l s') :
    (s'.pushed = s.pushed ∧ (s'.producer = .returned none → s.producer = .returned none)) ∨
      ∃ m, s.producer.message = some m ∧ s'.producer = .returned none ∧ s'.pushed = s.pushed ++ [m] := by
  cases h with
  | publishes hp => exact .inr ⟨_, by rw [hp]; rfl, rfl, rfl⟩
  | begins | looks _ | finds _ _ | reads _ _ | takes _ | fails | leaves => exact .inl ⟨rfl, fun h0 => h0⟩
  | _ => exact .inl ⟨rfl, by rintro ⟨⟩⟩

theorem Moves.message (h : Moves s l s') {m : Message} (hm : s'.producer.message = some m) :
    s.producer.message = some m ∨ l = .push m := by
  cases h with
  | enters _ _ =>
    cases hm
    exact .inr rfl
  | loads hp | passes hp _ | writes hp =>
    rw [hp]
    exact .inl hm
  | publishes _ | answers | rests => cases hm
  | _ => exact .inl hm

theorem Moves.popped (h : Moves s l s') :
    (s'.popped = s.popped ∧ ∀ m, s'.consumer = .returned (.ok m) → s.consumer = .returned (.ok m)) ∨
      ∃ m, s'.consumer = .returned (.ok m) ∧ s'.popped = s.popped ++ [m] := by
  cases h with
  | takes _ => exact .inr ⟨_, rfl, rfl⟩
  | begins | looks _ | finds _ _ | reads _ _ | fails | leaves => exact .inl ⟨rfl, by rintro _ ⟨⟩⟩
  | _ => exact .inl ⟨rfl, fun _ h0 => h0⟩

theorem Counted.reports (h : Counted s) : Reports s := by
  have hle := h.le
  have hroom := h.room
  have hunread := h.unread
  have hfull : slotCount ≤ (s.ring.producer - s.ring.consumer).toNat ↔
    s.pushed.length = s.popped.length + slotCount := by
    rw [hunread]
    unfold slotCount at *
    omega
  have hempty : s.ring.consumer = s.ring.producer ↔ s.pushed.length = s.popped.length := by
    rw [h.producer, h.consumer, counter_inj hle hroom]
    exact eq_comm
  constructor
  · exact fun _ _ hs => (step_cases hs).pushed
  · exact fun _ _ _ hs hm => (step_cases hs).message hm
  · exact fun _ _ hs => (step_cases hs).popped
  · intro m index hp
    rw [← hfull, ← h.loaded m index hp]
    by_cases hcase : slotCount ≤ (index - s.ring.consumer).toNat
    · exact ⟨{ s with producer := .returned (some .full) },
        by simp only [step, hp, if_pos hcase], by simp [hcase]⟩
    · exact ⟨{ s with producer := .checked m index }, by simp only [step, hp, if_neg hcase], by simp [hcase]⟩
  · intro index hp
    rw [← hempty, ← h.looked index hp]
    by_cases hcase : index = s.ring.producer
    · exact ⟨{ s with consumer := .returned (.error .empty) },
        by simp only [step, hp, if_pos hcase], by simp [hcase]⟩
    · exact ⟨{ s with consumer := .checked index }, by simp only [step, hp, if_neg hcase], by simp [hcase]⟩
  · intro m hm
    rw [← hfull]
    unfold push
    by_cases hcase : slotCount ≤ (s.ring.producer - s.ring.consumer).toNat <;> simp [hm, hcase]
  · rw [← hempty]
    unfold pop
    by_cases hcase : s.ring.consumer = s.ring.producer
    · simp [hcase]
    · simp only [hcase, if_false, iff_false]
      split <;> exact nofun

theorem Kept.unread (h : Kept s) : s.ring.unread = s.pushed.drop s.popped.length := by
  apply List.ext_getElem?
  intro i
  unfold Ring.unread
  rw [h.counted.unread, List.getElem?_map, List.getElem?_drop]
  by_cases hi : i < s.pushed.length - s.popped.length
  · have hlt : s.popped.length + i < s.pushed.length := by omega
    have hget := List.getElem?_eq_getElem hlt
    rw [List.getElem?_range hi, hget, Option.map_some, h.counted.consumer, ← UInt32.ofNat_add,
      h.held _ _ (Nat.le_add_right _ _) hget]
  · rw [List.getElem?_eq_none (by simpa using hi), List.getElem?_eq_none (by omega)]
    rfl

theorem Kept.delivers (h : Kept s) : Delivers s := by
  constructor
  · rw [h.unread]
    exact (List.prefix_iff_eq_append.mp h.order).symm
  · intro m index s' hp hs
    have hkept := h.moves (by simp only [drained, hp]) (step_cases hs)
    have hsame : s'.pushed = s.pushed ∧ s'.popped = s.popped := by
      simp only [step, hp] at hs
      cases hs
      exact ⟨rfl, rfl⟩
    rw [hkept.unread, h.unread, hsame.1, hsame.2]
  · intro i j hi hj
    obtain ⟨heq, hlt⟩ := h.counted.taking j hj
    rw [heq, h.counted.consumer]
    exact (h.apart hi (Nat.le_refl _) hlt).symm
  · intro index hp
    obtain ⟨heq, hlt⟩ := h.counted.taking index (by rw [hp]; rfl)
    have hget := List.getElem?_eq_getElem hlt
    rw [heq, h.counted.consumer, h.held _ _ (Nat.le_refl _) hget]
    exact h.valid _ (List.getElem_mem hlt)

/-- **A shared ring** answers its calls truthfully in every run, and delivers in every run in which it is
    drained at the wraparound of its counter. -/
theorem shared_ring_delivers (h : sharedRing.Reachable s) :
    Reports s ∧ (sharedRing.Reach (fun s l => drained s l = true) s → Delivers s) :=
  ⟨(counted_reachable h).reports, fun hd => (kept_reach hd).delivers⟩

/-- A message with this request id. -/
def numbered (id : UInt64) : Message := { emptyMessage with requestId := id }

/-- Two messages are pushed while the consumer is in the middle of a pop, which takes the first. -/
theorem shared_ring_delivers_first : ∃ s, sharedRing.Reach (fun s l => drained s l = true) s ∧
    s.pushed = [numbered 1, numbered 2] ∧ s.popped = [numbered 1] ∧ Reports s ∧ Delivers s := by
  obtain ⟨s, hs, hp⟩ := System.reach_of_exec sharedRing drained start
    (List.flatten [[.push (numbered 1)], List.replicate 5 .producer,
      [.pop, .consumer, .consumer, .push (numbered 2),
      .producer, .producer, .consumer, .producer, .producer, .consumer]])
    (fun s => s.pushed = [numbered 1, numbered 2] ∧ s.popped = [numbered 1]) rfl (by decide +kernel)
  obtain ⟨hreports, hdelivers⟩ := shared_ring_delivers hs.reachable
  exact ⟨s, hs, hp.1, hp.2, hreports, hdelivers hs⟩

/-! ## The wraparound -/

/-- A whole push. -/
def Ring.append (r : Ring) (m : Message) : Ring := { r.write r.producer m with producer := r.producer + 1 }

/-- A ring through which `n` messages have passed one by one. -/
theorem reachable_passed (n : Nat) : ∃ s, sharedRing.Reachable s ∧ s.producer = .idle ∧ s.consumer = .idle ∧
    s.ring.producer = .ofNat n ∧ s.ring.consumer = .ofNat n ∧ s.pushed = List.replicate n emptyMessage ∧
      s.popped = List.replicate n emptyMessage := by
  induction n with
  | zero => exact ⟨start, .init rfl, rfl, rfl, rfl, rfl, rfl, rfl⟩
  | succ n ih =>
    obtain ⟨s, hs, hp, hc, hproducer, hconsumer, hpushed, hpopped⟩ := ih
    have hpush : push s.ring emptyMessage = .ok (s.ring.append emptyMessage) := by
      have hzero : s.ring.producer - s.ring.consumer = 0 := by rw [hproducer, hconsumer, UInt32.sub_self]
      unfold push
      rw [hzero]
      rfl
    have h₁ := reachable_push hs hp hpush
    have hne : s.ring.consumer ≠ s.ring.producer + 1 := by
      rw [hproducer, hconsumer]
      intro h0
      have hnext : UInt32.ofNat n = UInt32.ofNat (n + 1) := by
        rw [UInt32.ofNat_add]
        exact h0
      have := (counter_inj (Nat.le_succ n) (by unfold slotCount; omega)).mp hnext
      omega
    have hslot : (update s.ring.slots (slotOf s.ring.producer) emptyMessage) (slotOf s.ring.consumer) =
        emptyMessage := by
      rw [hproducer, hconsumer, update_self]
    have hpop : pop (s.ring.append emptyMessage) =
        .ok (emptyMessage, { s.ring.append emptyMessage with consumer := s.ring.consumer + 1 }) := by
      unfold pop
      simp only [Ring.append, Ring.write, hslot, if_neg hne]
      rfl
    refine ⟨_, reachable_pop h₁ hc hpop, hp, hc, ?_, ?_, ?_, ?_⟩
    · show s.ring.producer + 1 = _
      rw [hproducer, UInt32.ofNat_add]
      rfl
    · show s.ring.consumer + 1 = _
      rw [hconsumer, UInt32.ofNat_add]
      rfl
    · show s.pushed ++ [emptyMessage] = _
      rw [hpushed, List.replicate_succ']
    · show s.popped ++ [emptyMessage] = _
      rw [hpopped, List.replicate_succ']

/-- A ring with room takes them all. -/
theorem reachable_pushes (ms : List Message) (h : sharedRing.Reachable s) (hp : s.producer = .idle)
    (hvalid : ∀ m ∈ ms, m.valid = true)
    (hroom : (s.ring.producer - s.ring.consumer).toNat + ms.length ≤ slotCount) :
    sharedRing.Reachable { s with ring := ms.foldl Ring.append s.ring, pushed := s.pushed ++ ms } := by
  induction ms generalizing s with
  | nil =>
    rw [List.append_nil]
    exact h
  | cons m ms ih =>
    have hroom' : (s.ring.producer - s.ring.consumer).toNat + (ms.length + 1) ≤ slotCount := hroom
    have hpush : push s.ring m = .ok (s.ring.append m) := by
      unfold push
      rw [hvalid m List.mem_cons_self, if_neg (by simp), if_neg (by omega)]
      rfl
    have hnext := ih (reachable_push h hp hpush) hp (fun m' h0 => hvalid m' (List.mem_cons_of_mem _ h0)) ?_
    · rw [List.append_assoc] at hnext
      exact hnext
    · show (s.ring.producer + 1 - s.ring.consumer).toNat + ms.length ≤ slotCount
      unfold slotCount at *
      have hone : (s.ring.producer + 1 - s.ring.consumer).toNat =
        (s.ring.producer - s.ring.consumer).toNat + 1 := by
        simp only [UInt32.toNat_sub, UInt32.toNat_add, UInt32.toNat_one] at *
        have := s.ring.producer.toNat_lt
        have := s.ring.consumer.toNat_lt
        omega
      omega

/-- **The ring loses messages at the wraparound**: the counter has come to its last value, five messages are
    pushed, of which the fifth is put over the first, and the first pop returns the fifth. -/
theorem shared_ring_overwrites : ∃ s, sharedRing.Reachable s ∧ s.producer = .idle ∧ s.consumer = .idle ∧
    s.pushed = List.replicate (2 ^ 32 - 1) emptyMessage ++ [1, 2, 3, 4, 5].map numbered ∧
      s.popped = List.replicate (2 ^ 32 - 1) emptyMessage ++ [numbered 5] := by
  obtain ⟨s, hs, hp, hc, hproducer, hconsumer, hpushed, hpopped⟩ := reachable_passed (2 ^ 32 - 1)
  have hpushes := reachable_pushes ([1, 2, 3, 4, 5].map numbered) hs hp (by decide)
    (by rw [hproducer, hconsumer, UInt32.sub_self]; decide)
  generalize hring : ([1, 2, 3, 4, 5].map numbered).foldl Ring.append s.ring = r at hpushes
  have hcounters : r.consumer = .ofNat (2 ^ 32 - 1) ∧
    r.producer = .ofNat (2 ^ 32 - 1) + 1 + 1 + 1 + 1 + 1 := by
    rw [← hring, ← hconsumer]
    refine ⟨rfl, ?_⟩
    rw [hconsumer, ← hproducer]
    rfl
  -- the first and the fifth message have the same slot, the fourth
  have hslot : r.slots (slotOf r.consumer) = numbered 5 := by
    have hsame : slotOf (.ofNat (2 ^ 32 - 1)) = slotOf (.ofNat (2 ^ 32 - 1) + 1 + 1 + 1 + 1) := by decide
    rw [hcounters.1, hsame, ← hproducer, ← hring]
    exact update_self _ _ _
  have hpop : pop r = .ok (numbered 5, { r with consumer := r.consumer + 1 }) := by
    unfold pop
    rw [hslot, hcounters.1, hcounters.2, if_neg (by decide)]
    rfl
  refine ⟨_, reachable_pop hpushes hc hpop, hp, hc, ?_, ?_⟩
  · show s.pushed ++ _ = _
    rw [hpushed]
  · show s.popped ++ _ = _
    rw [hpopped]

end Mnu.Abi.SharedRing
