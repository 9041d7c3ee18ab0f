import Mnu.Lib.Run

/-!
# `Mnu.Abi.SharedRing` — one direction of a shared ring page

`push` and `pop` of `crates/abi/src/shared_ring.rs`. The two counters run freely through all 32-bit values,
and the slot of a message is its counter value modulo 31. Producer and consumer are two threads that share
nothing but the counters and the slots; each load, each store and each copy of a message is a step, and the
steps interleave in any way.

`pushed` and `popped` record the calls that were successful. They are not there in the source, and no step
looks at them.
-/

namespace Mnu.Abi.SharedRing

open Mnu.Lib

/-- `SHARED_RING_SLOT_COUNT` -/
def slotCount : Nat := 31

/-- `SHARED_RING_PAYLOAD_SIZE` -/
def payloadSize : Nat := 48

/-- What `push` and `pop` fail with. -/
inductive Error where
  | full
  | empty
  | corruptEntry
  deriving DecidableEq, Repr

/-- `SharedRingMessage` -/
structure Message where
  kind : UInt16
  flags : UInt16
  len : UInt32
  requestId : UInt64
  payload : Fin payloadSize → UInt8
  deriving DecidableEq

/-- `EMPTY_MESSAGE` -/
def emptyMessage : Message := ⟨0, 0, 0, 0, fun _ => 0⟩

/-- Whether the length fits the payload. -/
def Message.valid (m : Message) : Bool := m.len.toNat ≤ payloadSize

/-- The page that both sides map. -/
structure Ring where
  producer : UInt32
  consumer : UInt32
  slots : Nat → Message

/-- What `initialize` makes of one direction. -/
def initialized : Ring := ⟨0, 0, fun _ => emptyMessage⟩

/-- The slot of a counter. -/
def slotOf (index : UInt32) : Nat := index.toNat % slotCount

/-- A message put into the slot of a counter. -/
def Ring.write (r : Ring) (index : UInt32) (m : Message) : Ring :=
  { r with slots := Function.update r.slots (slotOf index) m }

/-- `push`, if nothing comes in between. -/
def push (r : Ring) (m : Message) : Except Error Ring :=
  if !m.valid then .error .corruptEntry
  else if slotCount ≤ (r.producer - r.consumer).toNat then .error .full
  else .ok { r.write r.producer m with producer := r.producer + 1 }

/-- `pop`, if nothing comes in between. -/
def pop (r : Ring) : Except Error (Message × Ring) :=
  if r.consumer = r.producer then .error .empty
  else if !(r.slots (slotOf r.consumer)).valid then .error .corruptEntry
  else .ok (r.slots (slotOf r.consumer), { r with consumer := r.consumer + 1 })

/-! ## Two threads -/

/-- Where the producer is in `push`. -/
inductive Producer where
  | idle
  | begin (m : Message)
  | loaded (m : Message) (index : UInt32)
  | checked (m : Message) (index : UInt32)
  | written (m : Message) (index : UInt32)
  | returned (result : Option Error)
  deriving DecidableEq

/-- Where the consumer is in `pop`. -/
inductive Consumer where
  | idle
  | begin
  | loaded (index : UInt32)
  | checked (index : UInt32)
  | read (index : UInt32) (m : Message)
  | returned (result : Except Error Message)

/-- The page, both sides, and what has passed through. -/
structure State where
  ring : Ring
  producer : Producer
  consumer : Consumer
  pushed : List Message
  popped : List Message

/-- A call of either side, or its next access. -/
inductive Label where
  | push (m : Message)
  | pop
  /-- The next access of the producer. -/
  | producer
  | consumer

/-- One access to the page. -/
def step (s : State) : Label → Option State
  | .push m =>
    match s.producer with
    | .idle => some { s with producer := if m.valid then .begin m else .returned (some .corruptEntry) }
    | _ => none
  | .pop =>
    match s.consumer with
    | .idle => some { s with consumer := .begin }
    | _ => none
  | .producer =>
    match s.producer with
    | .idle => none
    | .begin m => some { s with producer := .loaded m s.ring.producer }
    | .loaded m index =>
      if slotCount ≤ (index - s.ring.consumer).toNat then some { s with producer := .returned (some .full) }
      else some { s with producer := .checked m index }
    | .checked m index => some { s with ring := s.ring.write index m, producer := .written m index }
    | .written m index =>
      some { s with
        ring := { s.ring with producer := index + 1 }
        producer := .returned none
        pushed := s.pushed ++ [m] }
    | .returned _ => some { s with producer := .idle }
  | .consumer =>
    match s.consumer with
    | .idle => none
    | .begin => some { s with consumer := .loaded s.ring.consumer }
    | .loaded index =>
      if index = s.ring.producer then some { s with consumer := .returned (.error .empty) }
      else some { s with consumer := .checked index }
    | .checked index =>
      let m := s.ring.slots (slotOf index)
      if m.valid then some { s with consumer := .read index m }
      else some { s with consumer := .returned (.error .corruptEntry) }
    | .read index m =>
      some { s with
        ring := { s.ring with consumer := index + 1 }
        consumer := .returned (.ok m)
        popped := s.popped ++ [m] }
    | .returned _ => some { s with consumer := .idle }

/-- An initialised page before any call. -/
def start : State := ⟨initialized, .idle, .idle, [], []⟩

/-- The ring as a system. -/
def sharedRing : System State Label where
  init s := s = start
  step := step

/-! ## Runs without interleaving -/

section Sequential

variable {s : State} {m : Message} {r : Ring}

theorem reachable_step (h : sharedRing.Reachable s) {s' : State} (l : Label) (hs : step s l = some s') :
    sharedRing.Reachable s' :=
  .step h trivial hs

/-- The accesses of a push one after the other are `push`. -/
theorem reachable_push (h : sharedRing.Reachable s) (hp : s.producer = .idle)
    (hr : push s.ring m = .ok r) : sharedRing.Reachable { s with ring := r, pushed := s.pushed ++ [m] } := by
  obtain ⟨ring, producer, consumer, pushed, popped⟩ := s
  cases hp
  unfold push at hr
  split at hr
  · cases hr
  rename_i hvalid
  split at hr
  · cases hr
  rename_i hroom
  cases hr
  have h₁ := reachable_step h (.push m) rfl
  rw [if_pos (by simpa using hvalid)] at h₁
  have h₂ := reachable_step h₁ .producer rfl
  have h₃ := reachable_step h₂ .producer (if_neg hroom)
  have h₄ := reachable_step h₃ .producer rfl
  have h₅ := reachable_step h₄ .producer rfl
  exact reachable_step h₅ .producer rfl

/-- The accesses of a pop one after the other are `pop`. -/
theorem reachable_pop (h : sharedRing.Reachable s) (hc : s.consumer = .idle)
    (hr : pop s.ring = .ok (m, r)) :
    sharedRing.Reachable { s with ring := r, popped := s.popped ++ [m] } := by
  obtain ⟨ring, producer, consumer, pushed, popped⟩ := s
  cases hc
  unfold pop at hr
  split at hr
  · cases hr
  rename_i hne
  split at hr
  · cases hr
  rename_i hvalid
  cases hr
  have h₁ := reachable_step h .pop rfl
  have h₂ := reachable_step h₁ .consumer rfl
  have h₃ := reachable_step h₂ .consumer (if_neg hne)
  have h₄ := reachable_step h₃ .consumer (if_pos (by simpa using hvalid))
  have h₅ := reachable_step h₄ .consumer rfl
  exact reachable_step h₅ .consumer rfl

end Sequential

end Mnu.Abi.SharedRing
