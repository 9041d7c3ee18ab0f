import Mnu.Lib.RingBuffer
import Mnu.Lib.Run

/-!
# `Mnu.Task.Upcall` — delivery of upcalls to a thread

Model of `ThreadUpcallState` (`src/task/thread.rs`). Payloads wait in a ring. A delivery saves the context it
interrupts under a new token; the holder of the token asks for the return, to the context as saved or to one
of their own, and the next return to user mode restores it. Zero is no token, so tokens repeat after `2 ^ 64 -
1` deliveries. The registers and the FX area are parameters, and so is `FxSaveArea::with_user_bytes`.

A history runs beside the state: the payloads since the image was last replaced, and every delivery with the
context it owes. Replacing the image drops the payloads that wait and the delivery under way.
-/

namespace Mnu.Task

open Lib Function

variable {γ φ β : Type}

/-- `ThreadUpcallError`. -/
inductive UpcallError where
  | invalidContext
  | active
  | queueFull
  | invalidToken

/-- `ThreadUpcallDelivery`. -/
structure UpcallDelivery where
  entry : Nat
  stackTop : Nat
  payload : Nat
  token : Nat

/-- `ThreadUpcallState`. -/
structure UpcallState (γ φ : Type) where
  entry : Nat
  stackTop : Nat
  exceptions : Bool
  deferWord : Nat
  pending : Nat → Nat
  pendingHead : Nat
  pendingLen : Nat
  nextToken : Nat
  activeToken : Nat
  savedContext : Option γ
  savedFxState : φ
  restorePending : Bool

namespace UpcallState

/-- `new`. -/
def new (initial : φ) : UpcallState γ φ := ⟨0, 0, false, 0, fun _ => 0, 0, 0, 1, 0, none, initial, false⟩

/-- `Thread::install_upcall`. -/
def install (u : UpcallState γ φ) (entry stackTop : Nat) (exceptions : Bool) (deferWord : Nat) :
    Except UpcallError (UpcallState γ φ) :=
  if u.activeToken ≠ 0 ∨ u.restorePending then .error .active
  else .ok { u with entry, stackTop, exceptions, deferWord }

/-- `enqueue`: up to sixteen events. -/
def enqueue (u : UpcallState γ φ) (payload : Nat) : Except UpcallError (UpcallState γ φ) :=
  if u.pendingLen = 16 then .error .queueFull
  else .ok { u with
    pending := update u.pending ((u.pendingHead + u.pendingLen) % 16) payload
    pendingLen := u.pendingLen + 1 }

/-- `begin_event`; the FX area is saved from the CPU, which holds `fx`. -/
def beginEvent (u : UpcallState γ φ) (context : γ) (fx : φ) (payload : Nat) :
    Option (UpcallState γ φ × UpcallDelivery) :=
  if u.entry = 0 ∨ u.stackTop = 0 ∨ u.activeToken ≠ 0 ∨ u.restorePending then none
  else
    let token := max u.nextToken 1
    some ({ u with
        nextToken := max ((token + 1) % 2 ^ 64) 1
        activeToken := token
        savedContext := some context
        savedFxState := fx
        restorePending := false },
      ⟨u.entry, u.stackTop, payload, token⟩)

/-- The payload at the head leaves the ring. -/
def pop (u : UpcallState γ φ) : UpcallState γ φ :=
  { u with pendingHead := (u.pendingHead + 1) % 16, pendingLen := u.pendingLen - 1 }

/-- `begin`: the oldest event. -/
def begin (u : UpcallState γ φ) (context : γ) (fx : φ) : Option (UpcallState γ φ × UpcallDelivery) :=
  if u.pendingLen = 0 then none
  else (u.beginEvent context fx (u.pending u.pendingHead)).map fun (u, delivery) => (u.pop, delivery)

/-- `begin_exception`: past the queue. -/
def beginException (u : UpcallState γ φ) (context : γ) (fx : φ) (vector : Nat) :
    Option (UpcallState γ φ × UpcallDelivery) :=
  if u.exceptions then u.beginEvent context fx vector else none

/-- `request_return`. -/
def requestReturn (u : UpcallState γ φ) (token : Nat) : Except UpcallError (UpcallState γ φ) :=
  if token = 0 ∨ token ≠ u.activeToken ∨ u.savedContext.isNone then .error .invalidToken
  else .ok { u with restorePending := true }

/-- `take_restored_context`: the thread goes back. -/
def takeRestoredContext (u : UpcallState γ φ) : Option (UpcallState γ φ × γ × φ) :=
  if u.restorePending then
    u.savedContext.map fun context =>
      ({ u with savedContext := none, restorePending := false, activeToken := 0 }, context, u.savedFxState)
  else none

/-- `clear_upcall_for_image_replace`. -/
def clearForImageReplace (u : UpcallState γ φ) (initial : φ) : UpcallState γ φ :=
  { new initial with nextToken := u.nextToken }

variable (withUserBytes : φ → β → Option φ)

/-- `request_return_context`: to another context. -/
def requestReturnContext (u : UpcallState γ φ) (token : Nat) (context : γ) (bytes : β) :
    Except UpcallError (UpcallState γ φ) :=
  if token = 0 ∨ token ≠ u.activeToken ∨ u.savedContext.isNone ∨ u.restorePending then .error .invalidToken
  else match withUserBytes u.savedFxState bytes with
    | none => .error .invalidContext
    | some fx => .ok { u with savedContext := some context, savedFxState := fx, restorePending := true }

/-- `request_context_restore`, with `fx` on the CPU. -/
def requestContextRestore (u : UpcallState γ φ) (fx : φ) (context : γ) (bytes : β) :
    Except UpcallError (UpcallState γ φ) :=
  if u.activeToken ≠ 0 ∨ u.restorePending then .error .active
  else match withUserBytes fx bytes with
    | none => .error .invalidContext
    | some fx => .ok { u with savedContext := some context, savedFxState := fx, restorePending := true }

/-- The payloads that wait. -/
def ring (u : UpcallState γ φ) : RingBuffer Nat :=
  ⟨u.pendingHead, (u.pendingHead + u.pendingLen) % 16, u.pendingLen, u.pending⟩

/-- The context that a return would restore. -/
def saved (u : UpcallState γ φ) : Option (γ × φ) := u.savedContext.map fun context =>
    (context, u.savedFxState)

end UpcallState

/-! ## Runs with their history -/

/-- A delivery: how many came before it, its token, the context it owes (as saved, or as replaced with its
    token), and the contexts that were restored for it. -/
structure Delivered (γ φ : Type) where
  number : Nat
  token : Nat
  context : γ × φ
  restored : List (γ × φ)
  dropped : Bool

/-- A thread's upcalls, with their history. -/
structure Upcalls (γ φ : Type) where
  state : UpcallState γ φ
  accepted : List Nat
  delivered : List Nat
  count : Nat
  current : Option (Delivered γ φ)
  past : List (Delivered γ φ)

/-- An operation on them. -/
inductive UpcallOp (γ φ β : Type) where
  | install (entry stackTop : Nat) (exceptions : Bool) (deferWord : Nat)
  | enqueue (payload : Nat)
  | begin (context : γ) (fx : φ)
  | beginException (context : γ) (fx : φ) (vector : Nat)
  | requestReturn (token : Nat)
  | requestReturnContext (token : Nat) (context : γ) (bytes : β)
  | requestContextRestore (fx : φ) (context : γ) (bytes : β)
  | takeRestoredContext
  | imageReplace

namespace Upcalls

open UpcallState

/-- A delivery is recorded. -/
def deliver (s : Upcalls γ φ) (u : UpcallState γ φ) (d : UpcallDelivery) (context : γ × φ) : Upcalls γ φ :=
  { s with state := u, count := s.count + 1, current := some ⟨s.count, d.token, context, [], false⟩ }

/-- An operation that is refused changes nothing, and is no step. -/
def step (withUserBytes : φ → β → Option φ) (initial : φ) (s : Upcalls γ φ) :
    UpcallOp γ φ β → Option (Upcalls γ φ)
  | .install entry stackTop exceptions deferWord =>
    (s.state.install entry stackTop exceptions deferWord).toOption.map fun u => { s with state := u }
  | .enqueue payload =>
    (s.state.enqueue payload).toOption.map fun u => { s with state := u, accepted := s.accepted ++ [payload] }
  | .begin context fx =>
    (s.state.begin context fx).map fun (u, d) =>
      { s.deliver u d (context, fx) with delivered := s.delivered ++ [d.payload] }
  | .beginException context fx vector =>
    (s.state.beginException context fx vector).map fun (u, d) => s.deliver u d (context, fx)
  | .requestReturn token => (s.state.requestReturn token).toOption.map fun u => { s with state := u }
  | .requestReturnContext token context bytes =>
    (s.state.requestReturnContext withUserBytes token context bytes).toOption.map fun u =>
      { s with state := u, current := s.current.map fun r => { r with context := (context, u.savedFxState) } }
  | .requestContextRestore fx context bytes =>
    (s.state.requestContextRestore withUserBytes fx context bytes).toOption.map fun u => { s with state := u }
  | .takeRestoredContext =>
    s.state.takeRestoredContext.map fun (u, context) =>
      { s with
        state := u
        current := none
        past := (s.current.map fun r => { r with restored := r.restored ++ [context] }).toList ++ s.past }
  | .imageReplace => some
      { s with
        state := s.state.clearForImageReplace initial
        accepted := []
        delivered := []
        current := none
        past := (s.current.map fun r => { r with dropped := true }).toList ++ s.past }

/-- None yet. -/
def new (initial : φ) : Upcalls γ φ := ⟨.new initial, [], [], 0, none, []⟩

/-- Upcalls as a system. -/
def runs (γ : Type) (withUserBytes : φ → β → Option φ) (initial : φ) :
    System (Upcalls γ φ) (UpcallOp γ φ β) where
  init s := s = new initial
  step := step withUserBytes initial

/-! ## What a run keeps -/

/-- A delivery of before: it was restored once, or dropped with its image. -/
structure Over (r : Delivered γ φ) : Prop where
  token : r.token = r.number % (2 ^ 64 - 1) + 1
  once : r.restored = [r.context] ∧ r.dropped = false ∨ r.restored = [] ∧ r.dropped = true

/-- The invariant of a thread's upcalls. -/
structure Inv (s : Upcalls γ φ) : Prop where
  ring : s.state.ring.Sound 16
  fifo : s.accepted = s.delivered ++ s.state.ring.toList 16
  next : s.state.nextToken = s.count % (2 ^ 64 - 1) + 1
  idle : s.current = none → s.state.activeToken = 0
  busy : ∀ r, s.current = some r → s.state.activeToken = r.token ∧ s.state.saved = some r.context ∧
    r.token = r.number % (2 ^ 64 - 1) + 1 ∧ r.restored = [] ∧ r.dropped = false
  asked : s.state.restorePending = true → s.state.savedContext ≠ none
  history : (s.current.toList ++ s.past).map (·.number) = (List.range s.count).reverse ∧ ∀ r ∈ s.past, Over r

variable {s s' : Upcalls γ φ} {withUserBytes : φ → β → Option φ} {initial : φ}

/-- The tokens go round, leaving out zero. -/
theorem token_succ (n : Nat) : max ((n % (2 ^ 64 - 1) + 1 + 1) % 2 ^ 64) 1 = (n + 1) % (2 ^ 64 - 1) + 1 := by
  omega

theorem Inv.current_none (h : s.Inv) (hidle : s.state.activeToken = 0) : s.current = none := by
  cases hc : s.current with
  | none => rfl
  | some r =>
    obtain ⟨htoken, -, hr, -⟩ := h.busy r hc
    omega

theorem Inv.deliver (h : s.Inv) {context : γ} {fx : φ} {payload : Nat} {u : UpcallState γ φ}
    {d : UpcallDelivery}
    (hu : s.state.beginEvent context fx payload = some (u, d)) : (s.deliver u d (context, fx)).Inv := by
  simp only [beginEvent] at hu
  split at hu
  · cases hu
  rename_i hguard
  have hnone : s.current = none := h.current_none (by omega)
  have hmax : max s.state.nextToken 1 = s.count % (2 ^ 64 - 1) + 1 := by
    rw [h.next, Nat.max_eq_left (by omega)]
  rw [hmax, token_succ] at hu
  cases hu
  refine ⟨h.ring, h.fifo, rfl, nofun, ?_, nofun, ?_, h.history.2⟩
  · rintro r ⟨⟩
    exact ⟨rfl, rfl, rfl, rfl, rfl⟩
  · have hnumbers := h.history.1
    rw [hnone] at hnumbers
    rw [Upcalls.deliver, List.range_succ, List.reverse_append]
    exact congrArg _ hnumbers

theorem Inv.pop (h : s.Inv) (hlen : s.state.pendingLen ≠ 0) :
    Inv { s with
      state := s.state.pop
      delivered := s.delivered ++ [s.state.pending s.state.pendingHead] } := by
  have hring : s.state.ring.dequeue 16 = some (s.state.pending s.state.pendingHead,
      { s.state.ring with head := s.state.pop.pendingHead, count := s.state.pop.pendingLen }) := if_neg hlen
  have hsound := h.ring.dequeue hring
  refine ⟨⟨hsound.head_lt, hsound.count_le, rfl⟩, ?_, h.next, h.idle, h.busy, h.asked, h.history⟩
  rw [h.fifo, RingBuffer.toList_dequeue h.ring hring, List.append_cons]
  rfl

/-- The delivery under way, if there is one, becomes one of before. -/
theorem Inv.close (h : s.Inv) {f : Delivered γ φ → Delivered γ φ}
    (hf : ∀ r, s.current = some r → (f r).number = r.number ∧ Over (f r)) :
    ((s.current.map f).toList ++ s.past).map (·.number) = (List.range s.count).reverse ∧
      ∀ r ∈ (s.current.map f).toList ++ s.past, Over r := by
  cases hc : s.current with
  | none => exact ⟨by rw [← h.history.1, hc]; rfl, h.history.2⟩
  | some o =>
    obtain ⟨hnumber, hover⟩ := hf o hc
    refine ⟨?_, List.forall_mem_cons.mpr ⟨hover, h.history.2⟩⟩
    rw [← h.history.1, hc]
    exact congrArg (· :: s.past.map (·.number)) hnumber

theorem Inv.step (h : s.Inv) {op : UpcallOp γ φ β} (hs : s.step withUserBytes initial op = some s') :
    s'.Inv := by
  cases op with simp only [Upcalls.step, install, enqueue, begin, beginException,
    requestReturn, requestReturnContext, requestContextRestore, takeRestoredContext] at hs
  | install entry stackTop exceptions deferWord =>
    split at hs
    · cases hs
    cases hs
    exact ⟨h.ring, h.fifo, h.next, h.idle, h.busy, h.asked, h.history⟩
  | enqueue payload =>
    split at hs
    · cases hs
    rename_i hfull
    cases hs
    have hroom : s.state.ring.count < 16 := Nat.lt_of_le_of_ne h.ring.count_le hfull
    refine ⟨⟨h.ring.head_lt, hroom, rfl⟩, ?_, h.next, h.idle, h.busy, h.asked, h.history⟩
    show s.accepted ++ [payload] = s.delivered ++ (s.state.ring.enqueue 16 payload).toList 16
    rw [RingBuffer.toList_enqueue h.ring hroom, h.fifo, List.append_assoc]
  | begin context fx =>
    split at hs
    · cases hs
    rename_i hlen
    obtain ⟨⟨u, d⟩, hevent, rfl⟩ := of_map_map hs
    have hd := h.deliver hevent
    simp only [beginEvent] at hevent
    split at hevent
    · cases hevent
    cases hevent
    exact hd.pop hlen
  | beginException context fx vector =>
    split at hs
    · obtain ⟨⟨u, d⟩, hevent, rfl⟩ := Option.map_eq_some_iff.mp hs
      exact h.deliver hevent
    · cases hs
  | requestReturn token =>
    split at hs
    · cases hs
    rename_i hguard
    cases hs
    refine ⟨h.ring, h.fifo, h.next, h.idle, h.busy, fun _ => ?_, h.history⟩
    simpa using (not_or.mp (not_or.mp hguard).2).2
  | requestReturnContext token context bytes =>
    split at hs
    · cases hs
    rename_i hguard
    split at hs
    · cases hs
    cases hs
    refine ⟨h.ring, h.fifo, h.next, ?_, ?_, fun _ => nofun, ?_, h.history.2⟩
    · intro hc
      have := h.idle (Option.map_eq_none_iff.mp hc)
      omega
    · intro r hr
      obtain ⟨o, ho, rfl⟩ := Option.map_eq_some_iff.mp hr
      obtain ⟨hactive, -, hrest⟩ := h.busy o ho
      exact ⟨hactive, rfl, hrest⟩
    · rw [← h.history.1]
      cases s.current <;> rfl
  | requestContextRestore fx context bytes =>
    split at hs
    · cases hs
    rename_i hguard
    split at hs
    · cases hs
    cases hs
    have hnone := h.current_none (by simpa using (not_or.mp hguard).1)
    refine ⟨h.ring, h.fifo, h.next, h.idle, ?_, fun _ => nofun, h.history⟩
    intro r hr
    rw [hnone] at hr
    cases hr
  | takeRestoredContext =>
    split at hs
    · obtain ⟨c, hsaved, rfl⟩ := of_map_map hs
      refine ⟨h.ring, h.fifo, h.next, fun _ => rfl, nofun, nofun, h.close ?_⟩
      intro r hr
      obtain ⟨-, hcontext, htoken, hrestored, hdropped⟩ := h.busy r hr
      simp only [saved, hsaved, Option.map_some, Option.some.injEq] at hcontext
      exact ⟨rfl, htoken, .inl ⟨by rw [hrestored, hcontext]; rfl, hdropped⟩⟩
    · cases hs
  | imageReplace =>
    cases hs
    refine ⟨⟨Nat.succ_pos 15, Nat.zero_le 16, rfl⟩, rfl, h.next, fun _ => rfl, nofun, nofun, h.close ?_⟩
    intro r hr
    obtain ⟨-, -, htoken, hrestored, -⟩ := h.busy r hr
    exact ⟨rfl, htoken, .inr ⟨hrestored, rfl⟩⟩

theorem inv_of_reachable (h : (runs γ withUserBytes initial).Reachable s) : s.Inv := by
  refine System.Reach.invariant ?_ (fun _ _ _ hi _ hs => hi.step hs) h
  rintro _ rfl
  exact ⟨⟨Nat.succ_pos 15, Nat.zero_le 16, rfl⟩, rfl, rfl, fun _ => rfl, nofun, nofun, rfl, nofun⟩

/-! ## Deliveries and returns -/

/-- How deliveries and returns go. -/
structure Orderly (withUserBytes : φ → β → Option φ) (s : Upcalls γ φ) : Prop where
  /-- Of the payloads since the image was replaced, the first ones are delivered, in order, and the others
      wait. -/
  fifo : s.accepted = s.delivered ++ s.state.ring.toList 16
  exclusive : s.current.isSome ∨ s.state.restorePending = true → ∀ context fx vector,
    s.state.begin context fx = none ∧ s.state.beginException context fx vector = none
  /-- Every delivery is under way or over, and one that is over was restored once, or dropped with its image.
      -/
  numbers : (s.current.toList ++ s.past).map (·.number) = (List.range s.count).reverse
  restored : ∀ r ∈ s.past, r.restored = [r.context] ∧ r.dropped = false ∨ r.restored = [] ∧ r.dropped = true
  /-- A return that was asked for happens, to the context of the delivery under way. -/
  returns : s.state.restorePending = true → ∃ u context, s.state.takeRestoredContext = some (u, context) ∧
    ∀ r, s.current = some r → context = r.context
  /-- The tokens of deliveries that are over are not accepted. -/
  refused : ∀ r ∈ s.past, s.count < r.number + 2 ^ 64 → s.state.requestReturn r.token = .error .invalidToken ∧
    ∀ context bytes, s.state.requestReturnContext withUserBytes r.token context bytes = .error .invalidToken

/-- Tokens less than a round apart are different. -/
theorem Inv.token_ne (h : s.Inv) {r : Delivered γ φ} (hr : r ∈ s.past)
    (hcount : s.count < r.number + 2 ^ 64) : r.token ≠ s.state.activeToken := by
  have htoken := (h.history.2 r hr).token
  cases hc : s.current with
  | none =>
    rw [h.idle hc]
    omega
  | some o =>
    obtain ⟨hactive, -, ho, -⟩ := h.busy o hc
    have hnumbers := h.history.1
    rw [hc] at hnumbers
    cases hn : s.count with rw [hn] at hnumbers
    | zero => cases hnumbers
    | succ n =>
      rw [List.range_succ, List.reverse_append] at hnumbers
      obtain ⟨hlast, hbefore⟩ : o.number = n ∧ s.past.map (·.number) = (List.range n).reverse :=
        List.cons.inj hnumbers
      have hmem : r.number ∈ (List.range n).reverse := hbefore ▸ List.mem_map_of_mem hr
      rw [List.mem_reverse, List.mem_range] at hmem
      omega

/-- **Upcalls are delivered and returned from in order**, whatever calls are made in whatever order, and
    between two replacements of the image nothing is lost. -/
theorem upcalls_orderly (h : (runs γ withUserBytes initial).Reachable s) : Orderly withUserBytes s := by
  have hinv := inv_of_reachable h
  refine ⟨hinv.fifo, ?_, hinv.history.1, fun r hr => (hinv.history.2 r hr).once, ?_, ?_⟩
  · intro hbusy context fx vector
    have hactive : s.state.activeToken ≠ 0 ∨ s.state.restorePending = true := by
      refine hbusy.imp_left fun hsome hidle => ?_
      rw [hinv.current_none hidle] at hsome
      cases hsome
    have hnone : ∀ payload, s.state.beginEvent context fx payload = none := fun payload =>
      if_pos (.inr (.inr hactive))
    simp [begin, beginException, hnone]
  · intro hpending
    obtain ⟨c, hc⟩ := Option.ne_none_iff_exists'.mp (hinv.asked hpending)
    refine ⟨_, (c, s.state.savedFxState), by rw [takeRestoredContext, if_pos hpending, hc]; rfl, ?_⟩
    intro r hr
    have hsaved := (hinv.busy r hr).2.1
    rw [saved, hc] at hsaved
    exact Option.some.inj hsaved
  · intro r hr hcount
    have hne := hinv.token_ne hr hcount
    exact ⟨if_pos (.inr (.inl hne)), fun context bytes => if_pos (.inr (.inl hne))⟩

/-- Two payloads, the first of which is delivered. -/
def firstOfTwo : List (UpcallOp Nat Nat Nat) :=
  [.install 1 1 true 0, .enqueue 7, .enqueue 8, .begin 10 20]

/-- The handler returns to another context, and the second payload is delivered. -/
theorem upcalls_orderly_twice : ∃ s, (runs Nat (fun _ bytes => some bytes) 0).Reachable s ∧
    s.delivered = [7, 8] ∧
    s.past.map (·.restored) = [[(11, 21)]] ∧ Orderly (fun (_ bytes : Nat) => some bytes) s := by
  obtain ⟨s, hs, hdelivered, hpast⟩ := System.reachable_of_exec
    (runs Nat (fun _ bytes => some bytes) 0) (new 0)
    (firstOfTwo ++ [.requestReturnContext 1 11 21, .takeRestoredContext, .begin 12 22])
    (fun s => s.delivered = [7, 8] ∧ s.past.map (·.restored) = [[(11, 21)]]) rfl (by decide +kernel)
  exact ⟨s, hs, hdelivered, hpast, upcalls_orderly hs⟩

/-- **Replacing the image loses upcalls**: of two payloads the second one is never delivered, and the context
    that the first one has interrupted is never restored. -/
theorem image_replace_drops : ∃ s s', (runs Nat (fun (_ bytes : Nat) => some bytes) 0).Reachable s ∧
    s.step (fun (_ bytes : Nat) => some bytes) 0 .imageReplace = some s' ∧ s.accepted = [7, 8] ∧
      s.delivered = [7] ∧
      s'.state.ring.toList 16 = [] ∧ s'.current = none ∧ s'.past.map (·.restored) = [[]] := by
  obtain ⟨s, hs, hp⟩ := System.reachable_of_exec (runs Nat (fun (_ bytes : Nat) => some bytes) 0)
    (new 0) firstOfTwo
    (fun s => (s.accepted = [7, 8] ∧ s.delivered = [7]) ∧
      (s.current.toList ++ s.past).map (·.restored) = [[]])
    rfl (by decide +kernel)
  obtain ⟨⟨haccepted, hdelivered⟩, hpast⟩ := hp
  refine ⟨s, _, hs, rfl, haccepted, hdelivered, rfl, rfl, ?_⟩
  rw [← hpast]
  cases s.current <;> rfl

end Upcalls

end Mnu.Task
