import Mnu.Syscall.Pipe

/-!
# `Mnu.Syscall.PipeInv` — what a pipe delivers, and whom it wakes

One inversion lemma (`step_cases`) says what a step does: an operation of the current thread (`Act`), a step
of its sleep call or of its wake loop (`Nap`), or scheduling. The contents follow from `Act` alone (`Flow`);
that no thread sleeps through what it waits for is `Sleep.Watch` with `Pending`, for which each operation that
changes the pipe has to put the waiters on its list.
-/

namespace Mnu.Syscall.Pipe

open Mnu.Lib Mnu.Task Function

variable {ι κ : Type} {l : Label ι} {call : Call} {w : Write}

/-! ## What a step can do -/

/-- A call that finds nothing to do. -/
def Blocked (p : PipeState) : Call → Prop
  | .read _ => p.data = [] ∧ p.writers ≠ 0
  | .write w => p.readers ≠ 0 ∧ w.count p = 0

/-- The write that a thread is in, before it is accepted. -/
def Prog.write : Prog → Option Write
  | .copyIn w => some w
  | .look (.write w) => some w
  | .upcall (.write w) => some w
  | .remove (.write w) => some w
  | .calling (.write w) => some w
  | .sleeping (.write w) => some w
  | .yielded (.write w) => some w
  | _ => none

/-- How many bytes a call has moved, by its answer. -/
def Answer.moved : Answer → Nat
  | .read bytes => bytes.length
  | .wrote count => count
  | .closed => 0
  | .error _ => 0

/-- The answer of a thread that has only wakeups left to do, or has returned. -/
def Prog.answered : Prog → Option Answer
  | .waking _ answer => some answer
  | .returned answer => some answer
  | _ => none

/-- How many bytes the answer of a thread speaks of. -/
def Prog.moved (p : Prog) : Nat := p.answered.elim 0 Answer.moved

/-- The place at which a call of `write_pipe` begins. -/
def Begins (p : Prog) : Prop := ∃ bytes complete nonblocking, p = startWrite bytes complete nonblocking

/-- Neither in a sleep call nor in a wake loop. -/
def Prog.plain : Prog → Bool
  | .sleeping _ => false
  | .waking _ _ => false
  | _ => true

/-- The place `p` may follow that of `id` without a change of the pipe. -/
structure Move (s : State ι κ) (id : ThreadId) (p : Prog) : Prop where
  awake : calls.asleep (s.prog id) = false
  list : calls.list (s.prog id) = []
  quiet : calls.list p = []
  waits : calls.waits p = true → ∃ call, s.prog id = .upcall call ∧ p = .calling call
  write : ∀ w, p.write = some w → Begins p ∨ (s.prog id).write = some w
  answer : ∀ answer, s.prog id = .waking [] answer → p = .returned answer
  kept : p.moved ≠ 0 → p.answered = (s.prog id).answered

/-- The operations of the thread `id`. -/
inductive Act (s : State ι κ) (id : ThreadId) : State ι κ → Prop where
  | move {p} : Move s id p → Act s id (s.setProg id p)
  | block {p call} : s.prog id = .look call → s.pipe = some p → Blocked p call →
      Act s id ({ s with pipe := some (p.subscribe id) }.setProg id (.upcall call))
  | accept {p w} : s.prog id = .look (.write w) → s.pipe = some p → w.count p ≠ 0 →
      Act s id (s.accept id p (w.tmp.take (w.count p)))
  | deliver {p r take} : s.prog id = .copy r take → s.pipe = some p → min take p.data.length ≠ 0 →
      Act s id (s.deliver id p (min take p.data.length))
  | remove {call e} : s.prog id = .remove call →
      Act s id ({ s with pipe := s.pipe.map (PipeState.unsubscribe id) }.setProg id (.returned (.error e)))
  | close {p writeEnd} : calls.away (s.prog id) = true → s.pipe = some p → Act s id (s.close id p writeEnd)

/-- The steps of its sleep call and of its wake loop. -/
inductive Nap [DecidableEq ι] (idle : Sleep.Idle ι) (s : State ι κ) (c : ι) (id : ThreadId) :
    State ι κ → Prop where
  | call {call sleep} : s.prog id = .calling call → Sleep.step idle s.sleep (.call c) = some sleep →
      Nap idle s c id ({ s with sleep := sleep }.setProg id (.sleeping call))
  | advance {call sleep} : s.prog id = .sleeping call → Sleep.step idle s.sleep (.advance c) = some sleep →
      Nap idle s c id { s with sleep := sleep }
  | leave {call l sleep} : s.prog id = .sleeping call →
      (l = .yield c ∨ l = .preempt c ∧ s.sleep.pc id = .outside) →
      Sleep.step idle s.sleep l = some sleep →
        Nap idle s c id ({ s with sleep := sleep }.setProg id (.yielded call))
  | wake {thread rest answer sleep} : s.prog id = .waking (thread :: rest) answer →
      Sleep.step idle s.sleep (.wake thread true) = some sleep →
      Nap idle s c id ({ s with sleep := sleep }.setProg id (.waking rest answer))

section Inversion

variable {s s' : State ι κ} {c : ι} {id : ThreadId} {hint : Hint} {call : Call}

/-- A thread that is not in its sleep call or wake loop goes on to a place where it does not wait. -/
theorem act_move {p q : Prog} (hprog : s.prog id = q) (hq : q.plain = true) (hquiet : calls.list p = [])
    (hwaits : calls.waits p = false) (hmoved : p.moved = 0)
    (hwrite : ∀ w, p.write = some w → Begins p ∨ q.write = some w) : Act s id (s.setProg id p) := by
  subst hprog
  refine .move ⟨?_, ?_, hquiet, ?_, hwrite, ?_, fun h => absurd hmoved h⟩
  · cases hp : s.prog id <;> rw [hp] at hq <;> first | rfl | cases hq
  · cases hp : s.prog id <;> rw [hp] at hq <;> first | rfl | cases hq
  · intro h
    rw [hwaits] at h
    cases h
  · intro answer h
    rw [h] at hq
    cases hq

theorem block_cases {p : PipeState} (hprog : s.prog id = .look call) (hpipe : s.pipe = some p)
    (hblocked : Blocked p call) : Act s id (s.block id p call hint) := by
  unfold State.block
  split
  · exact act_move hprog rfl rfl rfl rfl nofun
  · split
    · exact .block hprog hpipe hblocked
    · exact act_move hprog rfl rfl rfl rfl nofun

/-- What a look can lead to. -/
theorem look_cases (hprog : s.prog id = .look call) : Act s id (s.look id call hint) := by
  unfold State.look
  split
  · exact act_move hprog rfl rfl rfl rfl nofun
  · rename_i p hpipe
    cases call with
    | read r =>
      dsimp only
      split
      · rename_i hempty
        split
        · exact act_move hprog rfl rfl rfl rfl nofun
        · rename_i hwriters
          exact block_cases hprog hpipe ⟨hempty, hwriters⟩
      · exact act_move hprog rfl rfl rfl rfl nofun
    | write w =>
      dsimp only
      split
      · exact act_move hprog rfl rfl rfl rfl nofun
      · rename_i hreaders
        split
        · rename_i hcount
          split
          · exact .accept hprog hpipe hcount
          · exact act_move hprog rfl rfl rfl rfl nofun
        · rename_i hcount
          exact block_cases hprog hpipe ⟨hreaders, not_not.mp hcount⟩

/-- What a copy can lead to. -/
theorem copy_cases {r : Read} {take : Nat} (hprog : s.prog id = .copy r take) :
    Act s id (s.copy id r take hint) := by
  unfold State.copy
  split
  · exact act_move hprog rfl rfl rfl rfl nofun
  · split
    · exact act_move hprog rfl rfl rfl rfl nofun
    · rename_i p hpipe
      dsimp only
      split
      · exact act_move hprog rfl rfl rfl rfl nofun
      · rename_i hcount
        split
        · exact act_move hprog rfl rfl rfl rfl nofun
        · exact .deliver hprog hpipe hcount

variable [DecidableEq ι] {idle : Sleep.Idle ι}

theorem own_cases (h : own idle s c id hint = some s') : Act s id s' ∨ Nap idle s c id s' := by
  unfold own at h
  generalize hprog : s.prog id = p at h
  cases p with
  | user | returned answer =>
    cases h
  | copyIn w =>
    dsimp only at h
    left
    split at h
    · cases h
      exact act_move hprog rfl rfl rfl rfl nofun
    · split at h
      · cases h
        exact act_move hprog rfl rfl rfl rfl nofun
      · cases h
        exact act_move hprog rfl rfl rfl rfl fun v hv => .inr hv
  | look call =>
    cases h
    exact .inl (look_cases hprog)
  | prepare r take =>
    dsimp only at h
    left
    split at h
    · cases h
      exact act_move hprog rfl rfl rfl rfl nofun
    · cases h
      exact act_move hprog rfl rfl rfl rfl nofun
  | copy r take =>
    cases h
    exact .inl (copy_cases hprog)
  | upcall call =>
    cases h
    left
    split
    · exact act_move hprog rfl rfl rfl rfl fun w hw => .inr (by cases call <;> exact hw)
    · refine .move ⟨by rw [hprog]; rfl, by rw [hprog]; rfl, rfl, fun _ => ⟨call, hprog, rfl⟩,
        ?_, fun a h0 => ?_, fun h0 => absurd rfl h0⟩
      · rw [hprog]
        exact fun w hw => .inr (by cases call <;> exact hw)
      · rw [hprog] at h0
        cases h0
  | remove call =>
    cases h
    exact .inl (.remove hprog)
  | calling call =>
    obtain ⟨sleep, hs, rfl⟩ := of_map_map h
    exact .inr (.call hprog hs)
  | sleeping call =>
    dsimp only at h
    split at h
    · rename_i hpc
      obtain ⟨sleep, hs, rfl⟩ := of_map_map h
      exact .inr (.leave hprog (.inr ⟨rfl, hpc⟩) hs)
    · obtain ⟨sleep, hs, rfl⟩ := of_map_map h
      exact .inr (.leave hprog (.inl rfl) hs)
    · obtain ⟨sleep, hs, rfl⟩ := Option.map_eq_some_iff.mp h
      exact .inr (.advance hprog hs)
  | yielded call =>
    cases h
    left
    exact act_move hprog rfl rfl rfl rfl fun w hw => .inr (by cases call <;> exact hw)
  | waking rest answer =>
    cases rest with
    | nil =>
      cases h
      refine .inl
        (.move ⟨by rw [hprog]; rfl, by rw [hprog]; rfl, rfl, nofun, nofun, fun a h0 => ?_, fun _ => ?_⟩)
      · rw [hprog] at h0
        cases h0
        rfl
      · rw [hprog]
        rfl
    | cons thread rest =>
      obtain ⟨sleep, hs, rfl⟩ := of_map_map h
      exact .inr (.wake hprog hs)

omit [DecidableEq ι] in
theorem starting_eq (h : starting idle s c = some id) :
    s.sleep.cpu c = some id ∧ calls.away (s.prog id) = true ∧ id ≠ idle.thread c := by
  obtain ⟨hc, hp⟩ := Option.filter_eq_some_iff.mp h
  exact ⟨hc, of_decide_eq_true hp⟩

/-- **What a step can do.** -/
theorem step_cases (h : step idle s l = some s') :
    (∃ c id, s.sleep.cpu c = some id ∧ (calls.away (s.prog id) = true → id ≠ idle.thread c) ∧
      (Act s id s' ∨ Nap idle s c id s')) ∨
      ∃ l sleep, admissible s l = true ∧ Sleep.step idle s.sleep l = some sleep ∧
        s' = { s with sleep := sleep } := by
  have hstart : ∀ c id, starting idle s c = some id → Act s id s' →
      ∃ c id, s.sleep.cpu c = some id ∧ (calls.away (s.prog id) = true → id ≠ idle.thread c) ∧
        (Act s id s' ∨ Nap idle s c id s') := by
    intro c id hst hact
    obtain ⟨hc, _, hne⟩ := starting_eq hst
    exact ⟨c, id, hc, fun _ => hne, .inl hact⟩
  have hmove : ∀ c id p, starting idle s c = some id → calls.list p = [] → calls.waits p = false →
      p.moved = 0 → (∀ w, p.write = some w → Begins p) → Act s id (s.setProg id p) := by
    intro c id p hst hquiet hwaits hmoved hwrite
    obtain ⟨_, haway, _⟩ := starting_eq hst
    refine act_move rfl ?_ hquiet hwaits hmoved fun w hw => .inl (hwrite w hw)
    cases hp : s.prog id <;> rw [hp] at haway <;> first | rfl | cases haway
  cases l with
  | read c len nonblocking =>
    obtain ⟨id, hst, rfl⟩ := Option.map_eq_some_iff.mp h
    refine .inl (hstart c id hst ?_)
    split
    · exact hmove c id _ hst rfl rfl rfl nofun
    · exact hmove c id _ hst rfl rfl rfl nofun
  | write c bytes complete nonblocking =>
    obtain ⟨id, hst, rfl⟩ := Option.map_eq_some_iff.mp h
    refine .inl
      (hstart c id hst (hmove c id _ hst ?_ ?_ ?_ fun _ _ => ⟨bytes, complete, nonblocking, rfl⟩)) <;>
      unfold startWrite <;> split
    all_goals first | rfl | split <;> rfl
  | close c writeEnd =>
    obtain ⟨id, hst, h⟩ := Option.bind_eq_some_iff.mp h
    obtain ⟨p, hpipe, rfl⟩ := Option.map_eq_some_iff.mp h
    exact .inl (hstart c id hst (.close (starting_eq hst).2.1 hpipe))
  | own c hint =>
    obtain ⟨id, hc, hown⟩ := Option.bind_eq_some_iff.mp h
    refine .inl ⟨c, id, hc, fun haway => ?_, own_cases hown⟩
    rw [own] at hown
    cases hp : s.prog id <;> rw [hp] at haway hown <;> first | cases hown; done | cases haway
  | sched l =>
    simp only [step] at h
    split at h
    · obtain ⟨sleep, hs, rfl⟩ := Option.map_eq_some_iff.mp h
      exact .inr ⟨l, sleep, ‹_›, hs, rfl⟩
    · cases h

end Inversion

/-! ## The bytes -/

/-- What was accepted and not yet delivered is in the pipe, in order, and it fits. -/
structure Flow (s : State ι κ) : Prop where
  fifo : ∃ rest, s.accepted.flatten = s.delivered.flatten ++ rest ∧ ∀ p, s.pipe = some p → p.data = rest
  capacity : ∀ p, s.pipe = some p → p.data.length ≤ pipeBufferCap

/-- A write that is under way has something to write. -/
def Filled (s : State ι κ) : Prop := ∀ id w, (s.prog id).write = some w → w.tmp ≠ []

theorem Write.count_le (w : Write) {p : PipeState} (h : p.data.length ≤ pipeBufferCap) :
    p.data.length + (w.tmp.take (w.count p)).length ≤ pipeBufferCap := by
  rw [List.length_take]
  unfold Write.count
  dsimp only
  split
  · split <;> omega
  · omega

section Bytes

variable {s s' : State ι κ} {id : ThreadId} {p : Prog}

/-- A step that leaves the bytes and the histories alone. -/
theorem Flow.frame (h : Flow s) (haccepted : s'.accepted = s.accepted)
    (hdelivered : s'.delivered = s.delivered)
    (hpipe : ∀ p', s'.pipe = some p' → ∃ p, s.pipe = some p ∧ p'.data = p.data) : Flow s' := by
  obtain ⟨rest, hrest, hdata⟩ := h.fifo
  refine ⟨⟨rest, by rw [haccepted, hdelivered]; exact hrest, fun p' hp' => ?_⟩, fun p' hp' => ?_⟩
  · obtain ⟨p, hp, heq⟩ := hpipe p' hp'
    rw [heq]
    exact hdata p hp
  · obtain ⟨p, hp, heq⟩ := hpipe p' hp'
    rw [heq]
    exact h.capacity p hp

/-- **The bytes are kept in order.** -/
theorem flow_act (h : Flow s) (hact : Act s id s') : Flow s' := by
  cases hact with
  | move _ => exact h.frame rfl rfl fun p hp => ⟨p, hp, rfl⟩
  | @block p call hprog hpipe hblocked =>
    refine h.frame rfl rfl fun p' hp' => ⟨p, hpipe, ?_⟩
    cases hp'
    rfl
  | @accept p w hprog hpipe hcount =>
    obtain ⟨rest, hrest, hdata⟩ := h.fifo
    refine ⟨⟨rest ++ w.tmp.take (w.count p), ?_, ?_⟩, ?_⟩
    · show (s.accepted ++ [w.tmp.take (w.count p)]).flatten =
        s.delivered.flatten ++ (rest ++ w.tmp.take (w.count p))
      rw [List.flatten_append, hrest, List.append_assoc]
      simp
    · rintro _ ⟨⟩
      show p.data ++ w.tmp.take (w.count p) = rest ++ w.tmp.take (w.count p)
      rw [hdata p hpipe]
    · rintro _ ⟨⟩
      show (p.data ++ w.tmp.take (w.count p)).length ≤ pipeBufferCap
      rw [List.length_append]
      exact w.count_le (h.capacity p hpipe)
  | @deliver p r take hprog hpipe hcount =>
    obtain ⟨rest, hrest, hdata⟩ := h.fifo
    refine ⟨⟨p.data.drop (min take p.data.length), ?_, ?_⟩, ?_⟩
    · show s.accepted.flatten = (s.delivered ++ [p.data.take (min take p.data.length)]).flatten ++ _
      rw [List.flatten_append, List.flatten_singleton, List.append_assoc, List.take_append_drop,
        hrest, hdata p hpipe]
    · rintro _ ⟨⟩
      rfl
    · rintro _ ⟨⟩
      show (p.data.drop (min take p.data.length)).length ≤ pipeBufferCap
      rw [List.length_drop]
      exact (Nat.sub_le _ _).trans (h.capacity p hpipe)
  | remove hprog =>
    refine h.frame rfl rfl fun p' hp' => ?_
    obtain ⟨p, hp, rfl⟩ := Option.map_eq_some_iff.mp hp'
    exact ⟨p, hp, rfl⟩
  | @close p writeEnd haway hpipe =>
    refine h.frame rfl rfl fun p' hp' => ⟨p, hpipe, ?_⟩
    obtain ⟨_, hp'⟩ := Option.ite_none_left_eq_some.mp hp'
    cases hp'
    rfl

theorem tmp_of_begins (hbegins : Begins p) (hw : p.write = some w) : w.tmp ≠ [] := by
  obtain ⟨bytes, complete, nonblocking, rfl⟩ := hbegins
  unfold startWrite at hw
  split at hw
  · cases hw
  split at hw
  · cases hw
  rename_i hne
  cases hw
  simpa [pipeBufferCap] using hne

/-- The write of a thread is that of its last call. -/
def SameWrites (s s' : State ι κ) : Prop :=
  ∀ k w, (s'.prog k).write = some w → Begins (s'.prog k) ∨ (s.prog k).write = some w

theorem sameWrites_setProg (hprog : s'.prog = update s.prog id p)
    (hp : ∀ w, p.write = some w → Begins p ∨ (s.prog id).write = some w) : SameWrites s s' := by
  intro k w hw
  rw [hprog, update_apply] at hw ⊢
  split at hw
  · rename_i heq
    rw [if_pos heq, heq]
    exact hp w hw
  · exact .inr hw

theorem sameWrites_act (hact : Act s id s') : SameWrites s s' := by
  cases hact with
  | move hmove => exact sameWrites_setProg rfl hmove.write
  | @block p call hprog hpipe hblocked =>
    refine sameWrites_setProg rfl fun w hw => .inr ?_
    rw [hprog]
    cases call <;> exact hw
  | accept | deliver | remove | close => exact sameWrites_setProg rfl nofun

theorem Filled.frame (h : Filled s) (hsame : SameWrites s s') : Filled s' := by
  intro k w hw
  rcases hsame k w hw with hbegins | hold
  · exact tmp_of_begins hbegins hw
  · exact h k w hold

end Bytes

/-! ## The waiters -/

/-- Nothing has happened yet that the thread waits for, and it will hear of it. -/
def Pending (s : State ι κ) (id : ThreadId) : Prop :=
  ∃ call p, (s.prog id).waitsFor = some call ∧ s.pipe = some p ∧ id ∈ p.waiters ∧ Blocked p call

section Waiting

variable {s s' : State ι κ} {c : ι} {id : ThreadId} {idle : Sleep.Idle ι} {p : PipeState}
  (hw : Sleep.Watch idle calls s.sleep s.prog (Pending s)) (hc : s.sleep.cpu c = some id)

theorem Pending.mem_waiters (h : Pending s id) (hp : s.pipe = some p) : id ∈ p.waiters := by
  obtain ⟨_, p₀, _, hp₀, hin, _⟩ := h
  cases hp.symm.trans hp₀
  exact hin

theorem mem_subscribe {k : ThreadId} : k ∈ (p.subscribe id).waiters ↔ k = id ∨ k ∈ p.waiters := by
  unfold PipeState.subscribe
  dsimp only
  split
  · exact ⟨.inr, fun h => h.elim (fun h0 => h0 ▸ ‹_›) fun h0 => h0⟩
  · rw [List.mem_append, List.mem_singleton, or_comm]

theorem blocked_congr {p' : PipeState} (hdata : p'.data = p.data) (hreaders : p'.readers = p.readers)
    (hwriters : p'.writers = p.writers) (h : Blocked p call) : Blocked p' call := by
  cases call with
  | read r =>
    rw [Blocked, hdata, hwriters]
    exact h
  | write w =>
    rw [Blocked, hreaders, Write.count, hdata]
    exact h

/-- The place of the thread of an operation: it is not in its sleep call, and nobody is on its list. -/
theorem Act.place (h : Act s id s') : calls.asleep (s.prog id) = false ∧ calls.list (s.prog id) = [] := by
  cases h with
  | move hmove => exact ⟨hmove.awake, hmove.list⟩
  | block hprog | accept hprog | deliver hprog | remove hprog => rw [hprog]; exact ⟨rfl, rfl⟩
  | close haway => cases hp : s.prog id <;> rw [hp] at haway <;> first | exact ⟨rfl, rfl⟩ | cases haway

theorem Act.sleep_eq (h : Act s id s') : s'.sleep = s.sleep := by
  cases h <;> rfl

include hw hc in
/-- **The operations keep the watch**: whoever changes what others wait for has them on its list. -/
theorem watch_act
    (huser : calls.away (s.prog id) = true → id ≠ idle.thread c) (hact : Act s id s') :
    Sleep.Watch idle calls s'.sleep s'.prog (Pending s') := by
  obtain ⟨hasleep, hnil⟩ := hact.place
  have hidle : ∀ {p : Prog}, calls.away (s.prog id) = true → calls.away p = true ∨ id ≠ idle.thread c :=
    fun haway => .inr (huser haway)
  have hlist : ∀ {p : Prog}, ∀ k ∈ calls.list (s.prog id), k ∈ calls.list p := by
    rw [hnil]
    exact nofun
  rw [hact.sleep_eq]
  -- a thread whose place is not touched still waits, if its pipe is still as it was for it
  have hkeep : ∀ (t : State ι κ) (p p' : PipeState) (q : Prog), t.prog =
    update s.prog id q → s.pipe = some p →
      t.pipe = some p' → p'.data = p.data → p'.readers = p.readers → p'.writers = p.writers →
      ∀ k, k ≠ id → (k ∈ p.waiters → k ∈ p'.waiters) → Pending s k → Pending t k := by
    rintro t p p' q hprog hp hp' hdata hreaders hwriters k hne hwaiters ⟨call, p₀, hcall, hp₀, hin, hblocked⟩
    cases hp.symm.trans hp₀
    refine ⟨call, p', ?_, hp', hwaiters hin, blocked_congr hdata hreaders hwriters hblocked⟩
    rw [hprog, update_of_ne hne]
    exact hcall
  cases hact with
  | @move q hmove =>
    refine hw.act hc rfl hidle hasleep hlist (fun k hne _ h0 => .inl ?_) fun hwaits => .inr ?_
    · have ⟨_, p, _, hp, _⟩ := h0
      exact hkeep (s.setProg id q) p p q rfl hp hp rfl rfl rfl k hne (fun h1 => h1) h0
    · obtain ⟨call, hprog, rfl⟩ := hmove.waits hwaits
      rw [hprog]
      refine ⟨rfl, ?_, fun _ => rfl⟩
      rintro ⟨call', p, hcall, hp, hin, hblocked⟩
      rw [hprog] at hcall
      cases hcall
      refine ⟨call, p, ?_, hp, hin, hblocked⟩
      show (update s.prog id (.calling call) id).waitsFor = some call
      rw [update_self]
      rfl
  | @block p call hprog hpipe hblocked =>
    refine hw.act hc rfl hidle hasleep hlist (fun k hne _ h0 => .inl ?_) fun _ => .inl ?_
    · refine hkeep _ p (p.subscribe id) (.upcall call) rfl hpipe rfl rfl rfl rfl k hne ?_ h0
      exact fun h1 => mem_subscribe.mpr (.inr h1)
    · refine ⟨call, p.subscribe id, ?_, rfl, mem_subscribe.mpr (.inl rfl), hblocked⟩
      show (update s.prog id (.upcall call) id).waitsFor = some call
      rw [update_self]
      rfl
  | accept hprog hpipe hcount | deliver hprog hpipe hcount =>
    refine hw.act hc rfl hidle hasleep hlist (fun k hne _ h0 => .inr ?_) nofun
    exact List.mem_filter.mpr ⟨h0.mem_waiters hpipe, by simpa using hne⟩
  | @remove call e hprog =>
    refine hw.act hc rfl hidle hasleep hlist (fun k hne _ h0 => .inl ?_) nofun
    have ⟨_, p, _, hp, _⟩ := h0
    refine hkeep _ p (p.unsubscribe id) (.returned (.error e)) rfl hp ?_ rfl rfl rfl k hne ?_ h0
    · show s.pipe.map (PipeState.unsubscribe id) = some (p.unsubscribe id)
      rw [hp]
      rfl
    · exact fun h1 => List.mem_filter.mpr ⟨h1, by simpa using hne⟩
  | @close p writeEnd haway hpipe =>
    exact hw.act hc rfl hidle hasleep hlist (fun k _ _ h0 => .inr (h0.mem_waiters hpipe)) nofun

variable [DecidableEq ι]

include hw hc in
/-- **So do the steps of a sleep call and of a wake loop.** -/
theorem watch_nap
    (hnap : Nap idle s c id s') : Sleep.Watch idle calls s'.sleep s'.prog (Pending s') := by
  -- the pipe stays, and `id` still waits for the same call, if it waits
  have hkeep : ∀ {sleep : Sleep.State ι κ} {p : Prog},
      (∀ call, (s.prog id).waitsFor = some call → p.waitsFor = some call) → ∀ k, Pending s k →
      Pending ({ s with sleep := sleep }.setProg id p) k := by
    rintro sleep p hp k ⟨call, q, hcall, hrest⟩
    refine ⟨call, q, ?_, hrest⟩
    show (update s.prog id p k).waitsFor = some call
    rw [update_apply]
    split
    · rename_i heq
      rw [heq] at hcall
      exact hp call hcall
    · exact hcall
  cases hnap with
  | call hp hs =>
    refine hw.call hc hp rfl hs rfl rfl rfl (hkeep ?_)
    rw [hp]
    exact fun _ h0 => h0
  | advance hp hs => exact hw.advance hc hp rfl rfl hs
  | leave hp hl hs =>
    refine hw.leave hc hp rfl hl hs rfl rfl (hkeep ?_)
    rw [hp]
    exact fun _ h0 => h0
  | wake hp hs =>
    refine hw.wake hc hp rfl rfl hs (.inl rfl) (fun _ => List.mem_cons.mp) rfl rfl fun k _ => hkeep ?_ k
    rw [hp]
    exact nofun

end Waiting

/-! ## The invariant along runs -/

/-- The invariant of bytes and waiters. -/
structure Inv (idle : Sleep.Idle ι) (s : State ι κ) : Prop where
  flow : Flow s
  filled : Filled s
  watch : Sleep.Watch idle calls s.sleep s.prog (Pending s)

section Runs

variable {idle : Sleep.Idle ι} {s s' : State ι κ} {c : ι} {id : ThreadId}

theorem inv_start (h : Start idle s) : Inv idle s := by
  refine ⟨⟨⟨[], ?_, ?_⟩, ?_⟩, ?_, .start h.sleep fun id => by rw [h.prog]; rfl⟩
  · rw [h.accepted, h.delivered]
    rfl
  · intro p hp
    rw [h.pipe] at hp
    cases hp
    rfl
  · intro p hp
    rw [h.pipe] at hp
    cases hp
    exact Nat.zero_le _
  · intro id w hw
    rw [h.prog] at hw
    cases hw

variable [DecidableEq ι]

/-- The steps of a sleep call and of a wake loop change nothing but the place of their thread. -/
theorem Nap.same (h : Nap idle s c id s') : s'.pipe = s.pipe ∧ s'.accepted = s.accepted ∧
    s'.delivered = s.delivered ∧ (∀ k, k ≠ id → s'.prog k = s.prog k) ∧ SameWrites s s' := by
  have hself : ∀ {t : State ι κ} {p q : Prog}, t.prog = update s.prog id p → s.prog id = q →
      (∀ w, p.write = some w → q.write = some w) → SameWrites s t := by
    intro t p q hprog hq hpq
    exact sameWrites_setProg hprog fun w hw => .inr (by rw [hq]; exact hpq w hw)
  cases h with
  | @call call _ hp _ =>
    refine ⟨rfl, rfl, rfl, fun k hne => update_of_ne hne _ _, hself rfl hp ?_⟩
    cases call <;> exact fun _ hw => hw
  | advance hp _ => exact ⟨rfl, rfl, rfl, fun _ _ => rfl, fun _ _ hw => .inr hw⟩
  | @leave call _ _ hp _ _ =>
    refine ⟨rfl, rfl, rfl, fun k hne => update_of_ne hne _ _, hself rfl hp ?_⟩
    cases call <;> exact fun _ h0 => h0
  | wake hp _ => exact ⟨rfl, rfl, rfl, fun k hne => update_of_ne hne _ _, hself rfl hp nofun⟩

/-- **Every step keeps the invariant.** -/
theorem inv_step (h : Inv idle s) (hs : step idle s l = some s') : Inv idle s' := by
  rcases step_cases hs with ⟨c, id, hc, huser, hact | hnap⟩ | ⟨l', sleep, hl, hs', rfl⟩
  · exact ⟨flow_act h.flow hact, h.filled.frame (sameWrites_act hact), watch_act h.watch hc huser hact⟩
  · obtain ⟨hpipe, haccepted, hdelivered, _, hsame⟩ := hnap.same
    have hflow := h.flow.frame haccepted hdelivered fun p hp => ⟨p, hpipe ▸ hp, rfl⟩
    exact ⟨hflow, h.filled.frame hsame, watch_nap h.watch hc hnap⟩
  · refine ⟨h.flow.frame rfl rfl fun p hp => ⟨p, hp, rfl⟩, h.filled, h.watch.sched hs' ?_ ?_⟩
    · intro k hk
      cases l' <;> first | exact hk | cases hl
    · intro c k hcase hk
      rcases hcase with rfl | rfl
      · cases hl
      · simpa [admissible, hk] using hl

theorem inv_reachable (h : (pipe idle).Reachable s) : Inv idle s := by
  refine System.Reach.invariant ?_ ?_ h
  · intro s hs
    exact inv_start hs
  · intro s l s' hi _ hs
    exact inv_step hi hs

end Runs

/-! ## Results -/

section Results

variable {s s' : State ι κ} {id : ThreadId} {l : Label ι} {w : Write}

variable [DecidableEq ι] {idle : Sleep.Idle ι} {c : ι}

end Results

/-! ## A run -/

end Mnu.Syscall.Pipe
