import Mnu.Lib.Run
import Mnu.Lib.Update

/-!
# `Mnu.Mem.TlbRendezvous` — full-flush requests that merge in per-CPU counters

The ledger of `tlb_rendezvous.rs`: a sequence number, and for every CPU the newest generation requested of it
and the newest one it acknowledged. Any number of publishers and of services run at once, and each atomic
access is a step of its own: a publisher takes its generation, then stores it CPU by CPU with `fetch_max`,
then polls CPU by CPU; a service loads the request, compares it with the acknowledgement, flushes, and
acknowledges what it *loaded*, not what is requested by then.

Time is the only thing added to the code: a clock that dates the page-table edits of every publication and the
last full flush that each CPU began. The invariant is about dates: whoever acknowledged generation `g`, or is
flushing for a generation from `g` on, began a flush after the edits of `g` (`Dated`). It holds because a
generation from `g` on can be loaded only after `g` was taken, and the edits come before that.
-/

namespace Mnu.Mem.TlbRendezvous

open Mnu.Lib Function

/-! ## The ledger -/

/-- Why a request is refused. -/
inductive Error where
  | invalidCpu
  | exhausted
  deriving DecidableEq, Repr

/-- Why a service fails. -/
inductive ServiceError where
  | invalidCpu
  | flush
  deriving DecidableEq, Repr

/-- `Rendezvous`: the last generation, and what each CPU was asked and has done. -/
structure Rendezvous (CPUS : Nat) where
  sequence : Nat
  requested : Fin CPUS → Nat
  completed : Fin CPUS → Nat

/-- `new`. -/
def new (CPUS : Nat) : Rendezvous CPUS := ⟨0, fun _ => 0, fun _ => 0⟩

/-- `value.checked_add(1)` on a `u64`. -/
def checkedAdd (value : Nat) : Option Nat := if value + 1 < 2 ^ 64 then some (value + 1) else none

/-- `targets & (1u64 << cpu) != 0`. -/
def wants (targets : BitVec 64) (cpu : Nat) : Bool := targets &&& (1#64 <<< cpu) != 0#64

/-- The head of `publish`: the generation of the request and the sequence number after it. -/
def openRound (CPUS : Nat) (targets : BitVec 64) (sequence : Nat) : Except Error (Nat × Nat) :=
  if CPUS < 64 ∧ targets >>> CPUS ≠ 0#64 then .error .invalidCpu
  else if targets = 0#64 then .ok (0, sequence)
  else
    match checkedAdd sequence with
    | none => .error .exhausted
    | some value => .ok (value, value)

variable {CPUS : Nat} {targets : BitVec 64}

/-- `self.requested[cpu].fetch_max(generation)`, one round of the loop of `publish`. -/
def Rendezvous.request (r : Rendezvous CPUS) (targets : BitVec 64) (cpu : Fin CPUS) (generation : Nat) :
    Rendezvous CPUS :=
  if wants targets cpu then
    { r with requested := update r.requested cpu (max (r.requested cpu) generation) }
  else r

/-- `self.completed[cpu].fetch_max(generation)`. -/
def Rendezvous.acknowledge (r : Rendezvous CPUS) (cpu : Fin CPUS) (generation : Nat) : Rendezvous CPUS :=
  { r with completed := update r.completed cpu (max (r.completed cpu) generation) }

/-! ## Publishers and services as machines -/

/-- Where a publisher is. The CPU of `storing` and `polling` is the one its loop comes to next. -/
inductive Stage where
  /-- The page tables are edited, `publish` is not yet called. -/
  | edited
  | failed (e : Error)
  | storing (generation cpu : Nat)
  | published (generation : Nat)
  | polling (generation cpu : Nat)
  /-- `complete` returned. -/
  | answered (generation : Nat) (complete : Bool)
  deriving DecidableEq, Repr

/-- A publication under way. -/
structure Publisher where
  targets : BitVec 64
  editedAt : Nat
  stage : Stage
  deriving DecidableEq, Repr

variable {q : Publisher} {stage : Stage}

/-- Where a call of `service` is. -/
inductive Service (CPUS : Nat) where
  | entered (cpu : Fin CPUS)
  | loaded (cpu : Fin CPUS) (generation : Nat)
  /-- The acknowledgement was older than the request. -/
  | stale (cpu : Fin CPUS) (generation : Nat)
  | flushing (cpu : Fin CPUS) (generation : Nat)
  | returned (result : Except ServiceError Bool)

/-- The ledger, and all who work on it. -/
structure State (CPUS : Nat) where
  ledger : Rendezvous CPUS
  publishers : Nat → Option Publisher
  services : Nat → Option (Service CPUS)
  clock : Nat
  lastFlush : Fin CPUS → Nat

/-- A step of a publisher or of a service. -/
inductive Label where
  /-- Page tables are edited for a publication to these targets. -/
  | edit (i : Nat) (targets : BitVec 64)
  /-- The next atomic access of publisher `i`. -/
  | publisher (i : Nat)
  /-- A call of `service` for a CPU, from an interrupt, a lock waiter or a poller. -/
  | enter (j cpu : Nat)
  /-- The next atomic access of service `j`; out of the flush, its success. -/
  | service (j : Nat)
  | flushFails (j : Nat)
  deriving DecidableEq, Repr

/-- A publisher goes on. -/
def State.setStage (s : State CPUS) (i : Nat) (p : Publisher) (stage : Stage) : State CPUS :=
  { s with publishers := update s.publishers i (some { p with stage := stage }) }

/-- A service goes on. -/
def State.setService (s : State CPUS) (j : Nat) (v : Service CPUS) : State CPUS :=
  { s with services := update s.services j (some v) }

/-- The next atomic access of a publisher. -/
def publisherStep (s : State CPUS) (i : Nat) (p : Publisher) : Option (State CPUS) :=
  match p.stage with
  | .edited =>
    match openRound CPUS p.targets s.ledger.sequence with
    | .error e => some (s.setStage i p (.failed e))
    | .ok (generation, sequence) =>
      some ({ s with ledger := { s.ledger with sequence := sequence } }.setStage i p (.storing generation 0))
  | .failed _ => none
  | .storing generation cpu =>
    if h : cpu < CPUS then
      some ({ s with ledger := s.ledger.request p.targets ⟨cpu, h⟩ generation }.setStage i p
        (.storing generation (cpu + 1)))
    else some (s.setStage i p (.published generation))
  | .published generation => some (s.setStage i p (.polling generation 0))
  | .polling generation cpu =>
    if h : cpu < CPUS then
      -- `all` stops at the first CPU that is targeted and behind
      if !wants p.targets cpu || decide (generation ≤ s.ledger.completed ⟨cpu, h⟩) then
        some (s.setStage i p (.polling generation (cpu + 1)))
      else some (s.setStage i p (.answered generation false))
    else some (s.setStage i p (.answered generation true))
  | .answered generation _ => some (s.setStage i p (.polling generation 0))

/-- The next atomic access of a service. -/
def serviceStep (s : State CPUS) (j : Nat) : Service CPUS → Option (State CPUS)
  | .entered cpu => some (s.setService j (.loaded cpu (s.ledger.requested cpu)))
  | .loaded cpu generation =>
    if generation ≤ s.ledger.completed cpu then some (s.setService j (.returned (.ok false)))
    else some (s.setService j (.stale cpu generation))
  | .stale cpu generation =>
    some ({ s with lastFlush := update s.lastFlush cpu s.clock, clock := s.clock + 1 }.setService j
      (.flushing cpu generation))
  | .flushing cpu generation =>
    some ({ s with ledger := s.ledger.acknowledge cpu generation }.setService j (.returned (.ok true)))
  | .returned _ => none

/-- One access to the ledger, or a flush. -/
def step (s : State CPUS) : Label → Option (State CPUS)
  | .edit i targets =>
    match s.publishers i with
    | some _ => none
    | none => some ({ s with clock := s.clock + 1 }.setStage i ⟨targets, s.clock, .edited⟩ .edited)
  | .publisher i => (s.publishers i).bind (publisherStep s i)
  | .enter j cpu =>
    match s.services j with
    | some _ => none
    | none =>
      if h : cpu < CPUS then some (s.setService j (.entered ⟨cpu, h⟩))
      else some (s.setService j (.returned (.error .invalidCpu)))
  | .service j => (s.services j).bind (serviceStep s j)
  | .flushFails j =>
    match s.services j with
    | some (.flushing _ _) => some (s.setService j (.returned (.error .flush)))
    | _ => none

/-- Boot: a new ledger, nobody at work. -/
def initial (CPUS : Nat) : State CPUS := ⟨new CPUS, fun _ => none, fun _ => none, 0, fun _ => 0⟩

/-- The rendezvous as a system. -/
def rendezvous (CPUS : Nat) : System (State CPUS) Label where
  init s := s = initial CPUS
  step := step

/-! ## What the dates say -/

/-- Everything that the page tables were edited for by `p` is gone from the CPU's translations: it began a
    full flush after the edits. -/
def FlushedFor (s : State CPUS) (p : Publisher) (cpu : Fin CPUS) : Prop := p.editedAt < s.lastFlush cpu

/-- The generation a publisher has taken. -/
def Stage.generation : Stage → Option Nat
  | .edited => none
  | .failed _ => none
  | .storing g _ => some g
  | .published g => some g
  | .polling g _ => some g
  | .answered g _ => some g

/-- The generation that a running service has loaded. -/
def Service.generation : Service CPUS → Option Nat
  | .entered _ => none
  | .loaded _ g => some g
  | .stale _ g => some g
  | .flushing _ g => some g
  | .returned _ => none

/-- A generation was taken for a valid set of targets, it is old, and it is dated: who acknowledged it, or is
    flushing for a generation from it on, began a flush after the edits. -/
structure Dated (s : State CPUS) (p : Publisher) (g : Nat) : Prop where
  valid : CPUS < 64 → p.targets >>> CPUS = 0#64
  taken : p.targets ≠ 0#64 → 0 < g
  old : g ≤ s.ledger.sequence
  acknowledged : ∀ cpu, 0 < g → g ≤ s.ledger.completed cpu → FlushedFor s p cpu
  flushing : ∀ j cpu r, s.services j = some (.flushing cpu r) → 0 < g → g ≤ r → FlushedFor s p cpu

/-- What a publisher that polls has seen so far. -/
def Seen (s : State CPUS) (p : Publisher) : Stage → Prop
  | .polling _ cpu => ∀ c : Fin CPUS, c < cpu → wants p.targets c = true → FlushedFor s p c
  | .answered _ true => ∀ c : Fin CPUS, wants p.targets c = true → FlushedFor s p c
  | _ => True

/-- The invariant: what is completed was flushed. -/
structure Inv (s : State CPUS) : Prop where
  requested_le : ∀ cpu, s.ledger.requested cpu ≤ s.ledger.sequence
  completed_le : ∀ cpu, s.ledger.completed cpu ≤ s.ledger.sequence
  loaded_le : ∀ j v r, s.services j = some v → v.generation = some r → r ≤ s.ledger.sequence
  past : ∀ i p, s.publishers i = some p → p.editedAt < s.clock
  flush_past : ∀ cpu, s.lastFlush cpu ≤ s.clock
  dated : ∀ i p g, s.publishers i = some p → p.stage.generation = some g → Dated s p g
  seen : ∀ i p, s.publishers i = some p → Seen s p p.stage

/-! ## Bits of the target mask -/

/-- A mask that `publish` accepts has bits for existing CPUs only. -/
theorem wants_lt {cpu : Nat} (hvalid : CPUS < 64 → targets >>> CPUS = 0#64)
    (hw : wants targets cpu = true) : cpu < CPUS := by
  by_contra hge
  rw [wants, bne_iff_ne] at hw
  apply hw
  apply BitVec.eq_of_getLsbD_eq
  intro i hi
  rw [BitVec.getLsbD_and, BitVec.getLsbD_zero]
  by_cases hic : i = cpu
  · -- the bit itself lies in the part that is shifted out
    have hbit := congrArg (fun w => BitVec.getLsbD w (i - CPUS)) (hvalid (by omega))
    have hadd : CPUS + (i - CPUS) = i := by omega
    simp only [BitVec.getLsbD_ushiftRight, hadd, BitVec.getLsbD_zero] at hbit
    rw [hbit, Bool.false_and]
  · have hshift : (1#64 <<< cpu).getLsbD i = false := by
      rw [BitVec.getLsbD_shiftLeft, BitVec.getLsbD_one]
      by_cases hlt : i < cpu
      · simp [hlt]
      · have hne : i - cpu ≠ 0 := by omega
        simp [hne]
    rw [hshift, Bool.and_false]

/-! ## The invariant survives every access -/

variable {generation : Nat}

theorem openRound_ok {sequence sequence' : Nat}
    (h : openRound CPUS targets sequence = .ok (generation, sequence')) :
    (CPUS < 64 → targets >>> CPUS = 0#64) ∧ sequence ≤ sequence' ∧ generation ≤ sequence' ∧
      (targets ≠ 0#64 → sequence < generation) ∧ (targets = 0#64 → generation = 0) := by
  unfold openRound at h
  split at h
  · cases h
  rename_i hvalid
  push Not at hvalid
  refine ⟨hvalid, ?_⟩
  split at h
  · rename_i hzero
    cases h
    exact ⟨Nat.le_refl _, Nat.zero_le _, fun hne => absurd hzero hne, fun _ => rfl⟩
  · rename_i hzero
    unfold checkedAdd at h
    split at h
    · cases h
    rename_i value hvalue
    cases h
    split at hvalue
    · cases hvalue
      exact ⟨Nat.le_succ _, Nat.le_refl _, fun _ => Nat.lt_succ_self _, fun hz => absurd hz hzero⟩
    · cases hvalue

variable {s t : State CPUS} {p : Publisher}

/-- A date can be carried over to a state with a later sequence number and later flushes, if nothing new is
    acknowledged and no new flush is under way. -/
theorem Dated.carry {g : Nat} (h : Dated s p g)
    (htargets : q.targets = p.targets) (hedited : q.editedAt = p.editedAt)
    (hseq : s.ledger.sequence ≤ t.ledger.sequence) (hflush : ∀ cpu, s.lastFlush cpu ≤ t.lastFlush cpu)
    (hack : ∀ cpu, 0 < g → g ≤ t.ledger.completed cpu → g ≤ s.ledger.completed cpu ∨ FlushedFor t q cpu)
    (hrun : ∀ j cpu r, t.services j = some (.flushing cpu r) → 0 < g → g ≤ r →
      s.services j = some (.flushing cpu r) ∨ FlushedFor t q cpu) : Dated t q g := by
  have hcarry : ∀ cpu, FlushedFor s p cpu → FlushedFor t q cpu := by
    intro cpu hf
    have := hflush cpu
    unfold FlushedFor at hf ⊢
    omega
  refine ⟨?_, ?_, h.old.trans hseq, ?_, ?_⟩
  · rw [htargets]
    exact h.valid
  · rw [htargets]
    exact h.taken
  · intro cpu hpos hg
    rcases hack cpu hpos hg with hold | hnew
    · exact hcarry cpu (h.acknowledged cpu hpos hold)
    · exact hnew
  · intro j cpu r hj hpos hg
    rcases hrun j cpu r hj hpos hg with hold | hnew
    · exact hcarry cpu (h.flushing j cpu r hold hpos hg)
    · exact hnew

/-- What was seen stays seen while flushes only get later. -/
theorem Seen.carry (h : Seen s p stage) (htargets : q.targets = p.targets) (hedited : q.editedAt = p.editedAt)
    (hflush : ∀ cpu, s.lastFlush cpu ≤ t.lastFlush cpu) : Seen t q stage := by
  have hcarry : ∀ cpu, FlushedFor s p cpu → FlushedFor t q cpu := by
    intro cpu hf
    exact (hedited.trans_lt hf).trans_le (hflush cpu)
  cases stage with
  | polling g cpu => exact fun c hc hw => hcarry c (h c hc (htargets ▸ hw))
  | answered g complete =>
    cases complete with
    | false => trivial
    | true => exact fun c hw => hcarry c (h c (htargets ▸ hw))
  | edited | failed e | storing g cpu | published g => trivial

section Steps

variable (h : Inv s) {i j : Nat} {v : Service CPUS} {cpu : Fin CPUS}
include h

/-- One publisher moves on: it may change the sequence number and the requests, and its stage. -/
theorem Inv.movePublisher
    (hp : s.publishers i = some p) (ledger : Rendezvous CPUS)
    (hcompleted : ledger.completed = s.ledger.completed)
    (hseq : s.ledger.sequence ≤ ledger.sequence) (hreq : ∀ cpu, ledger.requested cpu ≤ ledger.sequence)
    (hdated : ∀ g, stage.generation = some g → p.stage.generation = some g ∨
      (CPUS < 64 → p.targets >>> CPUS = 0#64) ∧ g ≤ ledger.sequence ∧
        (p.targets ≠ 0#64 → s.ledger.sequence < g) ∧ (p.targets = 0#64 → g = 0))
    (hseen : Seen s p stage) : Inv ({ s with ledger := ledger }.setStage i p stage) where
  requested_le := hreq
  completed_le cpu := by
    show ledger.completed cpu ≤ ledger.sequence
    rw [hcompleted]
    exact (h.completed_le cpu).trans hseq
  loaded_le j v r hv hr := (h.loaded_le j v r hv hr).trans hseq
  past k q hq := by
    rcases of_update_eq hq with ⟨-, ⟨⟩⟩ | ⟨-, hq⟩
    · exact h.past i p hp
    · exact h.past k q hq
  flush_past := h.flush_past
  dated k q g hq hg := by
    have hold : ∀ q', Dated s q' g → q'.targets = q.targets → q'.editedAt = q.editedAt →
        Dated ({ s with ledger := ledger }.setStage i p stage) q g := by
      intro q' hd ht he
      refine hd.carry ht.symm he.symm hseq (fun cpu => Nat.le_refl _) ?_ fun j cpu r hj _ _ => .inl hj
      intro cpu _ hle
      rw [← hcompleted]
      exact .inl hle
    rcases of_update_eq hq with ⟨-, ⟨⟩⟩ | ⟨-, hq⟩
    · rcases hdated g hg with htaken | ⟨hvalid, hle, hnew, hzero⟩
      · exact hold p (h.dated i p g hp htaken) rfl rfl
      · -- a generation just taken is newer than everything acknowledged or loaded
        have htargets : 0 < g → s.ledger.sequence < g := by
          intro hpos
          refine hnew fun hz => ?_
          have := hzero hz
          omega
        refine ⟨hvalid, fun hne => ?_, hle, ?_, ?_⟩
        · have := hnew hne
          omega
        · intro cpu hpos hg'
          have h1 : g ≤ s.ledger.completed cpu := hcompleted ▸ hg'
          have h2 := h.completed_le cpu
          have h3 := htargets hpos
          omega
        · intro j cpu r hj hpos hg'
          have h2 := h.loaded_le j _ r hj rfl
          have h3 := htargets hpos
          omega
    · exact hold q (h.dated k q g hq hg) rfl rfl
  seen k q hq := by
    rcases of_update_eq hq with ⟨-, ⟨⟩⟩ | ⟨-, hq⟩
    · exact hseen.carry rfl rfl fun _ => Nat.le_refl _
    · exact (h.seen k q hq).carry rfl rfl fun _ => Nat.le_refl _

/-- A service moves on: it may change the acknowledgements and the dates of the flushes. -/
theorem Inv.moveService (hpub : t.publishers = s.publishers)
    (hseq : t.ledger.sequence = s.ledger.sequence) (hreq : t.ledger.requested = s.ledger.requested)
    (hclock : s.clock ≤ t.clock) (hflush : ∀ cpu, s.lastFlush cpu ≤ t.lastFlush cpu)
    (hpast : ∀ cpu, t.lastFlush cpu ≤ t.clock)
    (hcompleted : ∀ cpu, t.ledger.completed cpu ≤ s.ledger.sequence)
    (hloaded : ∀ j v r, t.services j = some v → v.generation = some r → r ≤ s.ledger.sequence)
    (hack : ∀ i p g, s.publishers i = some p → p.stage.generation = some g → ∀ cpu, 0 < g →
      g ≤ t.ledger.completed cpu → g ≤ s.ledger.completed cpu ∨ FlushedFor t p cpu)
    (hrun : ∀ i p, s.publishers i = some p → ∀ j cpu r, t.services j = some (.flushing cpu r) →
      s.services j = some (.flushing cpu r) ∨ FlushedFor t p cpu) : Inv t where
  requested_le cpu := by
    rw [hreq, hseq]
    exact h.requested_le cpu
  completed_le cpu := by
    rw [hseq]
    exact hcompleted cpu
  loaded_le j v r hv hr := by
    rw [hseq]
    exact hloaded j v r hv hr
  past i p hp := by
    rw [hpub] at hp
    exact (h.past i p hp).trans_le hclock
  flush_past := hpast
  dated i p g hp hg := by
    rw [hpub] at hp
    exact (h.dated i p g hp hg).carry rfl rfl hseq.ge hflush (hack i p g hp hg)
      fun j cpu r hj _ _ => hrun i p hp j cpu r hj
  seen i p hp := by
    rw [hpub] at hp
    exact (h.seen i p hp).carry rfl rfl hflush

/-- The same for a service that neither flushes nor acknowledges. -/
theorem Inv.setService (j : Nat)
    (hloaded : ∀ r, v.generation = some r → r ≤ s.ledger.sequence) (hquiet : ∀ cpu r, v ≠ .flushing cpu r) :
    Inv (s.setService j v) := by
  refine h.moveService rfl rfl rfl (Nat.le_refl _) (fun _ => Nat.le_refl _) h.flush_past h.completed_le ?_
    (fun _ _ _ _ _ _ _ hle => .inl hle) ?_
  · intro k v' r hv' hr
    rcases of_update_eq hv' with ⟨-, ⟨⟩⟩ | ⟨-, hv'⟩
    · exact hloaded r hr
    · exact h.loaded_le k v' r hv' hr
  · intro i p _ k cpu r hk
    rcases of_update_eq hk with ⟨-, ⟨⟩⟩ | ⟨-, hk⟩
    · exact absurd rfl (hquiet cpu r)
    · exact .inl hk

theorem inv_edit (targets : BitVec 64) :
    Inv ({ s with clock := s.clock + 1 }.setStage i ⟨targets, s.clock, .edited⟩ .edited) where
  requested_le := h.requested_le
  completed_le := h.completed_le
  loaded_le := h.loaded_le
  past k q hq := by
    rcases of_update_eq hq with ⟨-, ⟨⟩⟩ | ⟨-, hq⟩
    · exact Nat.lt_succ_self _
    · exact (h.past k q hq).trans_le (Nat.le_succ _)
  flush_past cpu := (h.flush_past cpu).trans (Nat.le_succ _)
  dated k q g hq hg := by
    rcases of_update_eq hq with ⟨-, ⟨⟩⟩ | ⟨-, hq⟩
    · cases hg
    exact (h.dated k q g hq hg).carry rfl rfl (Nat.le_refl _) (fun _ => Nat.le_refl _)
      (fun _ _ hle => .inl hle) fun j cpu r hj _ _ => .inl hj
  seen k q hq := by
    rcases of_update_eq hq with ⟨-, ⟨⟩⟩ | ⟨-, hq⟩
    · trivial
    · exact (h.seen k q hq).carry rfl rfl fun _ => Nat.le_refl _

variable {s' : State CPUS}

theorem inv_publisherStep (hp : s.publishers i = some p) (hs : publisherStep s i p = some s') : Inv s' := by
  have hseen := h.seen i p hp
  have hstay : ∀ stage : Stage, (∀ g, stage.generation = some g → p.stage.generation = some g) →
      Seen s p stage → Inv (s.setStage i p stage) := fun stage hgen hs' =>
    h.movePublisher hp s.ledger rfl (Nat.le_refl _) h.requested_le (fun g hg => .inl (hgen g hg)) hs'
  unfold publisherStep at hs
  cases hstage : p.stage with rw [hstage] at hs
  | edited =>
    dsimp only at hs
    split at hs
    · cases hs
      exact hstay _ (fun g hg => by cases hg) trivial
    · rename_i generation sequence hround
      cases hs
      obtain ⟨hvalid, hseq, hle, hnew, hzero⟩ := openRound_ok hround
      refine h.movePublisher hp _ rfl hseq (fun cpu => (h.requested_le cpu).trans hseq) ?_ trivial
      intro g hg
      cases hg
      exact .inr ⟨hvalid, hle, hnew, hzero⟩
  | failed e => cases hs
  | storing generation cpu =>
    dsimp only at hs
    have hgen : p.stage.generation = some generation := by rw [hstage]; rfl
    split at hs
    · rename_i hlt
      cases hs
      have hold := (h.dated i p generation hp hgen).old
      refine h.movePublisher hp _ ?_ ?_ ?_ (fun g hg => .inl (by rw [hgen]; exact hg)) trivial
      · unfold Rendezvous.request
        split <;> rfl
      · unfold Rendezvous.request
        split <;> exact Nat.le_refl _
      · intro c
        have hc := h.requested_le c
        unfold Rendezvous.request
        split
        · simp only [update_apply]
          split
          · rename_i hcc
            subst hcc
            exact max_le hc hold
          · exact hc
        · exact hc
    · cases hs
      exact hstay _ (fun g hg => by rw [hgen]; exact hg) trivial
  | published generation | answered generation complete =>
    cases hs
    refine hstay _ (fun g hg => by rw [hstage]; exact hg) ?_
    intro c hc
    exact absurd hc (Nat.not_lt_zero _)
  | polling generation cpu =>
    rw [hstage] at hseen
    dsimp only at hs
    have hgen : p.stage.generation = some generation := by rw [hstage]; rfl
    split at hs
    · rename_i hlt
      split at hs
      · rename_i hpass
        cases hs
        refine hstay _ (fun g hg => by rw [hgen]; exact hg) ?_
        intro c hc hw
        by_cases hcc : (c : Nat) = cpu
        · -- the CPU just loaded: it acknowledged the generation
          subst hcc
          rw [hw, Bool.not_true, Bool.false_or, decide_eq_true_eq] at hpass
          have hd := h.dated i p generation hp hgen
          refine hd.acknowledged c (hd.taken ?_) hpass
          intro hzero
          rw [hzero] at hw
          simp [wants] at hw
        · exact hseen c (by omega) hw
      · cases hs
        exact hstay _ (fun g hg => by rw [hgen]; exact hg) trivial
    · rename_i hge
      cases hs
      refine hstay _ (fun g hg => by rw [hgen]; exact hg) ?_
      intro c hw
      exact hseen c (by omega) hw

/-- A flush that begins now comes after all edits made so far. -/
theorem inv_flush (hj : s.services j = some (.stale cpu generation)) :
    Inv ({ s with lastFlush := update s.lastFlush cpu s.clock, clock := s.clock + 1 }.setService j
      (.flushing cpu generation)) := by
  refine h.moveService rfl rfl rfl (Nat.le_succ _) ?_ ?_ h.completed_le ?_
    (fun _ _ _ _ _ _ _ hle => .inl hle) ?_
  · intro c
    simp only [State.setService, update_apply]
    split
    · exact h.flush_past c
    · exact Nat.le_refl _
  · intro c
    simp only [State.setService, update_apply]
    split
    · exact Nat.le_succ _
    · exact (h.flush_past c).trans (Nat.le_succ _)
  · intro k v r hv hr
    rcases of_update_eq hv with ⟨-, ⟨⟩⟩ | ⟨-, hv⟩
    · exact h.loaded_le j _ r hj hr
    · exact h.loaded_le k v r hv hr
  · intro i p hp k c r hk
    rcases of_update_eq hk with ⟨-, ⟨⟩⟩ | ⟨-, hk⟩
    · right
      simp only [FlushedFor, State.setService, update_self]
      exact h.past i p hp
    · exact .inl hk

/-- An acknowledgement covers the generations up to the loaded one: the flush for it has begun. -/
theorem inv_acknowledge (hj : s.services j = some (.flushing cpu generation)) :
    Inv ({ s with ledger := s.ledger.acknowledge cpu generation }.setService j (.returned (.ok true))) := by
  refine h.moveService rfl rfl rfl (Nat.le_refl _) (fun _ => Nat.le_refl _) h.flush_past ?_ ?_ ?_ ?_
  · intro c
    simp only [State.setService, Rendezvous.acknowledge, update_apply]
    split
    · rename_i hc
      subst hc
      exact max_le (h.completed_le c) (h.loaded_le j _ generation hj rfl)
    · exact h.completed_le c
  · intro k v r hv hr
    rcases of_update_eq hv with ⟨-, ⟨⟩⟩ | ⟨-, hv⟩
    · cases hr
    · exact h.loaded_le k v r hv hr
  · intro i p g hp hg c hpos hle
    simp only [State.setService, Rendezvous.acknowledge, update_apply] at hle
    split at hle
    · rename_i hc
      subst hc
      rcases le_max_iff.mp hle with hold | hnew
      · exact .inl hold
      · exact .inr ((h.dated i p g hp hg).flushing j c generation hj hpos hnew)
    · exact .inl hle
  · intro i p _ k c r hk
    rcases of_update_eq hk with ⟨-, ⟨⟩⟩ | ⟨-, hk⟩
    exact .inl hk

theorem inv_serviceStep
    (hj : s.services j = some v) (hs : serviceStep s j v = some s') : Inv s' := by
  cases v with
  | entered cpu =>
    cases hs
    refine h.setService j ?_ (fun _ _ => by simp)
    intro r hr
    cases hr
    exact h.requested_le cpu
  | loaded cpu generation =>
    simp only [serviceStep] at hs
    split at hs
    · cases hs
      exact h.setService j (fun r hr => by cases hr) (fun _ _ => by simp)
    · cases hs
      refine h.setService j ?_ (fun _ _ => by simp)
      intro r hr
      exact h.loaded_le j _ r hj hr
  | stale cpu generation =>
    cases hs
    exact inv_flush h hj
  | flushing cpu generation =>
    cases hs
    exact inv_acknowledge h hj
  | returned result => cases hs

theorem inv_step {l : Label} (hs : step s l = some s') : Inv s' := by
  cases l with simp only [step] at hs
  | edit i targets =>
    split at hs
    · cases hs
    cases hs
    exact inv_edit h targets
  | publisher i =>
    obtain ⟨p, hp, hstep⟩ := Option.bind_eq_some_iff.mp hs
    exact inv_publisherStep h hp hstep
  | enter j cpu =>
    split at hs
    · cases hs
    split at hs
    · cases hs
      exact h.setService j (fun r hr => by cases hr) (fun _ _ => by simp)
    · cases hs
      exact h.setService j (fun r hr => by cases hr) (fun _ _ => by simp)
  | service j =>
    obtain ⟨v, hv, hstep⟩ := Option.bind_eq_some_iff.mp hs
    exact inv_serviceStep h hv hstep
  | flushFails j =>
    split at hs
    · cases hs
      exact h.setService j (fun r hr => by cases hr) (fun _ _ => by simp)
    · cases hs

end Steps

theorem inv_initial : Inv (initial CPUS) where
  requested_le _ := Nat.le_refl _
  completed_le _ := Nat.le_refl _
  loaded_le _ _ _ hv := by cases hv
  past _ _ hp := by cases hp
  flush_past _ := Nat.le_refl _
  dated _ _ _ hp := by cases hp
  seen _ _ hp := by cases hp

theorem inv_reachable (h : (rendezvous CPUS).Reachable s) : Inv s := by
  refine System.Reach.invariant ?_ ?_ h
  · rintro s rfl
    exact inv_initial
  · intro s l s' hinv _ hs
    exact inv_step hinv hs

/-! ## What `complete` reports -/

/-- **A complete publication is flushed everywhere.** In every run, when `complete` has returned true for a
    publication, every CPU in its targets exists and has begun a full flush after the page-table edits. -/
theorem complete_means_flushed {s : State CPUS} (h : (rendezvous CPUS).Reachable s) {i : Nat} {p : Publisher}
    {generation : Nat} (hp : s.publishers i = some p)
    (hanswer : p.stage = .answered generation true) {cpu : Nat}
    (hw : wants p.targets cpu = true) : ∃ hcpu : cpu < CPUS, FlushedFor s p ⟨cpu, hcpu⟩ := by
  have hinv := inv_reachable h
  have hvalid := (hinv.dated i p generation hp (by rw [hanswer]; rfl)).valid
  have hseen := hinv.seen i p hp
  rw [hanswer] at hseen
  exact ⟨wants_lt hvalid hw, hseen ⟨cpu, wants_lt hvalid hw⟩ hw⟩

/-- Two publishers whose stores overlap: the older one is stored last, and CPU 1 answers both with one flush,
    begun for the newer generation. -/
def mergedRun : List Label :=
  -- the second publisher stores first
  List.flatten [[.edit 0 0b11#64, .edit 1 0b10#64, .publisher 0, .publisher 1],
    List.replicate 3 (.publisher 1), List.replicate 3 (.publisher 0), [.enter 0 0, .enter 1 1],
    List.replicate 4 (.service 0), List.replicate 4 (.service 1),
    List.replicate 4 (.publisher 0), List.replicate 4 (.publisher 1)]

theorem complete_means_flushed_merged : ∃ s : State 2, (rendezvous 2).Reachable s ∧ ∃ p,
    s.publishers 0 = some p ∧ p.stage = .answered 1 true ∧ s.ledger.completed 1 = 2 ∧
      ∃ hcpu : 1 < 2, FlushedFor s p ⟨1, hcpu⟩ := by
  obtain ⟨s, hs, hp⟩ := System.reachable_of_exec (rendezvous 2) (initial 2) mergedRun
    (fun s => s.publishers 0 = some ⟨0b11#64, 0, .answered 1 true⟩ ∧ s.ledger.completed 1 = 2) rfl
    (by decide +kernel)
  have hw : wants 0b11#64 1 = true := by decide
  refine ⟨s, hs, ⟨0b11#64, 0, .answered 1 true⟩, hp.1, rfl, hp.2, ?_⟩
  exact complete_means_flushed hs hp.1 rfl hw

end Mnu.Mem.TlbRendezvous
