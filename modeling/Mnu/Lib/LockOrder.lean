import Mathlib.Order.Basic
import Mathlib.Logic.Relation
import Mathlib.Data.Set.Insert
import Mathlib.Tactic

/-!
# `Mnu.Lib.LockOrder` — programs that take locks, and deadlock

Parties share some locks. Each runs a program: a list of instructions that take a lock (waiting while
another party has it), try to take one without waiting, give one back, or act on the shared state. An act
answers with instructions to run next, so code that is reached through a call, a destructor or a branch
on the state appears when it is reached, under whatever locks are held then.

`Path eff held is held'` says that `is`, started with the locks `held`, takes locks in increasing order and
ends with `held'`. What an act does to the locks is the parameter `eff`. The rule for programs is that each
party's remaining program is a path from the locks it has to none (`Machine.Orderly`); it is kept by every
step, and it excludes a cycle of waiting parties (`Orderly.not_deadlocked`).
-/

namespace Mnu.Lib.LockOrder

open Function

/-- An instruction of a party. -/
inductive Instr (L A : Type) where
  | lock (l : L)
  | attempt (l : L) (taken busy : A)
  | unlock (l : L)
  | run (a : A)

section Path

variable {L A : Type} [Preorder L] {eff : Set L → A → Set L → Prop}

/-- The instructions take locks in increasing order, and turn the held locks `held` into `held'`. -/
inductive Path (eff : Set L → A → Set L → Prop) : Set L → List (Instr L A) → Set L → Prop where
  | nil (held) : Path eff held [] held
  | lock {held held' l is} : (∀ m ∈ held, m < l) → Path eff (insert l held) is held' →
      Path eff held (.lock l :: is) held'
  | attempt {held mid held' l taken busy is} : eff (insert l held) taken mid → eff held busy mid →
      Path eff mid is held' → Path eff held (.attempt l taken busy :: is) held'
  | unlock {held held' l is} : l ∈ held → Path eff (held \ {l}) is held' →
      Path eff held (.unlock l :: is) held'
  | run {held mid held' a is} : eff held a mid → Path eff mid is held' → Path eff held (.run a :: is) held'

theorem Path.eq_of_nil {held held' : Set L} (h : Path eff held [] held') : held = held' := by
  cases h
  rfl

theorem Path.append {held mid held' : Set L} {is js : List (Instr L A)} (hi : Path eff held is mid)
    (hj : Path eff mid js held') : Path eff held (is ++ js) held' := by
  induction hi with
  | nil => exact hj
  | lock hl _ ih => exact .lock hl (ih hj)
  | attempt ht hb _ ih => exact .attempt ht hb (ih hj)
  | unlock hl _ ih => exact .unlock hl (ih hj)
  | run ha _ ih => exact .run ha (ih hj)

/-- Pieces that each leave the held locks as they were, one after the other. -/
theorem Path.flatMap {β : Type} {held : Set L} (f : β → List (Instr L A)) :
    ∀ xs : List β, (∀ x ∈ xs, Path eff held (f x) held) → Path eff held (xs.flatMap f) held
  | [], _ => .nil held
  | x :: xs, h => by
      rw [List.flatMap_cons]
      have hrest := Path.flatMap f xs fun y hy => h y (List.mem_cons_of_mem x hy)
      exact (h x List.mem_cons_self).append hrest

end Path

/-! ## Waiting -/

variable {ι L A σ : Type} {l k : L}

/-- Who owns each lock, what each party still has to do, and the state that the acts work on. -/
structure Machine (ι L A σ : Type) where
  owner : L → Option ι
  code : ι → List (Instr L A)
  shared : σ

namespace Machine

/-- The lock that a party's next instruction has to wait for while another has it. -/
def wants (m : Machine ι L A σ) (p : ι) : Option L :=
  match m.code p with
  | .lock l :: _ => some l
  | _ => none

/-- The locks that a party has. -/
def held (m : Machine ι L A σ) (p : ι) : Set L := {l | m.owner l = some p}

/-- `p` is about to take a lock that `q` has. -/
def WaitsFor (m : Machine ι L A σ) (p q : ι) : Prop := ∃ l, m.wants p = some l ∧ m.owner l = some q

/-- Some party waits, through a chain of others, for itself. -/
def Deadlocked (m : Machine ι L A σ) : Prop := ∃ p, Relation.TransGen m.WaitsFor p p

/-- Two parties that wait for each other. -/
theorem Deadlocked.of_pair {m : Machine ι L A σ} {p q : ι} (hp : m.wants p = some l)
    (hl : m.owner l = some q) (hq : m.wants q = some k) (hk : m.owner k = some p) : m.Deadlocked :=
  ⟨p, .tail (.single ⟨l, hp, hl⟩) ⟨k, hq, hk⟩⟩

section Step

variable [DecidableEq ι] [DecidableEq L]

/-- The next instruction of `p`. A lock that is taken blocks; an idle party has nothing to do. -/
def step (act : ι → A → σ → σ × List (Instr L A)) (m : Machine ι L A σ) (p : ι) : Option (Machine ι L A σ) :=
  match m.code p with
  | [] => none
  | .lock l :: is =>
    if m.owner l = none then
      some { m with owner := update m.owner l (some p), code := update m.code p is }
    else none
  | .attempt l taken busy :: is =>
    if m.owner l = none then
      some { m with
        owner := update m.owner l (some p)
        code := update m.code p (.run taken :: is) }
    else some { m with code := update m.code p (.run busy :: is) }
  | .unlock l :: is =>
    some { m with owner := update m.owner l none, code := update m.code p is }
  | .run a :: is =>
    let (shared, next) := act p a m.shared
    some { m with code := update m.code p (next ++ is), shared := shared }

/-- A party with nothing to do starts a program. -/
def start (m : Machine ι L A σ) (p : ι) (is : List (Instr L A)) : Option (Machine ι L A σ) :=
  if (m.code p).isEmpty then some { m with code := update m.code p is } else none

/-- Taking a free lock. -/
theorem held_take {m : Machine ι L A σ} {p : ι} (hfree : m.owner l = none) (q : ι) :
    {k | update m.owner l (some p) k = some q} =
      if q = p then insert l (m.held p) else m.held q := by
  ext k
  by_cases hk : k = l
  · subst hk
    by_cases hq : q = p
    · simp [hq]
    · simp [hq, held, hfree, Ne.symm hq]
  · by_cases hq : q = p
    · subst hq
      simp [held, hk]
    · simp [held, hk, hq]

/-- Giving back a lock that the party has. -/
theorem held_release {m : Machine ι L A σ} {p : ι} (hown : m.owner l = some p) (q : ι) :
    {k | update m.owner l none k = some q} = if q = p then m.held p \ {l} else m.held q := by
  ext k
  by_cases hk : k = l
  · subst hk
    by_cases hq : q = p
    · simp [hq]
    · simp [hq, held, hown, Ne.symm hq]
  · by_cases hq : q = p
    · subst hq
      simp [held, hk]
    · simp [held, hk, hq]

end Step

/-! ## Parties that take locks in order -/

variable [Preorder L]

/-- Every party's remaining program leads from the locks it has to none, in order. -/
def Orderly (eff : Set L → A → Set L → Prop) (m : Machine ι L A σ) : Prop :=
  ∀ p, Path eff (m.held p) (m.code p) ∅

variable {eff : Set L → A → Set L → Prop} {m m' : Machine ι L A σ} {p : ι}

/-- Locks are taken in increasing order. -/
theorem Orderly.lt_wants (h : m.Orderly eff) (hw : m.wants p = some l) (hk : m.owner k = some p) : k < l := by
  have hp := h p
  unfold wants at hw
  split at hw
  · rename_i l' is hcode
    cases hw
    rw [hcode] at hp
    cases hp with
    | lock hlt _ => exact hlt k hk
  · cases hw

/-- Along a chain of waiting parties the wanted locks increase. -/
theorem Orderly.wants_lt (h : m.Orderly eff) {q : ι} (hpq : Relation.TransGen m.WaitsFor p q) :
    ∃ l, m.wants p = some l ∧ ∀ k, m.wants q = some k → l < k := by
  induction hpq with
  | single hwait =>
    obtain ⟨l, hl, hown⟩ := hwait
    exact ⟨l, hl, fun k hk => h.lt_wants hk hown⟩
  | tail _ hwait ih =>
    obtain ⟨l, hl, hlt⟩ := ih
    obtain ⟨j, hj, hown⟩ := hwait
    exact ⟨l, hl, fun k hk => lt_trans (hlt j hj) (h.lt_wants hk hown)⟩

/-- **Parties that take their locks in one order do not wait in a cycle.** -/
theorem Orderly.not_deadlocked (h : m.Orderly eff) : ¬ m.Deadlocked := by
  rintro ⟨p, hcycle⟩
  obtain ⟨l, hl, hlt⟩ := h.wants_lt hcycle
  exact lt_irrefl l (hlt l hl)

/-! ## Steps keep the order -/

section Keep

variable [DecidableEq ι] [DecidableEq L] {is : List (Instr L A)}
  (h : m.Orderly eff) (hcode : m'.code = update m.code p is)

include h hcode in
omit [DecidableEq L] in
/-- Only the party that moves changes its program; the locks of the others stay. -/
theorem Orderly.move {held : Set L}
    (hheld : ∀ q, m'.held q = if q = p then held else m.held q) (hp : Path eff held is ∅) :
    m'.Orderly eff := by
  intro q
  rw [hcode, hheld]
  by_cases hq : q = p
  · subst hq
    rw [update_self, if_pos rfl]
    exact hp
  · rw [update_of_ne hq, if_neg hq]
    exact h q

include h hcode in
omit [DecidableEq L] in
/-- The party keeps its locks. -/
theorem Orderly.jump
    (howner : m'.owner = m.owner) (hp : Path eff (m.held p) is ∅) : m'.Orderly eff := by
  refine h.move hcode (fun q => ?_) hp
  unfold held
  rw [howner]
  split
  · rename_i hq
    rw [hq]
  · rfl

/-- **The next instruction of a party keeps the order**, if the acts do to the locks what `eff` says. -/
theorem Orderly.step {act : ι → A → σ → σ × List (Instr L A)} (h : m.Orderly eff)
    (hact : ∀ a is mid, m.code p = .run a :: is → eff (m.held p) a mid →
      Path eff (m.held p) (act p a m.shared).2 mid) (hstep : m.step act p = some m') : m'.Orderly eff := by
  have hp := h p
  unfold Machine.step at hstep
  split at hstep
  · cases hstep
  · rename_i l is hcode
    rw [hcode] at hp
    split at hstep
    · rename_i hfree
      cases hstep
      cases hp with
      | lock _ hrest => exact h.move rfl (held_take hfree) hrest
    · cases hstep
  · rename_i l taken busy is hcode
    rw [hcode] at hp
    obtain ⟨mid, htaken, hbusy, hrest⟩ : ∃ mid, eff (insert l (m.held p)) taken mid ∧
        eff (m.held p) busy mid ∧ Path eff mid is ∅ := by
      cases hp with
      | attempt ht hb hr => exact ⟨_, ht, hb, hr⟩
    split at hstep
    · rename_i hfree
      cases hstep
      exact h.move rfl (held_take hfree) (.run htaken hrest)
    · cases hstep
      exact h.jump rfl rfl (.run hbusy hrest)
  · rename_i l is hcode
    rw [hcode] at hp
    cases hstep
    cases hp with
    | unlock hown hrest => exact h.move rfl (held_release hown) hrest
  · rename_i a is hcode
    rw [hcode] at hp
    cases hstep
    cases hp with
    | run ha hrest => exact h.jump rfl rfl ((hact a is _ hcode ha).append hrest)

omit [DecidableEq L] in
/-- A party that is idle has no locks, so it may start any program that begins and ends without. -/
theorem Orderly.start (h : m.Orderly eff) (hpath : Path eff ∅ is ∅)
    (hstart : m.start p is = some m') : m'.Orderly eff := by
  unfold Machine.start at hstart
  split at hstart
  · rename_i hidle
    cases hstart
    have hp := h p
    rw [List.isEmpty_iff.mp hidle] at hp
    have hnone : m.held p = ∅ := hp.eq_of_nil
    exact h.jump rfl rfl (hnone ▸ hpath)
  · cases hstart

end Keep

end Machine

end Mnu.Lib.LockOrder
