import Mnu.Mem.RootLifetime

/-!
# `Mnu.Mem.RootLifetimeInv` — a page table is destroyed once, and under nobody's pin

The obligation to destroy a table is in one place at a time (`Duty`): with its owner, with the caller of
`retire`, with the last pin of a state, or with the party that is about to destroy it. The invariant follows
it through the run. It says where each party stands with respect to the duty (`PcOk`), that a state with
references is registered and belongs to a table whose duty has not yet reached a destroyer, and that the
registry has no two entries for one root. The last point is what `pin_with` gives only as long as a state it
has seen alive is still alive when it is looked up (`State.steady`).
-/

namespace Mnu.Mem

open Mnu.Lib Function

namespace RootLifetime

/-- Who has to destroy the table of a root. -/
inductive Duty (ι : Type) where
  | nobody
  | owner
  | caller (a : ι)
  | lastPin (id : Nat)
  | destroyer (a : ι)
  | done

namespace Duty

variable {ι : Type}

/-- The duty has not left the pins. -/
def Serves (duty : Duty ι) (id : Nat) : Prop :=
  duty = .owner ∨ (∃ a, duty = .caller a) ∨ duty = .lastPin id

/-- The duty is on its way from the owner to a destroyer. -/
def Due : Duty ι → Prop
  | .caller _ | .lastPin _ | .destroyer _ => True
  | _ => False

end Duty

/-- Whether the place is part of a retirement. -/
def Pc.busy : Pc → Bool
  | .retireLock _ | .retireStore _ _ | .final _ _ | .destroy _ => true
  | _ => false

namespace State

variable {ι : Type} {s s' : State ι} {d d' : Nat → Duty ι} {a b : ι} {table id x : Nat} {ref : Option ι × Nat}
  {acquiring : List (ι × Nat)} {pc pc₀ : Pc} {duty : Duty ι}

/-- Somebody has a reference. -/
def Alive (s : State ι) (id : Nat) : Prop := ∃ owner, (owner, id) ∈ s.refs

/-- What a party at its place relies on, but for the registry. -/
def PcOk (s : State ι) (d : Nat → Duty ι) (b : ι) : Prop :=
  match s.pc b with
  | .idle => True
  | .pinLock table | .scan table _ | .lookup table | .absent table =>
    d table = .owner ∧ (b, table) ∈ s.acquiring
  | .check table id =>
    d table = .owner ∧ (b, table) ∈ s.acquiring ∧ (some b, id) ∈ s.refs ∧ (s.root id).1 = table
  | .retireLock table => d table = .caller b
  | .retireStore table id => d table = .caller b ∧ (some b, id) ∈ s.refs ∧ (s.root id).1 = table
  | .dropRef table id => (some b, id) ∈ s.refs ∧ (s.root id).1 = table ∧ s.retired id = true
  | .final table id => ¬ s.Alive id ∧ id < s.next ∧ (s.retired id = true → d table = .destroyer b)
  | .destroy table => d table = .destroyer b

/-- What the holder of the registry lock knows about the registry. -/
def ScanOk (s : State ι) (b : ι) : Prop :=
  match s.pc b with
  | .scan table index => ∀ entry ∈ s.roots.take index, entry.1 = table → s.Alive entry.2
  | .lookup table => ∀ entry ∈ s.roots, entry.1 = table → s.Alive entry.2
  | .absent table => ∀ entry ∈ s.roots, entry.1 ≠ table
  | _ => True

/-- A call of `retire` for this table is under way. -/
def Calls (s : State ι) (b : ι) (table : Nat) : Prop :=
  s.pc b = .retireLock table ∨ ∃ id, s.pc b = .retireStore table id

/-- This table is destroyed next. -/
def Ends (s : State ι) (b : ι) (table : Nat) : Prop :=
  s.pc b = .destroy table ∨ ∃ id, s.pc b = .final table id ∧ s.retired id = true

/-- How the duties fit what has been asked for and done. -/
structure History (s : State ι) (d : Nat → Duty ι) : Prop where
  owned : ∀ table, s.owned table = true ↔ d table = .owner
  fresh : ∀ table, s.lifetime table = 0 → d table = .nobody
  past : ∀ root ∈ s.destroyed, root.2 ≤ s.lifetime root.1 ∧ (root.2 = s.lifetime root.1 → d root.1 = .done)
  once : s.destroyed.Nodup
  asked : ∀ root ∈ s.destroyed, root ∈ s.retirements
  released : ∀ table, (d table).Due → (table, s.lifetime table) ∈ s.retirements
  due : ∀ root ∈ s.retirements, root ∈ s.destroyed ∨ (root.2 = s.lifetime root.1 ∧ (d root.1).Due)

theorem strong_ne_zero : s.strong id ≠ 0 ↔ s.Alive id := by
  rw [strong, Nat.ne_zero_iff_zero_lt, List.countP_pos_iff]
  constructor
  · rintro ⟨⟨owner, found⟩, hmem, heq⟩
    have hid : found = id := of_decide_eq_true heq
    exact ⟨owner, hid ▸ hmem⟩
  · rintro ⟨owner, hmem⟩
    exact ⟨_, hmem, decide_eq_true rfl⟩

/-! ## What a step leaves to the other parties -/

attribute [local grind =] update_apply
attribute [local grind] Calls Ends Duty.Serves Duty.Due Pc.locked Pc.holds Pc.busy

theorem ScanOk.frame (h : s.ScanOk b) (hpc : s'.pc b = s.pc b) (hroots : s'.roots = s.roots)
    (halive : ∀ id, s.Alive id → s'.Alive id) : s'.ScanOk b := by
  unfold ScanOk at h ⊢
  grind

/-- Only the holder of the lock looks at the registry. -/
theorem scanOk_of_unlocked (hat : s.pc b = pc) (h : pc.locked = false) : s.ScanOk b := by
  unfold ScanOk
  grind

theorem History.same (h : History s d) (hlifetime : s'.lifetime = s.lifetime) (howned : s'.owned = s.owned)
    (hasked : s'.retirements = s.retirements) (hdestroyed : s'.destroyed = s.destroyed) : History s' d := by
  obtain ⟨howned', hfresh, hpast, honce, hasked', hreleased, hdue⟩ := h
  constructor <;> grind

/-- A duty that is due passes on to someone else. -/
theorem History.pass (h : History s d) (hdue : (d table).Due) (hdue' : duty.Due) :
    History s (update d table duty) := by
  obtain ⟨howned, hfresh, hpast, honce, hasked, hreleased, hdues⟩ := h
  constructor <;> grind

/-- What a party drops: a pin while it is idle, or the reference it has upgraded to a retired state. -/
def Drops (s : State ι) (a : ι) (ref : Option ι × Nat) : Prop :=
  (s.pc a = .idle ∧ ref.1 = none) ∨ ∃ table, s.pc a = .dropRef table ref.2 ∧ ref.1 = some a

theorem Drops.busy (h : s.Drops a ref) : (s.pc a).busy = false := by
  rcases h with ⟨hpc, -⟩ | ⟨t, hpc, -⟩ <;> rw [hpc] <;> rfl

theorem Drops.other (h : s.Drops a ref) (hb : b ≠ a) (x : Nat) : (some b, x) ≠ ref := by
  rintro rfl
  rcases h with ⟨-, hnone⟩ | ⟨t, -, hown⟩
  · cases hnone
  · exact hb (Option.some.inj hown)

theorem find_key {roots : List (Nat × Nat)} {entry : Nat × Nat}
    (h : (roots.find? fun entry => entry.1 = table) = some entry) : entry ∈ roots ∧ entry.1 = table :=
  ⟨List.mem_of_find?_eq_some h, by simpa using List.find?_some h⟩

variable [DecidableEq ι]

/-- The invariant; `d` says who is to destroy each table. -/
structure Inv (s : State ι) (d : Nat → Duty ι) : Prop where
  keys : (s.roots.map Prod.fst).Nodup
  entries : ∀ entry ∈ s.roots, (s.root entry.2).1 = entry.1 ∧ entry.2 < s.next
  alive : ∀ id, s.Alive id → id < s.next ∧ (s.root id).2 = s.lifetime (s.root id).1 ∧
    ((s.root id).1, id) ∈ s.roots ∧ (d (s.root id).1).Serves id
  held : ∀ a id, (some a, id) ∈ s.refs → (s.pc a).holds = some id
  single : ∀ a id, s.refs.count (some a, id) ≤ 1
  pinned : ∀ table id, d table = .lastPin id → s.Alive id ∧ s.retired id = true ∧ (s.root id).1 = table
  marked : ∀ id, s.Alive id → s.retired id = true → d (s.root id).1 = .lastPin id
  lock : ∀ b, (s.pc b).locked = true → s.lock = some b
  pcs : ∀ b, s.PcOk d b
  scans : ∀ b, s.ScanOk b
  callers : ∀ table b, d table = .caller b → s.Calls b table
  destroyers : ∀ table b, d table = .destroyer b → s.Ends b table
  history : History s d

/-- What the invariant says of one party. -/
structure Party (s : State ι) (d : Nat → Duty ι) (b : ι) : Prop where
  held : ∀ id, (some b, id) ∈ s.refs → (s.pc b).holds = some id
  lock : (s.pc b).locked = true → s.lock = some b
  place : s.PcOk d b
  scan : s.ScanOk b
  caller : ∀ table, d table = .caller b → s.Calls b table
  destroyer : ∀ table, d table = .destroyer b → s.Ends b table

theorem Inv.of_parties (hkeys : (s.roots.map Prod.fst).Nodup)
    (hentries : ∀ entry ∈ s.roots, (s.root entry.2).1 = entry.1 ∧ entry.2 < s.next)
    (halive : ∀ id, s.Alive id → id < s.next ∧ (s.root id).2 = s.lifetime (s.root id).1 ∧
      ((s.root id).1, id) ∈ s.roots ∧ (d (s.root id).1).Serves id)
    (hsingle : ∀ a id, s.refs.count (some a, id) ≤ 1)
    (hpinned : ∀ table id, d table = .lastPin id → s.Alive id ∧ s.retired id = true ∧ (s.root id).1 = table)
    (hmarked : ∀ id, s.Alive id → s.retired id = true → d (s.root id).1 = .lastPin id)
    (hhistory : History s d) (h : ∀ b, Party s d b) : Inv s d :=
  ⟨hkeys, hentries, halive, fun b => (h b).held, hsingle, hpinned, hmarked, fun b => (h b).lock,
    fun b => (h b).place,
    fun b => (h b).scan, fun t b => (h b).caller t, fun t b => (h b).destroyer t, hhistory⟩

/-- The states of before are there. One that has a reference may have been retired, no other one changes. -/
structure Keeps (s s' : State ι) : Prop where
  next : s.next ≤ s'.next
  root : ∀ id, id < s.next → s'.root id = s.root id
  retired : ∀ id, id < s.next → s'.retired id = s.retired id ∨ s.Alive id ∧ s'.retired id = true
  alive : ∀ id, id < s.next → s'.Alive id → s.Alive id

/-- A party keeps its place, its call of `pin_with`, the lock and its references. -/
structure Stays (s s' : State ι) (b : ι) : Prop where
  pc : s'.pc b = s.pc b
  acquiring : ∀ table, (b, table) ∈ s.acquiring → (b, table) ∈ s'.acquiring
  lock : s.lock = some b → s'.lock = some b
  refs : ∀ id, (some b, id) ∈ s'.refs ↔ (some b, id) ∈ s.refs

@[simp, grind =] theorem pc_self : (s.goto a pc).pc a = pc := update_self _ _ _

theorem pc_other (b : ι) (hb : b ≠ a) : (s.goto a pc).pc b = s.pc b := update_of_ne hb _ _

/-- The other states keep a reference. -/
theorem Alive.erase (h : s.Alive x) (hne : x ≠ ref.2) : ∃ o, (o, x) ∈ s.refs.erase ref := by
  obtain ⟨o, ho⟩ := h
  exact ⟨o, (List.mem_erase_of_ne fun heq => hne (congrArg Prod.snd heq)).mpr ho⟩

/-- The other calls of `pin_with` go on. -/
theorem mem_erase_call (b : ι) (hb : b ≠ a) (t : Nat) (ht : (b, t) ∈ acquiring) :
    (b, t) ∈ acquiring.erase (a, table) :=
  (List.mem_erase_of_ne fun heq => hb (congrArg Prod.fst heq)).mpr ht

section Steps

variable (h : Inv s d) {lock : Option ι}
  (hdrop : s.Drops a ref) (hmem : ref ∈ s.refs)
  (hacq : ∀ b, b ≠ a → ∀ t, (b, t) ∈ s.acquiring → (b, t) ∈ acquiring)
include h

/-- Nobody else is in the registry while `a` has the lock. -/
theorem Inv.unlocked (hlock : s.lock = some a) (hb : b ≠ a) : (s.pc b).locked = false := by
  have := h.lock b
  grind

/-- **A party that stays keeps its part of the invariant**, if the duties it is part of stay with it. -/
theorem Inv.frame (hk : Keeps s s') (hs : Stays s s' b)
    (hd : ∀ table, (d table = .owner ∧ (b, table) ∈ s.acquiring) ∨ d table = .caller b ∨
      d table = .destroyer b ∨ d' table = .caller b ∨ d' table = .destroyer b → d' table = d table)
    (hscan : s'.ScanOk b) : Party s' d' b := by
  obtain ⟨hnext, hroot, hretired, halive⟩ := hk
  obtain ⟨hpc, hacq, hlock, hrefs⟩ := hs
  have hlt : ∀ id, (some b, id) ∈ s.refs → id < s.next ∧ s.Alive id :=
    fun id hid => ⟨(h.alive id ⟨_, hid⟩).1, _, hid⟩
  have hplace := h.pcs b
  refine ⟨?_, ?_, ?_, hscan, ?_, ?_⟩
  · rw [hpc]
    exact fun id hid => h.held b id ((hrefs id).mp hid)
  · rw [hpc]
    exact fun hl => hlock (h.lock b hl)
  · unfold PcOk at hplace ⊢
    grind
  · intro t ht
    have := h.callers t b
    grind
  · intro t ht
    have := h.destroyers t b
    unfold PcOk at hplace
    grind

/-- Who has no part in a retirement has no duty. -/
theorem Inv.no_duty (hat : s.pc a = pc) (hbusy : pc.busy = false) (t : Nat) :
    d t ≠ .caller a ∧ d t ≠ .destroyer a := by
  have := h.callers t a
  have := h.destroyers t a
  grind

/-! ## Steps that leave every duty where it is -/

/-- The registry, the states and the history are the same. -/
structure Same (s s' : State ι) : Prop where
  roots : s'.roots = s.roots
  root : s'.root = s.root
  retired : s'.retired = s.retired
  next : s'.next = s.next
  lifetime : s'.lifetime = s.lifetime
  owned : s'.owned = s.owned
  retirements : s'.retirements = s.retirements
  destroyed : s'.destroyed = s.destroyed

/-- A party moves, and may take up or give back references to states that stay alive. -/
theorem Inv.moved (hs : Same s s') (halive : ∀ id, s'.Alive id ↔ s.Alive id)
    (hstay : ∀ b, b ≠ a → Stays s s' b)
    (hsingle : ∀ b id, s'.refs.count (some b, id) ≤ 1) (ha : Party s' d a) : Inv s' d := by
  obtain ⟨hroots, hroot, hretired, hnext, hlifetime, howned, hasked, hdestroyed⟩ := hs
  have hkeeps : Keeps s s' := ⟨Nat.le_of_eq hnext.symm, fun id _ => congrFun hroot id,
    fun id _ => .inl (congrFun hretired id), fun id _ => (halive id).mp⟩
  refine .of_parties (hroots ▸ h.keys) (by rw [hroots, hroot, hnext]; exact h.entries)
    (by have := h.alive; grind) hsingle
    (by have := h.pinned; grind) (by have := h.marked; grind)
      (h.history.same hlifetime howned hasked hdestroyed) ?_
  intro b
  by_cases hb : b = a
  · exact hb ▸ ha
  · exact h.frame hkeeps (hstay b hb) (fun _ _ => rfl)
      ((h.scans b).frame (hstay b hb).pc hroots fun id => (halive id).mpr)

/-- A party that has no reference and no part in a retirement moves on: the lock and the calls of `pin_with`
    may change with it. -/
theorem Inv.goto (hs : s' = { s with lock := lock, acquiring := acquiring }.goto a pc)
    (hat : s.pc a = pc₀) (hheld : pc₀.holds = none) (hbusy : pc₀.busy = false)
    (hacq : ∀ b, b ≠ a → ∀ table, (b, table) ∈ s.acquiring → (b, table) ∈ acquiring)
    (hlock : pc.locked = true → lock = some a) (hkeep : ∀ b, b ≠ a → s.lock = some b → lock = some b)
    (hok : s'.PcOk d a) (hscan : s'.ScanOk a) : Inv s' d := by
  subst hs
  refine h.moved (a := a) ⟨rfl, rfl, rfl, rfl, rfl, rfl, rfl, rfl⟩ (fun _ => .rfl)
    (fun b hb => ⟨pc_other b hb, hacq b hb, hkeep b hb, fun _ => .rfl⟩) h.single
    ⟨?_, by rw [pc_self]; exact hlock, hok, hscan, fun t ht => absurd ht (h.no_duty hat hbusy t).1,
      fun t ht => absurd ht (h.no_duty hat hbusy t).2⟩
  intro id href
  exact nomatch (hat ▸ hheld).symm.trans (h.held a id href)

omit [DecidableEq ι] h in
/-- An idle party has no reference and no duty. -/
theorem Party.idle (hpc : s'.pc a = .idle) (hnone : ∀ x, (some a, x) ∉ s'.refs)
    (hduty : ∀ t, d t ≠ .caller a ∧ d t ≠ .destroyer a) : Party s' d a := by
  refine ⟨fun x hx => absurd hx (hnone x), ?_, by simp [PcOk, hpc], by simp [ScanOk, hpc],
    fun t ht => absurd ht (hduty t).1, fun t ht => absurd ht (hduty t).2⟩
  rw [hpc]
  nofun

/-! ### Pinning -/

theorem Inv.startPin (hpc : s.pc a = .idle) (howned : s.owned table = true) :
    Inv ({ s with acquiring := (a, table) :: s.acquiring }.goto a (.pinLock table)) d := by
  refine h.goto rfl hpc rfl rfl (fun b _ t ht => List.mem_cons_of_mem _ ht) (fun hl => by cases hl)
    (fun b _ hl => hl) ?_ (scanOk_of_unlocked pc_self rfl)
  simp only [PcOk, pc_self]
  exact ⟨(h.history.owned table).mp howned, List.mem_cons_self⟩

theorem Inv.lockPin (hpc : s.pc a = .pinLock table) (hlock : s.lock = none) :
    Inv ({ s with lock := some a }.goto a (.scan table 0)) d := by
  have hok := h.pcs a
  simp only [PcOk, hpc] at hok
  refine h.goto rfl hpc rfl rfl (fun _ _ _ ht => ht) (fun _ => rfl) (by grind) ?_ ?_
  · simp only [PcOk, pc_self]
    exact hok
  · simp only [ScanOk, pc_self]
    exact nofun

/-- `retain` keeps the entries of living states, and those it has kept are alive. -/
theorem Inv.scan {index : Nat} (hpc : s.pc a = .scan table index)
    (hs : s.step (.scan a) = some s') : Inv s' d := by
  have hlock := h.lock a (by rw [hpc]; rfl)
  have hok := h.pcs a
  have hscan := h.scans a
  simp only [PcOk, ScanOk, hpc] at hok hscan
  have hgoto : ∀ pc : Pc, (s.goto a pc).PcOk d a → (s.goto a pc).ScanOk a → Inv (s.goto a pc) d :=
    fun pc => h.goto rfl hpc rfl rfl (fun _ _ _ ht => ht) (fun _ => hlock) fun _ _ hl => hl
  simp only [step, hpc] at hs
  split at hs
  · rename_i hend
    cases hs
    have hall : s.roots.take index = s.roots := List.take_of_length_le (List.getElem?_eq_none_iff.mp hend)
    refine hgoto _ ?_ ?_
    · simp only [PcOk, pc_self]
      exact hok
    · simp only [ScanOk, pc_self]
      exact hall ▸ hscan
  rename_i entry hentry
  split at hs
  · rename_i hstrong
    cases hs
    refine hgoto _ ?_ ?_
    · simp only [PcOk, pc_self]
      exact hok
    · simp only [ScanOk, pc_self]
      intro found hfound hkey
      have hfound' : found ∈ s.roots.take (index + 1) := hfound
      rw [List.take_add_one, hentry, List.mem_append] at hfound'
      rcases hfound' with hfound' | hfound'
      · exact hscan found hfound' hkey
      · cases List.mem_singleton.mp hfound'
        exact strong_ne_zero.mp hstrong
  · -- a dead entry goes: no living state loses its own
    rename_i hstrong
    have hdead : ¬ s.Alive entry.2 := fun hid => hstrong (strong_ne_zero.mpr hid)
    cases hs
    have hsub : (s.roots.eraseIdx index).Sublist s.roots := List.eraseIdx_sublist _ _
    have hkeep : ∀ e ∈ s.roots, s.Alive e.2 → e ∈ s.roots.eraseIdx index := by
      intro e he hid
      obtain ⟨i, hi⟩ := List.mem_iff_getElem?.mp he
      refine List.mem_eraseIdx_iff_getElem?.mpr ⟨i, ?_, hi⟩
      rintro rfl
      cases hentry.symm.trans hi
      exact hdead hid
    refine { h with
      keys := h.keys.sublist (hsub.map Prod.fst)
      entries := fun e he => h.entries e (hsub.subset he)
      alive := ?_
      scans := ?_
      history := h.history.same rfl rfl rfl rfl }
    · intro id hid
      obtain ⟨hlt, hlife, hmem, hserves⟩ := h.alive id hid
      exact ⟨hlt, hlife, hkeep _ hmem hid, hserves⟩
    · intro b
      by_cases hb : b = a
      · subst hb
        simp only [ScanOk, hpc]
        intro e he hkey
        rw [List.take_eraseIdx_eq_take_of_le _ _ _ (Nat.le_refl _)] at he
        exact hscan e he hkey
      · exact scanOk_of_unlocked rfl (h.unlocked hlock hb)

/-- A party upgrades a reference to a living state. -/
theorem Inv.upgraded (hs : s' = { s with refs := (some a, id) :: s.refs, lock := lock }.goto a pc)
    (hat : s.pc a = pc₀) (hheld : pc₀.holds = none) (hid : s.Alive id) (hholds : pc.holds = some id)
    (hlock : pc.locked = true → lock = some a) (hkeep : ∀ b, b ≠ a → s.lock = some b → lock = some b)
    (hok : s'.PcOk d a) (hscan : s'.ScanOk a) (hcalls : ∀ table, d table = .caller a → s'.Calls a table)
    (hends : ∀ table, d table ≠ .destroyer a) : Inv s' d := by
  subst hs
  have hnone : ∀ x, (some a, x) ∉ s.refs := by
    have := h.held a
    grind
  refine h.moved (a := a) ⟨rfl, rfl, rfl, rfl, rfl, rfl, rfl, rfl⟩ ?_
    (fun b hb => ⟨pc_other b hb, fun _ ht => ht, hkeep b hb, ?_⟩) ?_
    ⟨?_, by rw [pc_self]; exact hlock, hok, hscan, hcalls, fun t ht => absurd ht (hends t)⟩
  · intro x
    simp only [Alive, State.goto, List.mem_cons] at hid ⊢
    grind
  · intro x
    simp only [State.goto, List.mem_cons]
    grind
  · intro b x
    show ((some a, id) :: s.refs).count (some b, x) ≤ 1
    by_cases heq : (some b, x) = (some a, id)
    · rw [heq, List.count_cons_self, List.count_eq_zero.mpr (hnone id)]
    · rw [List.count_cons_of_ne (Ne.symm heq)]
      exact h.single b x
  · intro x hx
    simp only [State.goto, List.mem_cons] at hx
    grind

/-- The lookup upgrades the state of the root, or there is no entry for it. -/
theorem Inv.lookup (hpc : s.pc a = .lookup table) (hs : s.step (.lookup a) = some s') :
    Inv s' d := by
  have hlock := h.lock a (by rw [hpc]; rfl)
  have hok := h.pcs a
  have hscan := h.scans a
  simp only [PcOk, ScanOk, hpc] at hok hscan
  have hnot := h.no_duty hpc rfl
  simp only [step, hpc] at hs
  split at hs
  · rename_i hnone
    cases hs
    refine h.goto rfl hpc rfl rfl (fun _ _ _ ht => ht) (fun _ => hlock) (fun _ _ hl => hl) ?_ ?_
    · simp only [PcOk, pc_self]
      exact hok
    · simp only [ScanOk, pc_self]
      exact fun entry hmem hkey => List.find?_eq_none.mp hnone entry hmem (decide_eq_true hkey)
  rename_i entry hentry
  obtain ⟨hmem, hkey⟩ := find_key hentry
  have hid := hscan entry hmem hkey
  rw [if_pos (strong_ne_zero.mpr hid)] at hs
  cases hs
  refine h.upgraded rfl hpc rfl hid rfl nofun (by grind) ?_ (scanOk_of_unlocked pc_self rfl)
    (fun t ht => absurd ht (hnot t).1) fun t => (hnot t).2
  simp only [PcOk, pc_self]
  exact ⟨hok.1, hok.2, List.mem_cons_self, (h.entries entry hmem).1.trans hkey⟩

/-- A new state is registered, and it is the only one for its root. -/
theorem Inv.registered (howner : d table = .owner) (habsent : ∀ entry ∈ s.roots, entry.1 ≠ table)
    (hunlocked : ∀ b, (s.pc b).locked = false) :
    Inv { s with
      root := update s.root s.next (table, s.lifetime table)
      retired := update s.retired s.next false
      next := s.next + 1
      roots := s.roots ++ [(table, s.next)]
      refs := (none, s.next) :: s.refs } d := by
  -- the states that were there are older, and are what they were
  have hcases : ∀ id, (∃ o, (o, id) ∈ (none, s.next) :: s.refs) → id = s.next ∨ s.Alive id ∧ id < s.next := by
    rintro id ⟨o, ho⟩
    rcases List.mem_cons.mp ho with heq | ho
    · exact .inl (congrArg Prod.snd heq)
    · exact .inr ⟨⟨o, ho⟩, (h.alive id ⟨o, ho⟩).1⟩
  refine .of_parties ?_ ?_ ?_ ?_ ?_ ?_ (h.history.same rfl rfl rfl rfl) fun b => ?_
  · show ((s.roots ++ [(table, s.next)]).map Prod.fst).Nodup
    rw [List.map_append]
    refine List.nodup_append.mpr ⟨h.keys, List.nodup_singleton _, ?_⟩
    intro x hx y hy
    obtain ⟨entry, he, rfl⟩ := List.mem_map.mp hx
    rw [List.mem_singleton.mp hy]
    exact habsent entry he
  · have := h.entries
    simp only [List.mem_append, List.mem_singleton]
    grind
  · intro id hid
    have := h.alive id
    have := hcases id hid
    simp only [List.mem_append, List.mem_singleton]
    grind
  · intro b id
    show ((none, s.next) :: s.refs).count (some b, id) ≤ 1
    rw [List.count_cons_of_ne (by simp)]
    exact h.single b id
  · intro t id hduty
    have hpin := h.pinned t id hduty
    have := (h.alive id hpin.1).1
    obtain ⟨o, ho⟩ := hpin.1
    exact ⟨⟨o, List.mem_cons_of_mem _ ho⟩, by grind, by grind⟩
  · intro id hid hmark
    have := h.marked id
    have := hcases id hid
    grind
  · refine h.frame ⟨Nat.le_succ _, by grind, by grind, ?_⟩ ⟨rfl, fun _ ht => ht,
      fun hl => hl, by simp⟩ (fun _ _ => rfl) (scanOk_of_unlocked rfl (hunlocked b))
    intro id hlt hid
    exact ((hcases id hid).resolve_left hlt.ne).1

theorem Inv.register (hpc : s.pc a = .absent table) {granted : Bool}
    (hs : s.step (.register a granted) = some s') : Inv s' d := by
  have hlock := h.lock a (by rw [hpc]; rfl)
  have hok := h.pcs a
  have hscan := h.scans a
  simp only [PcOk, ScanOk, hpc] at hok hscan
  have hidle : Inv ({ s with lock := none, acquiring := s.acquiring.erase (a, table) }.goto a .idle) d := by
    refine h.goto rfl hpc rfl rfl mem_erase_call (fun hl => by cases hl) ?_ (by simp [PcOk])
      (scanOk_of_unlocked pc_self rfl)
    · exact fun b hb hl => absurd (Option.some.inj (hlock.symm.trans hl)).symm hb
  have hunlocked : ∀ b, (({ s with lock := none, acquiring := s.acquiring.erase (a, table) }.goto a .idle).pc
      b).locked = false := by
    intro b
    by_contra hb
    exact nomatch hidle.lock b (by simpa using hb)
  simp only [step, hpc] at hs
  cases granted with
  | false =>
    cases hs
    exact hidle
  | true =>
    cases hs
    exact hidle.registered hok.1 hscan hunlocked

/-- Giving back the one reference of a party that has upgraded it. -/
theorem Inv.erase_own (hat : s.pc a = pc) (hpc : pc.holds = some id) (x : Nat) :
    (some a, x) ∉ s.refs.erase (some a, id) := by
  intro hx
  have hholds := h.held a x (List.mem_of_mem_erase hx)
  rw [hat, hpc] at hholds
  cases hholds
  have hcount := h.single a id
  have hpos := List.count_pos_iff.mpr hx
  rw [List.count_erase_self] at hpos
  omega

/-- An upgraded state becomes a pin: its root is owned, so it cannot have been retired. -/
theorem Inv.check (hpc : s.pc a = .check table id) (hs : s.step (.check a) = some s') : Inv s' d := by
  have hok := h.pcs a
  simp only [PcOk, hpc] at hok
  obtain ⟨howner, -, href, hroot⟩ := hok
  have hnone : ∀ x, (some a, x) ∉ s.refs.erase (some a, id) := h.erase_own hpc rfl
  simp only [step, hpc] at hs
  split at hs
  · rename_i hmark
    have hpin := h.marked id ⟨_, href⟩ hmark
    rw [hroot, howner] at hpin
    cases hpin
  cases hs
  refine h.moved (a := a) ⟨rfl, rfl, rfl, rfl, rfl, rfl, rfl, rfl⟩ ?_
    (fun b hb => ⟨pc_other b hb, mem_erase_call b hb, fun hl => hl, ?_⟩) ?_
      (.idle pc_self ?_ (h.no_duty hpc rfl))
  · intro x
    constructor
    · rintro ⟨o, ho⟩
      rcases List.mem_cons.mp ho with heq | ho
      · cases heq
        exact ⟨_, href⟩
      · exact ⟨o, List.mem_of_mem_erase ho⟩
    · rintro ⟨o, ho⟩
      by_cases heq : (o, x) = (some a, id)
      · cases heq
        exact ⟨none, List.mem_cons_self⟩
      · exact ⟨o, List.mem_cons_of_mem _ ((List.mem_erase_of_ne heq).mpr ho)⟩
  · intro x
    have hne : (some b, x) ≠ (some a, id) := fun heq => hb (Option.some.inj (congrArg Prod.fst heq))
    simp [State.goto, List.mem_erase_of_ne hne]
  · intro b x
    show ((none, id) :: s.refs.erase (some a, id)).count (some b, x) ≤ 1
    rw [List.count_cons_of_ne (by simp)]
    exact (List.Sublist.count_le _ List.erase_sublist).trans (h.single b x)
  · intro x hx
    rcases List.mem_cons.mp hx with heq | hx
    · cases heq
    · exact absurd hx (hnone x)

theorem Inv.clonePin (hmem : (none, id) ∈ s.refs) : Inv { s with refs := (none, id) :: s.refs } d := by
  have halive : ∀ x, ({ s with refs := (none, id) :: s.refs } : State ι).Alive x ↔ s.Alive x := by
    intro x
    simp only [Alive, List.mem_cons]
    grind
  refine .of_parties h.keys h.entries (fun x hx => h.alive x ((halive x).mp hx)) ?_
    (fun t x hd => ⟨(halive x).mpr (h.pinned t x hd).1, (h.pinned t x hd).2⟩)
      (fun x hx => h.marked x ((halive x).mp hx))
    (h.history.same rfl rfl rfl rfl) fun b => ?_
  · intro b x
    show ((none, id) :: s.refs).count (some b, x) ≤ 1
    rw [List.count_cons_of_ne (by simp)]
    exact h.single b x
  · exact h.frame ⟨Nat.le_refl _, fun _ _ => rfl, fun _ _ => .inl rfl, fun x _ => (halive x).mp⟩
      ⟨rfl, fun _ ht => ht, fun hl => hl, by simp⟩ (fun _ _ => rfl)
      ((h.scans b).frame rfl rfl fun x => (halive x).mpr)

/-! ## Steps that pass a duty on -/

/-- Living states of one root are one state. -/
theorem Inv.alive_unique {y : Nat} (hx : s.Alive x) (hy : s.Alive y)
    (hroot : (s.root x).1 = (s.root y).1) : x = y := by
  have hx' := (h.alive x hx).2.2.1
  have hy' := (h.alive y hy).2.2.1
  have heq := List.inj_on_of_nodup_map h.keys hx' hy' hroot
  exact congrArg Prod.snd heq

theorem Inv.drops_self (hdrop : s.Drops a ref) (x : Nat) :
    (some a, x) ∉ s.refs.erase ref := by
  rcases hdrop with ⟨hpc, -⟩ | ⟨t, hpc, hown⟩
  · intro hx
    have hholds := h.held a x (List.mem_of_mem_erase hx)
    rw [hpc] at hholds
    cases hholds
  · have href : ref = (some a, ref.2) := Prod.ext hown rfl
    rw [href]
    exact h.erase_own hpc rfl x

/-- A reference goes that was not the last one. -/
theorem Inv.dropped (hdrop : s.Drops a ref)
    (hacq : ∀ b, b ≠ a → ∀ t, (b, t) ∈ s.acquiring → (b, t) ∈ acquiring)
    (hstill : ∃ o, (o, ref.2) ∈ s.refs.erase ref) :
    Inv ({ s with refs := s.refs.erase ref, acquiring := acquiring }.goto a .idle) d := by
  refine h.moved (a := a) ⟨rfl, rfl, rfl, rfl, rfl, rfl, rfl, rfl⟩ ?_
    (fun b hb => ⟨pc_other b hb, hacq b hb, fun hl => hl, fun x => List.mem_erase_of_ne (hdrop.other hb x)⟩)
    (fun b x => (List.Sublist.count_le _ List.erase_sublist).trans (h.single b x))
    (.idle pc_self (h.drops_self hdrop) (h.no_duty rfl hdrop.busy))
  intro x
  constructor
  · rintro ⟨o, ho⟩
    exact ⟨o, List.mem_of_mem_erase ho⟩
  · rintro ⟨o, ho⟩
    by_cases heq : (o, x) = ref
    · have hx : x = ref.2 := congrArg Prod.snd heq
      exact hx ▸ hstill
    · exact ⟨o, (List.mem_erase_of_ne heq).mpr ho⟩

include hdrop hmem hacq in
/-- **The last reference goes**, and with it the duty, if the state was retired. -/
theorem Inv.droppedLast
        (hlast : ∀ o, (o, ref.2) ∉ s.refs.erase ref) (hscans : ∀ b, b ≠ a →
      ({ s with refs := s.refs.erase ref, acquiring := acquiring }.goto a
        (.final (s.root ref.2).1 ref.2)).ScanOk b) :
    ∃ d', Inv ({ s with refs := s.refs.erase ref, acquiring := acquiring }.goto a
      (.final (s.root ref.2).1 ref.2)) d' := by
  have hwas : s.Alive ref.2 := ⟨ref.1, hmem⟩
  have hlt := (h.alive _ hwas).1
  have hcases : ∀ x, (∃ o, (o, x) ∈ s.refs.erase ref) → s.Alive x ∧ x ≠ ref.2 ∧
    (s.root x).1 ≠ (s.root ref.2).1 := by
    rintro x ⟨o, ho⟩
    have hx : s.Alive x := ⟨o, List.mem_of_mem_erase ho⟩
    have hne : x ≠ ref.2 := fun heq => hlast o (heq ▸ ho)
    exact ⟨hx, hne, fun heq => hne (h.alive_unique hx hwas heq)⟩
  have hpin : s.retired ref.2 = true → d (s.root ref.2).1 = .lastPin ref.2 := h.marked ref.2 hwas
  -- the duty moves to `a` exactly if the state was retired
  obtain ⟨d', hd'⟩ : ∃ d' : Nat → Duty ι, ∀ t, d' t =
      if s.retired ref.2 = true ∧ t = (s.root ref.2).1 then .destroyer a else d t := ⟨_, fun _ => rfl⟩
  have hother : ∀ t, t ≠ (s.root ref.2).1 → d' t = d t := by grind
  refine ⟨d', .of_parties h.keys h.entries ?_
    (fun b x => (List.Sublist.count_le _ List.erase_sublist).trans (h.single b x)) ?_ ?_ ?_ fun b => ?_⟩
  · intro x hx
    obtain ⟨hx', -, hne⟩ := hcases x hx
    obtain ⟨hxlt, hlife, hin, hserves⟩ := h.alive x hx'
    exact ⟨hxlt, hlife, hin, (hother _ hne).symm ▸ hserves⟩
  · intro t x hduty
    have hduty' : d t = .lastPin x := by grind
    obtain ⟨hx, hmark, hkey⟩ := h.pinned t x hduty'
    refine ⟨hx.erase ?_, hmark, hkey⟩
    rintro rfl
    simp [hd', hmark, ← hkey] at hduty
  · intro x hx hmark
    obtain ⟨hx', -, hne⟩ := hcases x hx
    exact (hother _ hne).trans (h.marked x hx' hmark)
  · by_cases hmark : s.retired ref.2 = true
    · have heq : d' = update d (s.root ref.2).1 (.destroyer a) := funext fun t => by grind
      rw [heq]
      refine History.same (History.pass h.history ?_ trivial) rfl rfl rfl rfl
      rw [hpin hmark]
      trivial
    · have heq : d' = d := funext fun t => by grind
      rw [heq]
      exact h.history.same rfl rfl rfl rfl
  · by_cases hb : b = a
    · subst hb
      have hnot := h.no_duty rfl hdrop.busy
      refine ⟨fun x hx => absurd hx (h.drops_self hdrop x), ?_, ?_, scanOk_of_unlocked pc_self rfl, ?_, ?_⟩
      · rw [pc_self]
        nofun
      · simp only [PcOk, pc_self]
        refine ⟨fun ⟨o, ho⟩ => hlast o ho, hlt, fun hmark => ?_⟩
        have hmark' : s.retired ref.2 = true := hmark
        rw [hd', if_pos ⟨hmark', rfl⟩]
      · grind
      · intro t hduty
        obtain ⟨rfl, hmark⟩ : t = (s.root ref.2).1 ∧ s.retired ref.2 = true := by grind
        exact .inr ⟨ref.2, pc_self, hmark⟩
    · refine h.frame ⟨Nat.le_refl _, fun _ _ => rfl, fun _ _ => .inl rfl, fun x _ hx => (hcases x hx).1⟩
        ⟨pc_other b hb, hacq b hb, fun hl => hl, fun x => List.mem_erase_of_ne (hdrop.other hb x)⟩
          (by grind) (hscans b hb)

/-- A duty of `table` passes from a party, or from its owner, to a party. Nothing else changes but the place
    of that party and the record of what was asked for and done. -/
theorem Inv.passed (owned : Nat → Bool) {retirements destroyed : List (Nat × Nat)}
    (hs : s' = { s with owned := owned, retirements := retirements, destroyed := destroyed }.goto a pc)
    (hat : s.pc a = pc₀) (hheld : pc₀.holds = none) (hunlocked : pc.locked = false)
    (hserves : ∀ id, s.Alive id → (s.root id).1 = table → duty.Serves id)
    (hwas : ∀ id, d table ≠ .lastPin id) (hnow : ∀ id, duty ≠ .lastPin id)
    (hfree : ∀ b, b ≠ a → ¬ (d table = .owner ∧ (b, table) ∈ s.acquiring) ∧ d table ≠ .caller b ∧
      d table ≠ .destroyer b ∧ duty ≠ .caller b ∧ duty ≠ .destroyer b) (hok : s'.PcOk (update d table duty) a)
    (hcalls : ∀ t, update d table duty t = .caller a → s'.Calls a t)
    (hends : ∀ t, update d table duty t = .destroyer a → s'.Ends a t)
    (hhistory : History s' (update d table duty)) : Inv s' (update d table duty) := by
  subst hs
  refine .of_parties h.keys h.entries ?_ h.single ?_ ?_ hhistory fun b => ?_
  · intro id hid
    have := h.alive id hid
    have := hserves id hid
    simp only [State.goto]
    grind
  · intro t id hduty
    have := h.pinned t id
    exact this (by grind)
  · intro id hid hmark
    have := h.marked id hid hmark
    simp only [State.goto]
    grind
  · by_cases hb : b = a
    · subst hb
      refine ⟨fun id href => (nomatch (hat ▸ hheld).symm.trans (h.held b id href)), ?_, hok,
        scanOk_of_unlocked pc_self hunlocked, hcalls, hends⟩
      rw [pc_self, hunlocked]
      nofun
    · have := hfree b hb
      exact h.frame ⟨Nat.le_refl _, fun _ _ => rfl, fun _ _ => .inl rfl, fun _ _ hid => hid⟩
        ⟨pc_other b hb, fun _ ht => ht, fun hl => hl, fun _ => .rfl⟩ (by grind)
        ((h.scans b).frame (pc_other b hb) rfl fun _ hid => hid)

/-! ### Retiring -/

/-- The owner's duty goes to the caller of `retire`, which nobody can be pinning for. -/
theorem Inv.startRetire (hpc : s.pc a = .idle) (howned : s.owned table = true)
    (hcalm : ∀ call ∈ s.acquiring, call.2 ≠ table) :
    Inv ({ s with
      owned := update s.owned table false
      retirements := (table, s.lifetime table) :: s.retirements }.goto a (.retireLock table))
      (update d table (.caller a)) := by
  have howner := (h.history.owned table).mp howned
  have hnot := h.no_duty hpc rfl
  refine h.passed _ rfl hpc rfl rfl (fun _ _ _ => .inr (.inl ⟨a, rfl⟩)) (by grind)
    (by grind) ?_ (by simp [PcOk]) ?_ (by grind) ?_
  · intro b _
    exact ⟨fun hacq => hcalm _ hacq.2 rfl, by grind, by grind, by grind, by grind⟩
  · intro t ht
    obtain rfl : t = table := by grind
    exact .inl pc_self
  · obtain ⟨iowned, ifresh, ipast, ionce, iasked, ireleased, idue⟩ := h.history
    constructor <;> simp only [State.goto] <;> grind

/-- Without a living state the caller of `retire` destroys the table itself. -/
theorem Inv.retireAbsent (hpc : s.pc a = .retireLock table)
    (habsent : ∀ id, s.Alive id → (s.root id).1 ≠ table) :
    Inv (s.goto a (.destroy table)) (update d table (.destroyer a)) := by
  have hcaller := h.pcs a
  simp only [PcOk, hpc] at hcaller
  refine h.passed s.owned rfl hpc rfl rfl (fun id hid heq => absurd heq (habsent id hid)) (by grind)
    (by grind) (by grind) (by simp [PcOk]) ?_ ?_
      (History.same (h.history.pass (by simp [hcaller, Duty.Due]) trivial) rfl rfl rfl rfl)
  · intro t ht
    have := h.callers t a
    grind
  · intro t ht
    have := h.destroyers t a
    grind

theorem Inv.retire (hpc : s.pc a = .retireLock table) (hlock : s.lock = none)
    (hs : s.step (.retire a) = some s') : ∃ d', Inv s' d' := by
  have hcaller := h.pcs a
  simp only [PcOk, hpc] at hcaller
  simp only [step, hpc, hlock] at hs
  split at hs
  · rename_i hnone
    cases hs
    refine ⟨_, h.retireAbsent hpc ?_⟩
    intro id hid heq
    exact List.find?_eq_none.mp hnone _ (h.alive id hid).2.2.1 (decide_eq_true heq)
  rename_i entry hentry
  obtain ⟨hmem, hkey⟩ := find_key hentry
  split at hs
  · rename_i hstrong
    cases hs
    refine ⟨d, h.upgraded rfl hpc rfl (strong_ne_zero.mp hstrong) rfl (fun _ => rfl) (by grind) ?_
      (by simp [ScanOk]) ?_ ?_⟩
    · simp only [PcOk, pc_self]
      exact ⟨hcaller, List.mem_cons_self, (h.entries entry hmem).1.trans hkey⟩
    · intro t ht
      have := h.callers t a ht
      obtain rfl : table = t := by grind
      exact .inr ⟨_, pc_self⟩
    · intro t ht
      have := h.destroyers t a ht
      grind
  · -- the one entry of the root is dead, so no state of it is alive
    rename_i hstrong
    cases hs
    refine ⟨_, h.retireAbsent hpc ?_⟩
    intro id hid heq
    have hin := (h.alive id hid).2.2.1
    have hsame := List.inj_on_of_nodup_map h.keys hin hmem (heq.trans hkey.symm)
    have hid' : id = entry.2 := congrArg Prod.snd hsame
    exact hstrong (strong_ne_zero.mpr (hid' ▸ hid))

/-- The mark makes the last pin responsible. -/
theorem Inv.store (hpc : s.pc a = .retireStore table id) :
    Inv ({ s with retired := update s.retired id true, lock := none }.goto a (.dropRef table id))
      (update d table (.lastPin id)) := by
  have hlock := h.lock a (by rw [hpc]; rfl)
  have hok := h.pcs a
  simp only [PcOk, hpc] at hok
  obtain ⟨hcaller, href, hroot⟩ := hok
  have hid : s.Alive id := ⟨_, href⟩
  have halive : ∀ x, s.Alive x → (s.root x).1 = table → x = id :=
    fun x hx heq => h.alive_unique hx hid (heq.trans hroot.symm)
  refine .of_parties h.keys h.entries ?_ h.single ?_ ?_
    (History.same (h.history.pass (by simp [hcaller, Duty.Due]) trivial) rfl rfl rfl rfl) fun b => ?_
  · intro x hx
    have := h.alive x hx
    have := halive x hx
    simp only [State.goto]
    grind
  · intro t x hduty
    by_cases ht : t = table
    · obtain rfl : x = id := by grind
      exact ⟨hid, update_self _ _ _, hroot.trans ht.symm⟩
    · obtain ⟨hx, hm, hkey⟩ := h.pinned t x (by grind)
      exact ⟨hx, by simp only [State.goto]; grind, hkey⟩
  · intro x hx hm
    have := h.marked x hx
    have := halive x hx
    simp only [State.goto] at hm ⊢
    grind
  · by_cases hb : b = a
    · subst hb
      refine ⟨?_, by simp [Pc.locked], ?_, scanOk_of_unlocked pc_self rfl, ?_, ?_⟩
      · intro x hx
        have := h.held b x hx
        grind
      · simp only [PcOk, pc_self]
        exact ⟨href, hroot, update_self _ _ _⟩
      · intro t ht
        have := h.callers t b
        grind
      · intro t ht
        have := h.destroyers t b
        grind
    · refine h.frame ⟨Nat.le_refl _, fun _ _ => rfl, ?_, fun _ _ hx => hx⟩
        ⟨pc_other b hb, fun _ ht => ht, by grind, fun _ => .rfl⟩ (by grind)
        (scanOk_of_unlocked (pc_other _ hb) (h.unlocked hlock hb))
      intro x _
      simp only [State.goto]
      grind

/-! ### The end of a table -/

/-- **A table is destroyed by whoever has the duty**, and that was the end of it. -/
theorem Inv.destroy (hduty : d table = .destroyer a) (hat : s.pc a = pc) (hheld : pc.holds = none)
    (hcalls : ∀ t, ¬ s.Calls a t) (hends : ∀ t, s.Ends a t → t = table) :
    Inv ((s.destroy table).goto a .idle) (update d table .done) := by
  refine h.passed _ rfl hat hheld rfl ?_ (by grind) (by grind) (by grind) (by simp [PcOk]) ?_ ?_ ?_
  · intro id hid heq
    have := (h.alive id hid).2.2.2
    grind
  · intro t ht
    exact absurd (h.callers t a (by grind)) (hcalls t)
  · intro t ht
    have := hends t (h.destroyers t a (by grind))
    grind
  · have hnew : (table, s.lifetime table) ∉ s.destroyed := by
      intro hin
      have := (h.history.past _ hin).2 rfl
      grind
    obtain ⟨iowned, ifresh, ipast, ionce, iasked, ireleased, idue⟩ := h.history
    constructor <;> simp only [State.goto, State.destroy] <;> grind

/-- An address gets a new life once the last one is over. -/
theorem Inv.create (hover : d table = .nobody ∨ d table = .done)
    (hended : ∀ root ∈ s.retirements, root.1 = table → root ∈ s.destroyed) :
    Inv { s with
      owned := update s.owned table true
      lifetime := update s.lifetime table (s.lifetime table + 1) } (update d table .owner) := by
  have hdead : ∀ id, s.Alive id → (s.root id).1 ≠ table := by
    intro id hid heq
    have := (h.alive id hid).2.2.2
    grind
  refine .of_parties h.keys h.entries ?_ h.single ?_ ?_ ?_ fun b => ?_
  · intro id hid
    have := h.alive id hid
    have := hdead id hid
    grind
  · intro t id hduty
    exact h.pinned t id (by grind)
  · intro id hid hmark
    have := h.marked id hid hmark
    have := hdead id hid
    grind
  · obtain ⟨iowned, ifresh, ipast, ionce, iasked, ireleased, idue⟩ := h.history
    constructor <;> grind
  · exact h.frame ⟨Nat.le_refl _, fun _ _ => rfl, fun _ _ => .inl rfl, fun _ _ hx => hx⟩
      ⟨rfl, fun _ ht => ht, fun hl => hl, fun _ => .rfl⟩ (by grind) ((h.scans b).frame rfl rfl fun _ hx => hx)

/-! ## Every step -/

include hdrop hmem hacq in
/-- One reference is dropped: `Inv.dropped` or `Inv.droppedLast`, whichever it comes to. -/
theorem Inv.release
        (htable : (s.root ref.2).1 = table) (hscans : s.strong ref.2 = 1 → ∀ b, b ≠ a →
      (∀ t index, s.pc b = .scan t index → (t, ref.2) ∉ s.roots.take index) ∧
        ∀ t, s.pc b = .lookup t → (t, ref.2) ∉ s.roots) :
    ∃ d', Inv (({ s with acquiring := acquiring } : State ι).release a table ref) d' := by
  have hstrong : ({ s with refs := s.refs.erase ref, acquiring := acquiring } : State ι).strong ref.2 + 1 =
      s.strong ref.2 := by
    show (s.refs.erase ref).countP (fun r => r.2 = ref.2) + 1 = s.refs.countP fun r => r.2 = ref.2
    rw [List.countP_erase, if_pos ⟨hmem, decide_eq_true rfl⟩]
    have hpos := strong_ne_zero.mpr ⟨ref.1, hmem⟩
    rw [strong] at hpos
    omega
  unfold State.release
  dsimp only
  by_cases hzero : ({ s with refs := s.refs.erase ref, acquiring := acquiring } : State ι).strong ref.2 = 0
  · rw [if_pos hzero, ← htable]
    have hlast : ∀ o, (o, ref.2) ∉ s.refs.erase ref := fun o ho =>
      (strong_ne_zero (s := { s with refs := s.refs.erase ref, acquiring := acquiring })).mpr ⟨o, ho⟩ hzero
    refine h.droppedLast hdrop hmem hacq hlast ?_
    intro b hb
    obtain ⟨hscan, hlookup⟩ := hscans (by omega) b hb
    have hb' := h.scans b
    unfold ScanOk at hb' ⊢
    rw [pc_other _ hb]
    -- a state that was seen alive is not the one that is gone
    cases hplace : s.pc b with
    | scan t index =>
      simp only [hplace] at hb' ⊢
      intro entry hentry hkey
      exact (hb' entry hentry hkey).erase fun heq => hscan t index hplace (heq ▸ hkey ▸ hentry)
    | lookup t =>
      simp only [hplace] at hb' ⊢
      intro entry hentry hkey
      exact (hb' entry hentry hkey).erase fun heq => hlookup t hplace (heq ▸ hkey ▸ hentry)
    | absent t =>
      simp only [hplace] at hb' ⊢
      exact hb'
    | idle | pinLock _ | check _ _ | retireLock _ | retireStore _ _ | dropRef _ _
    | final _ _ | destroy _ => trivial
  · rw [if_neg hzero]
    exact ⟨d, h.dropped hdrop hacq (strong_ne_zero.mp hzero)⟩

theorem Inv.step {l : Label ι} (hok : s.steady l = true) (hs : s.step l = some s') :
    ∃ d', Inv s' d' := by
  have hs' := hs
  cases l with simp only [State.step, Option.ite_none_right_eq_some] at hs
  | create table =>
    obtain ⟨hguard, hs⟩ := hs
    cases hs
    obtain ⟨howned, hover⟩ := hguard
    have hd : d table = .nobody ∨ d table = .done :=
      hover.imp (h.history.fresh table) fun hin => (h.history.past _ hin).2 rfl
    refine ⟨_, h.create hd ?_⟩
    intro root hroot heq
    rcases h.history.due root hroot with hdone | ⟨-, hdue⟩
    · exact hdone
    · rw [heq] at hdue
      rcases hd with hd | hd <;> rw [hd] at hdue <;> exact hdue.elim
  | startPin a table =>
    obtain ⟨hguard, hs⟩ := hs
    split at hs
    · cases hs
      exact ⟨d, h⟩
    · cases hs
      exact ⟨d, h.startPin hguard.1 hguard.2⟩
  | lockPin a =>
    split at hs
    · rename_i table hpc hlock
      cases hs
      exact ⟨d, h.lockPin hpc hlock⟩
    · cases hs
  | scan a =>
    split at hs
    · rename_i table index hpc
      exact ⟨d, h.scan hpc hs'⟩
    · cases hs
  | lookup a =>
    split at hs
    · rename_i table hpc
      exact ⟨d, h.lookup hpc hs'⟩
    · cases hs
  | register a granted =>
    split at hs
    · rename_i table hpc
      exact ⟨d, h.register hpc hs'⟩
    · cases hs
  | check a =>
    split at hs
    · rename_i table id hpc
      exact ⟨d, h.check hpc hs'⟩
    · cases hs
  | clonePin id =>
    obtain ⟨hmem, hs⟩ := hs
    cases hs
    exact ⟨d, h.clonePin hmem⟩
  | dropPin a id =>
    obtain ⟨hguard, hs⟩ := hs
    cases hs
    refine h.release (.inl ⟨hguard.1, rfl⟩) hguard.2 (fun _ _ _ ht => ht) rfl ?_
    intro hone b _
    -- only the holder of the lock can be in the scan, and the condition speaks of it
    have hone' : s.strong id = 1 := hone
    simp only [steady, hone', ne_eq, not_true, decide_false, Bool.false_or] at hok
    constructor
    · intro t index hpc
      rw [h.lock b (by rw [hpc]; rfl)] at hok
      simpa [hpc] using hok
    · intro t hpc
      rw [h.lock b (by rw [hpc]; rfl)] at hok
      simpa [hpc] using hok
  | startRetire a table =>
    obtain ⟨hguard, hs⟩ := hs
    cases hs
    exact ⟨_, h.startRetire hguard.1 hguard.2.1 hguard.2.2⟩
  | retire a =>
    split at hs
    · rename_i table hpc hlock
      exact h.retire hpc hlock hs'
    · cases hs
  | store a =>
    split at hs
    · rename_i table id hpc
      cases hs
      exact ⟨_, h.store hpc⟩
    · cases hs
  | dropRef a =>
    split at hs
    · rename_i table id hpc
      cases hs
      have hplace := h.pcs a
      simp only [PcOk, hpc] at hplace
      obtain ⟨href, hroot, hmark⟩ := hplace
      refine h.release (.inr ⟨table, hpc, rfl⟩) href mem_erase_call hroot ?_
      -- the state is retired, so its root is not owned and nobody is pinning it
      intro _ b _
      have hpin := h.marked id ⟨_, href⟩ hmark
      have hroot' : ∀ t, (t, id) ∈ s.roots → d t ≠ .owner := by
        intro t ht howner
        have hkey : (s.root id).1 = t := (h.entries _ ht).1
        rw [hkey, howner] at hpin
        cases hpin
      have hb := h.pcs b
      unfold PcOk at hb
      constructor
      · intro t index hplace hin
        simp only [hplace] at hb
        exact hroot' t (List.mem_of_mem_take hin) hb.1
      · intro t hplace hin
        simp only [hplace] at hb
        exact hroot' t hin hb.1
    · cases hs
  | final a =>
    split at hs
    · rename_i table id hpc
      have hplace := h.pcs a
      simp only [PcOk, hpc] at hplace
      split at hs
      · rename_i hmark
        cases hs
        exact ⟨_, h.destroy (hplace.2.2 hmark) hpc rfl (by grind) (by grind)⟩
      · rename_i hmark
        cases hs
        refine ⟨d, h.moved (a := a) ⟨rfl, rfl, rfl, rfl, rfl, rfl, rfl, rfl⟩ (fun _ => .rfl)
          (fun b hb => ⟨pc_other b hb, fun _ ht => ht, fun hl => hl, fun _ => .rfl⟩) h.single
            (.idle pc_self ?_ ?_)⟩
        · intro id href
          have := h.held a id href
          grind
        · intro t
          have := h.callers t a
          have := h.destroyers t a
          grind
    · cases hs
  | destroy a =>
    split at hs
    · rename_i table hpc
      cases hs
      have hplace := h.pcs a
      simp only [PcOk, hpc] at hplace
      exact ⟨_, h.destroy hplace hpc rfl (by grind) (by grind)⟩
    · cases hs

end Steps

theorem inv_initial : Inv (initial : State ι) fun _ => .nobody := by
  have hdead : ∀ id, ¬ (initial : State ι).Alive id := fun id ⟨_, ho⟩ => nomatch ho
  refine ⟨List.nodup_nil, nofun, fun id hid => absurd hid (hdead id), nofun, fun _ _ => Nat.zero_le _, nofun,
    fun id hid => absurd hid (hdead id), nofun, fun _ => trivial, fun _ => trivial, nofun, nofun, ?_⟩
  exact ⟨fun _ => ⟨nofun, nofun⟩, fun _ _ => rfl, nofun, List.nodup_nil, nofun, fun _ ht => ht.elim, nofun⟩

end State

/-- **A page table is destroyed once, after its owner has retired it, and under nobody's pin; and a retired
    one without pins is destroyed.** For every run in which no last pin of a root is dropped between the two
    looks of a `pin_with` for that root. The last part is for moments when no call is under way. -/
theorem root_destroyed_once {ι : Type} [DecidableEq ι] (s : State ι)
    (hs : (system ι).Reach (fun s l => s.steady l = true) s) :
    s.destroyed.Nodup ∧ (∀ root ∈ s.destroyed, root ∈ s.retirements) ∧
      (∀ id, (none, id) ∈ s.refs → s.root id ∉ s.destroyed) ∧
      ((∀ a, s.pc a = .idle) → ∀ root ∈ s.retirements, (∀ id, (none, id) ∈ s.refs → s.root id ≠ root) →
        root ∈ s.destroyed) := by
  obtain ⟨d, h⟩ : ∃ d, s.Inv d := by
    refine hs.invariant (I := fun s => ∃ d, s.Inv d) ?_ fun s l s' ⟨d, h⟩ hok hstep => h.step hok hstep
    intro s hinit
    cases hinit
    exact ⟨_, State.inv_initial⟩
  refine ⟨h.history.once, h.history.asked, ?_, ?_⟩
  · intro id hpin hin
    obtain ⟨-, hlife, -, hserves⟩ := h.alive id ⟨none, hpin⟩
    have hdone := (h.history.past _ hin).2 hlife
    rw [hdone] at hserves
    rcases hserves with hd | ⟨a, hd⟩ | hd <;> cases hd
  · intro hidle root hroot hfree
    rcases h.history.due root hroot with hdone | ⟨hnow, hdue⟩
    · exact hdone
    · exfalso
      cases hd : d root.1 with
      | nobody | owner | done =>
        rw [hd] at hdue
        exact hdue
      | caller a =>
        rcases h.callers _ a hd with hc | ⟨id, hc⟩ <;> rw [hidle a] at hc <;> cases hc
      | destroyer a =>
        rcases h.destroyers _ a hd with hc | ⟨id, hc, -⟩ <;> rw [hidle a] at hc <;> cases hc
      | lastPin id =>
        obtain ⟨⟨o, ho⟩, -, hkey⟩ := h.pinned _ id hd
        obtain ⟨-, hlife, -⟩ := h.alive id ⟨o, ho⟩
        cases o with
        | none =>
          refine hfree id ho (Prod.ext hkey ?_)
          rw [hlife, hkey, hnow]
        | some a =>
          have hholds := h.held a id ho
          rw [hidle a] at hholds
          cases hholds

/-- Party 0 pins the root at 4096; party 1 starts to pin it too and has seen the state alive. -/
def secondLook : List (Label (Fin 2)) :=
  [.create 4096, .startPin 0 4096, .lockPin 0, .scan 0, .lookup 0, .register 0 true,
    .startPin 1 4096, .lockPin 1, .scan 1, .scan 1]

/-- The pin is cloned and dropped, the root retired with a pin left, and destroyed with the last one. -/
theorem root_destroyed_once_secondLook :
    ∃ s : State (Fin 2), (system (Fin 2)).Reach (fun s l => s.steady l = true) s ∧
      s.retirements = [(4096, 1)] ∧ s.destroyed = [(4096, 1)] ∧ s.destroyed.Nodup := by
  obtain ⟨s, hs, hretired, hrefs, hidle⟩ := System.reach_of_exec (system (Fin 2)) State.steady .initial
    (secondLook ++ [.lookup 1, .check 1, .clonePin 0, .dropPin 0 0, .dropPin 0 0,
      .startRetire 0 4096, .retire 0, .store 0, .dropRef 0, .dropPin 1 0, .final 1])
    (fun s => s.retirements = [(4096, 1)] ∧ s.refs = [] ∧ ∀ a, s.pc a = .idle) rfl (by decide +kernel)
  obtain ⟨honce, hasked, -, hdone⟩ := root_destroyed_once s hs
  have hin : (4096, 1) ∈ s.destroyed := by
    refine hdone hidle _ (by rw [hretired]; exact List.mem_singleton_self _) ?_
    intro id hid
    rw [hrefs] at hid
    cases hid
  refine ⟨s, hs, hretired, ?_, honce⟩
  have hall : ∀ root ∈ s.destroyed, root = (4096, 1) := fun root hroot =>
    List.mem_singleton.mp (hretired ▸ hasked root hroot)
  have hrep := List.eq_replicate_of_mem hall
  have hlen : s.destroyed.length = 1 := by
    have hle : s.destroyed.length ≤ 1 := by
      rw [hrep] at honce
      exact List.nodup_replicate.mp honce
    have hpos := List.length_pos_of_mem hin
    omega
  rw [hrep, hlen]
  rfl

/-- **A table destroyed under a pin.** Party 0 drops the only pin after party 1 has seen the state alive. The
    upgrade fails and party 1 registers a second state behind the dead one. `retire` finds the dead one first,
    answers `false`, and its caller destroys the table. -/
theorem root_destroyed_under_pin :
    ∃ s : State (Fin 2), (system (Fin 2)).Reachable s ∧ (4096, 1) ∈ s.destroyed ∧ (none, 1) ∈ s.refs ∧
      s.root 1 = (4096, 1) := by
  exact System.reachable_of_exec (system (Fin 2)) .initial
    (secondLook ++ [.dropPin 0 0, .final 0, .lookup 1, .register 1 true, .startRetire 0 4096,
      .retire 0, .destroy 0])
    _ rfl (by decide +kernel)

end RootLifetime

end Mnu.Mem
