import Mnu.Lib.Except
import Mnu.Lib.SortedMap

/-!
# `Mnu.Task.LaunchContext` — the launch context of a process

Model of `LaunchContext` (`src/task/launch_context.rs`): two maps from keys that user space defines, one to
handles of the process and one to values. A handle is a plain selector here: whether the process has an object
under it is not for the context to know.

What each operation does to the handles is stated on the names `(key, handle)` (`Names`); the new context that
an image replacement prepares names nothing but what was named before and what the caller has found valid
(`names_patched`).
-/

namespace Mnu.Task

open Mnu.Lib

/-- `PROCESS_MAX_INHERITED_HANDLES`. -/
def processMaxInheritedHandles : Nat := 256

/-- `PROCESS_MAX_INHERITED_VALUES`. -/
def processMaxInheritedValues : Nat := 256

/-- `u32::try_from(raw).ok().and_then(ObjectHandle::from_raw)` -/
def objectHandle (raw : Nat) : Option Nat := if raw < 2 ^ 32 ∧ raw ≠ 0 then some raw else none

/-- `mnu_abi::process_image::ContextUpdate`, with every other number as `other`. -/
inductive ContextUpdate where
  | setHandle (key value : Nat)
  | removeHandle (key : Nat)
  | setValue (key value : Nat)
  | removeValue (key : Nat)
  | other
  deriving DecidableEq, Repr

/-- The errors of the context among those of `Error`. -/
inductive ContextError where
  | alreadyExists
  | invalidArgument
  | resourceUnavailable
  deriving DecidableEq, Repr

/-- What a process inherits. -/
structure LaunchContext where
  inheritedHandles : SortedMap Nat Nat
  inheritedValues : SortedMap Nat Nat

/-- `Entries::insert`; only a new key needs room. -/
def insertEntry (entries : SortedMap Nat Nat) (key value : Nat) (room : Bool) : Option (SortedMap Nat Nat) :=
  if entries.containsKey key || room then some (entries.insert key value) else none

/-- The body of `set` and `set_value`; `none` is `false`. -/
def setEntry (entries : SortedMap Nat Nat) (limit key value : Nat) (room : Bool) :
    Option (SortedMap Nat Nat) :=
  if limit ≤ entries.entries.length && !entries.containsKey key then none
    else insertEntry entries key value room

/-- The body of `install` and `install_value`. -/
def installEntry (entries : SortedMap Nat Nat) (limit key value : Nat) (room : Bool) :
    Except ContextError (SortedMap Nat Nat) :=
  if entries.containsKey key then .error .alreadyExists
  else if limit ≤ entries.entries.length then .error .resourceUnavailable
  else
    match insertEntry entries key value room with
    | some entries => .ok entries
    | none => .error .resourceUnavailable

namespace LaunchContext

/-- `new`. -/
def new : LaunchContext := ⟨.empty, .empty⟩

/-- `get`. -/
def get (c : LaunchContext) (key : Nat) : Option Nat := c.inheritedHandles.get key

/-- `install`: a key that is not in use. -/
def install (c : LaunchContext) (key handle : Nat) (room : Bool) : Except ContextError LaunchContext :=
  (installEntry c.inheritedHandles processMaxInheritedHandles key handle room).map fun handles =>
    { c with inheritedHandles := handles }

/-- `set`: a new key, or another handle for an old one. -/
def set (c : LaunchContext) (key handle : Nat) (room : Bool) : Option LaunchContext :=
  (setEntry c.inheritedHandles processMaxInheritedHandles key handle room).map fun handles =>
    { c with inheritedHandles := handles }

/-- `take`. -/
def take (c : LaunchContext) (key : Nat) : LaunchContext :=
  { c with inheritedHandles := c.inheritedHandles.remove key }

/-- `remove_handle` -/
def removeHandle (c : LaunchContext) (handle : Nat) : LaunchContext :=
  { c with inheritedHandles := c.inheritedHandles.retain fun _ inherited => inherited ≠ handle }

/-- `references_handle` -/
def referencesHandle (c : LaunchContext) (handle : Nat) : Bool :=
  c.inheritedHandles.values.any fun inherited => inherited = handle

/-- `install_value` -/
def installValue (c : LaunchContext) (key value : Nat) (room : Bool) : Except ContextError LaunchContext :=
  (installEntry c.inheritedValues processMaxInheritedValues key value room).map fun values =>
    { c with inheritedValues := values }

/-- `set_value` -/
def setValue (c : LaunchContext) (key value : Nat) (room : Bool) : Option LaunchContext :=
  (setEntry c.inheritedValues processMaxInheritedValues key value room).map fun values =>
    { c with inheritedValues := values }

/-- `remove_value` -/
def removeValue (c : LaunchContext) (key : Nat) : LaunchContext :=
  { c with inheritedValues := c.inheritedValues.remove key }

/-- The first loop of `patched`: every update is checked, and the entries are counted. -/
def countPatched (c : LaunchContext) (validHandle : Nat → Bool) (handles values : Nat) :
    List ContextUpdate → Except ContextError (Nat × Nat)
  | [] => .ok (handles, values)
  | .setHandle key value :: rest =>
    match objectHandle value with
    | none => .error .invalidArgument
    | some handle =>
      if !validHandle handle then .error .invalidArgument
      else countPatched c validHandle (handles + (!c.inheritedHandles.containsKey key).toNat) values rest
  | .removeHandle key :: rest =>
    let present := (c.inheritedHandles.containsKey key).toNat
    if handles < present then .error .invalidArgument
    else countPatched c validHandle (handles - present) values rest
  | .setValue key _ :: rest =>
    countPatched c validHandle handles (values + (!c.inheritedValues.containsKey key).toNat) rest
  | .removeValue key :: rest =>
    let present := (c.inheritedValues.containsKey key).toNat
    if values < present then .error .invalidArgument
    else countPatched c validHandle handles (values - present) rest
  | .other :: _ => .error .invalidArgument

/-- The second loop: removals. -/
def applyRemoval (c : LaunchContext) : ContextUpdate → LaunchContext
  | .removeHandle key => c.take key
  | .removeValue key => c.removeValue key
  | _ => c

/-- The third loop: what is set. -/
def applySet (c : LaunchContext) (room : Bool) : ContextUpdate → Except ContextError LaunchContext
  | .setHandle key value =>
    match objectHandle (value % 2 ^ 32) with
    | none => .error .invalidArgument
    | some handle =>
      match c.set key handle room with
      | some c => .ok c
      | none => .error .resourceUnavailable
  | .setValue key value =>
    match c.setValue key value room with
    | some c => .ok c
    | none => .error .resourceUnavailable
  | _ => .ok c

/-- `patched`; `copied` says whether there is memory for the two copies, `room` whether there is more if they
    should need it. -/
def patched (c : LaunchContext) (updates : List ContextUpdate) (validHandle : Nat → Bool)
    (copied room : Bool) : Except ContextError LaunchContext := do
  let (handles, values) ←
    c.countPatched validHandle c.inheritedHandles.entries.length c.inheritedValues.entries.length updates
  if processMaxInheritedHandles < handles || processMaxInheritedValues < values || !copied then
    .error .resourceUnavailable
  else updates.foldlM (fun prepared update => prepared.applySet room update) (updates.foldl applyRemoval c)

/-! ## What a context names -/

/-- The context has this handle under the key. -/
def Names (c : LaunchContext) (key handle : Nat) : Prop := (key, handle) ∈ c.inheritedHandles.entries

variable {c c' : LaunchContext} {key handle k h v handles values : Nat} {room : Bool}

theorem get_eq_some : c.get key = some handle ↔ c.Names key handle := SortedMap.get_eq_some

theorem names_new : ¬ new.Names key handle := nofun

theorem referencesHandle_iff : c.referencesHandle handle = true ↔ ∃ key, c.Names key handle := by
  simp [referencesHandle, SortedMap.values, Names]

theorem names_take : (c.take k).Names key handle ↔ c.Names key handle ∧ key ≠ k := SortedMap.mem_remove

theorem names_removeHandle : (c.removeHandle h).Names key handle ↔ c.Names key handle ∧ handle ≠ h := by
  refine SortedMap.mem_retain.trans ?_
  simp [Names]

theorem insertEntry_eq {entries entries' : SortedMap Nat Nat}
    (h : insertEntry entries k v room = some entries') : entries' = entries.insert k v := by
  unfold insertEntry at h
  split at h
  · exact (Option.some.inj h).symm
  · cases h

/-- The key names its new handle. -/
theorem names_set (hs : c.set k h room = some c') :
    c'.Names key handle ↔ key = k ∧ handle = h ∨ c.Names key handle ∧ key ≠ k := by
  obtain ⟨entries, hset, rfl⟩ := Option.map_eq_some_iff.mp hs
  unfold setEntry at hset
  split at hset
  · cases hset
  rw [insertEntry_eq hset]
  refine SortedMap.mem_insert.trans ?_
  rw [Prod.mk.injEq]
  rfl

theorem names_install (hi : c.install k h room = .ok c') :
    c'.Names key handle ↔ key = k ∧ handle = h ∨ c.Names key handle ∧ key ≠ k := by
  unfold install installEntry at hi
  split at hi
  · cases hi
  split at hi
  · cases hi
  split at hi
  · rename_i entries hinsert
    cases hi
    rw [insertEntry_eq hinsert]
    refine SortedMap.mem_insert.trans ?_
    rw [Prod.mk.injEq]
    rfl
  · cases hi

theorem names_setValue (hs : c.setValue k v room = some c') : c'.Names key handle ↔ c.Names key handle := by
  obtain ⟨_, _, rfl⟩ := Option.map_eq_some_iff.mp hs
  exact Iff.rfl

theorem names_installValue (hi : c.installValue k v room = .ok c') :
    c'.Names key handle ↔ c.Names key handle := by
  unfold installValue at hi
  cases hentry : installEntry c.inheritedValues processMaxInheritedValues k v room with
  | error e =>
    rw [hentry] at hi
    cases hi
  | ok values =>
    rw [hentry] at hi
    cases hi
    exact Iff.rfl

theorem objectHandle_eq {raw : Nat} (h : objectHandle raw = some handle) : handle = raw ∧ raw < 2 ^ 32 := by
  unfold objectHandle at h
  split at h
  · rename_i hraw
    exact ⟨(Option.some.inj h).symm, hraw.1⟩
  · cases h

/-! ## The context that is prepared -/

/-- The pairs of key and handle that are set, the keys whose handles are removed, and the same for values. -/
def setHandles (updates : List ContextUpdate) : List (Nat × Nat) :=
  updates.filterMap fun | .setHandle key value => some (key, value) | _ => none

/-- The handles that are removed. -/
def removedHandles (updates : List ContextUpdate) : List Nat :=
  updates.filterMap fun | .removeHandle key => some key | _ => none

/-- The values that are set. -/
def setValues (updates : List ContextUpdate) : List (Nat × Nat) :=
  updates.filterMap fun | .setValue key value => some (key, value) | _ => none

/-- The values that are removed. -/
def removedValues (updates : List ContextUpdate) : List Nat :=
  updates.filterMap fun | .removeValue key => some key | _ => none

/-- What the first loop accepts. -/
def accepts (valid : Nat → Bool) : ContextUpdate → Bool
  | .setHandle _ value => (objectHandle value).any valid
  | .other => false
  | _ => true

/-- The context with the removed keys deleted and the set keys bound to their new values. -/
def edited (c : LaunchContext) (updates : List ContextUpdate) : LaunchContext :=
  ⟨(c.inheritedHandles.removeAll (removedHandles updates)).insertAll (setHandles updates),
    (c.inheritedValues.removeAll (removedValues updates)).insertAll (setValues updates)⟩

variable {valid : Nat → Bool} {updates : List ContextUpdate} {copied : Bool}

theorem accepts_of_countPatched {n : Nat × Nat}
    (h : c.countPatched valid handles values updates = .ok n) :
    ∀ update ∈ updates, accepts valid update = true := by
  induction updates generalizing handles values with
  | nil => exact nofun
  | cons update rest ih =>
    rw [List.forall_mem_cons]
    cases update with rw [countPatched] at h
    | setHandle key value =>
      split at h
      · cases h
      rename_i handle hhandle
      split at h
      · cases h
      rename_i hvalid
      exact ⟨by simpa [accepts, hhandle] using hvalid, ih h⟩
    | removeHandle key | removeValue key =>
      split at h
      · cases h
      · exact ⟨rfl, ih h⟩
    | setValue key value => exact ⟨rfl, ih h⟩
    | other => cases h

/-- The second loop removes. -/
theorem foldl_applyRemoval (c : LaunchContext) (updates : List ContextUpdate) : updates.foldl applyRemoval c =
    ⟨c.inheritedHandles.removeAll (removedHandles updates),
      c.inheritedValues.removeAll (removedValues updates)⟩ := by
  induction updates generalizing c with
  | nil => rfl
  | cons update rest ih =>
    rw [List.foldl_cons, ih]
    cases update <;> rfl

/-- The third loop on one of the maps. -/
def setAll (limit : Nat) (room : Bool) (m : SortedMap Nat Nat) (sets : List (Nat × Nat)) :
    Option (SortedMap Nat Nat) :=
  sets.foldlM (fun m e => setEntry m limit e.1 e.2 room) m

variable {limit : Nat} {m m' : SortedMap Nat Nat} {sets : List (Nat × Nat)}

theorem setAll_cons (e : Nat × Nat) : setAll limit room m (e :: sets) =
    (setEntry m limit e.1 e.2 room).bind fun m => setAll limit room m sets := rfl

/-- The third loop sets. -/
theorem setAll_some (h : setAll limit room m sets = some m') : m' = m.insertAll sets := by
  induction sets generalizing m with
  | nil => exact (Option.some.inj h).symm
  | cons e sets ih =>
    rw [setAll_cons] at h
    obtain ⟨m₁, hset, hrest⟩ := Option.bind_eq_some_iff.mp h
    unfold setEntry at hset
    split at hset
    · cases hset
    rw [ih hrest, insertEntry_eq hset]
    rfl

/-- The two maps are set independently of each other. -/
theorem foldlM_applySet (h : ∀ update ∈ updates, accepts valid update = true) (c : LaunchContext) :
    updates.foldlM (fun prepared update => prepared.applySet room update) c =
      match setAll processMaxInheritedHandles room c.inheritedHandles (setHandles updates),
        setAll processMaxInheritedValues room c.inheritedValues (setValues updates) with
      | some handles, some values => .ok ⟨handles, values⟩
      | _, _ => .error .resourceUnavailable := by
  induction updates generalizing c with
  | nil => rfl
  | cons update rest ih =>
    rw [List.forall_mem_cons] at h
    rw [List.foldlM_cons]
    cases update with
    | setHandle key value =>
      obtain ⟨handle, hhandle, -⟩ := (Option.any_eq_true _ _).mp h.1
      obtain ⟨rfl, hlt⟩ := objectHandle_eq hhandle
      have hsets : setHandles (.setHandle key handle :: rest) = (key, handle) :: setHandles rest := rfl
      simp only [applySet, Nat.mod_eq_of_lt hlt, hhandle, hsets, setAll_cons, LaunchContext.set]
      cases setEntry c.inheritedHandles processMaxInheritedHandles key handle room with
      | none => rfl
      | some handles => exact ih h.2 _
    | setValue key value =>
      have hsets : setValues (.setValue key value :: rest) = (key, value) :: setValues rest := rfl
      have hsame : setHandles (.setValue key value :: rest) = setHandles rest := rfl
      simp only [applySet, hsets, hsame, setAll_cons, LaunchContext.setValue]
      cases setEntry c.inheritedValues processMaxInheritedValues key value room with
      | none => cases setAll processMaxInheritedHandles room c.inheritedHandles (setHandles rest) <;> rfl
      | some values => exact ih h.2 _
    | removeHandle | removeValue | other => exact ih h.2 c

/-- **A prepared context is the edited one.** -/
theorem patched_ok (h : c.patched updates valid copied room = .ok c') :
    (∀ update ∈ updates, accepts valid update = true) ∧ c' = c.edited updates := by
  obtain ⟨n, hcount, h⟩ := bind_eq_ok.mp h
  have haccepts := accepts_of_countPatched hcount
  dsimp only at h
  split at h
  · cases h
  rw [foldl_applyRemoval, foldlM_applySet haccepts] at h
  split at h
  · rename_i handles values hhandles hvalues
    cases h
    rw [setAll_some hhandles, setAll_some hvalues]
    exact ⟨haccepts, rfl⟩
  · cases h

/-- **What a prepared context names** was named before, or was found valid. -/
theorem names_patched (h : c.patched updates valid copied room = .ok c') (hn : c'.Names key handle) :
    c.Names key handle ∨ valid handle = true := by
  obtain ⟨haccepts, rfl⟩ := patched_ok h
  rcases SortedMap.of_mem_insertAll hn with hset | hold
  · obtain ⟨update, hmem, hupdate⟩ := List.mem_filterMap.mp hset
    have hok := haccepts update hmem
    cases update with
    | setHandle k v =>
      cases hupdate
      obtain ⟨raw, hraw, hvalid⟩ := (Option.any_eq_true _ _).mp hok
      exact .inr ((objectHandle_eq hraw).1 ▸ hvalid)
    | removeHandle | setValue | removeValue | other => cases hupdate
  · exact .inl (SortedMap.mem_removeAll.mp hold).1

/-! ## Edits that do not contradict each other -/

/-- At most one update for each key and kind. -/
def Once (updates : List ContextUpdate) : Prop :=
  ((setHandles updates).map Prod.fst).Nodup ∧ (removedHandles updates).Nodup ∧
    ((setValues updates).map Prod.fst).Nodup ∧ (removedValues updates).Nodup

instance : Decidable (Once updates) := inferInstanceAs (Decidable (_ ∧ _))

/-- The limits are kept. -/
def Fits (c : LaunchContext) : Prop :=
  c.inheritedHandles.entries.length ≤ processMaxInheritedHandles ∧
    c.inheritedValues.entries.length ≤ processMaxInheritedValues

/-- How many entries the first loop counts. -/
def counted (m : SortedMap Nat Nat) (start : Nat) (removed : List Nat) (sets : List (Nat × Nat)) : Nat :=
  start + sets.countP (fun e => !m.containsKey e.1) - removed.countP m.containsKey

theorem counted_set (m : SortedMap Nat Nat) (start : Nat) (removed : List Nat)
    (e : Nat × Nat) (sets : List (Nat × Nat)) :
    counted m (start + (!m.containsKey e.1).toNat) removed sets = counted m start removed (e :: sets) := by
  unfold counted
  rw [List.countP_cons]
  cases m.containsKey e.1 with
  | true => simp
  | false =>
    simp
    omega

theorem counted_remove (m : SortedMap Nat Nat) (start key : Nat) (removed : List Nat)
    (sets : List (Nat × Nat))
    (h : (key :: removed).countP m.containsKey ≤ start) : ¬ start < (m.containsKey key).toNat ∧
      removed.countP m.containsKey ≤ start - (m.containsKey key).toNat ∧
      counted m (start - (m.containsKey key).toNat) removed sets = counted m start (key :: removed) sets := by
  unfold counted
  rw [List.countP_cons] at h ⊢
  cases hc : m.containsKey key <;> simp [hc] at h ⊢ <;> omega

/-- The first loop refuses what is not acceptable, and counts. It has no way to count below zero. -/
theorem countPatched_eq
    (hh : (removedHandles updates).countP c.inheritedHandles.containsKey ≤ handles)
    (hv : (removedValues updates).countP c.inheritedValues.containsKey ≤ values) :
    c.countPatched valid handles values updates = if updates.all (accepts valid) then
      .ok (counted c.inheritedHandles handles (removedHandles updates) (setHandles updates),
        counted c.inheritedValues values (removedValues updates) (setValues updates))
      else .error .invalidArgument := by
  induction updates generalizing handles values with
  | nil => rfl
  | cons update rest ih =>
    rw [List.all_cons, countPatched.eq_def]
    cases update with
    | setHandle key value =>
      cases hraw : objectHandle value with
      | none => simp [accepts, hraw]
      | some handle =>
        cases hvalid : valid handle with
        | false => simp [accepts, hraw, hvalid]
        | true =>
          simp only [accepts, hraw, Option.any_some, hvalid, Bool.true_and]
          exact (ih (hh.trans (Nat.le_add_right _ _)) hv).trans (by rw [counted_set _ _ _ (key, value)]; rfl)
    | removeHandle key =>
      obtain ⟨hnot, hrest, hcount⟩ := counted_remove _ handles key (removedHandles rest) (setHandles rest) hh
      simp only [if_neg hnot, accepts, Bool.true_and]
      exact (ih hrest hv).trans (by rw [hcount]; rfl)
    | setValue key value =>
      exact (ih hh (hv.trans (Nat.le_add_right _ _))).trans (by rw [counted_set _ _ _ (key, value)]; rfl)
    | removeValue key =>
      obtain ⟨hnot, hrest, hcount⟩ := counted_remove _ values key (removedValues rest) (setValues rest) hv
      simp only [if_neg hnot, accepts, Bool.true_and]
      exact (ih hh hrest).trans (by rw [hcount]; rfl)
    | other => rfl

/-- The third loop stops at the limit, or where it would need memory. -/
theorem setAll_eq (hle : m.entries.length ≤ limit) : setAll limit room m sets =
    if (m.insertAll sets).entries.length ≤ limit ∧
      (room = true ∨ (m.insertAll sets).entries.length = m.entries.length)
    then some (m.insertAll sets) else none := by
  induction sets generalizing m with
  | nil => simp [setAll, SortedMap.insertAll, hle]
  | cons e sets ih =>
    have hall : m.insertAll (e :: sets) = (m.insert e.1 e.2).insertAll sets := rfl
    have hlen := m.length_insert e.1 e.2
    have hgrow := (m.insert e.1 e.2).length_le_insertAll sets
    rw [setAll_cons, setEntry, insertEntry, hall]
    cases hc : m.containsKey e.1 with
    | true =>
      simp only [hc, Bool.not_true, Bool.toNat_false, Nat.add_zero] at hlen
      have hrest := ih (hlen ▸ hle)
      rw [hlen] at hrest
      simpa using hrest
    | false =>
      simp only [hc, Bool.not_false, Bool.toNat_true] at hlen
      by_cases hfull : limit ≤ m.entries.length
      · simp only [hfull, decide_true, Bool.not_false, Bool.and_self, if_true, Option.bind_none]
        rw [if_neg (by omega)]
      · cases room with
        | false =>
          simp only [hfull, decide_false, Bool.false_and, Bool.false_or, Bool.false_eq_true,
            if_false, Option.bind_none, false_or]
          rw [if_neg (by omega)]
        | true => simpa [hfull] using ih (by omega)

/-- What the first loop counts is never more than the size of the edited map. -/
theorem counted_le (hsets : (sets.map Prod.fst).Nodup) {removed : List Nat} (hremoved : removed.Nodup) :
    (m.removeAll removed).entries.length ≤ counted m m.entries.length removed sets ∧
      counted m m.entries.length removed sets ≤ ((m.removeAll removed).insertAll sets).entries.length := by
  have hlen := SortedMap.length_removeAll (m := m) hremoved
  have hle : _ ≤ ((m.removeAll removed).insertAll sets).entries.length :=
    SortedMap.le_length_insertAll hsets fun e _ hc => by
      obtain ⟨value, hmem⟩ := SortedMap.containsKey_iff.mp hc
      exact SortedMap.containsKey_iff.mpr ⟨value, (SortedMap.mem_removeAll.mp hmem).1⟩
  unfold counted
  omega

/-- The memory that the prepared context needs is there. -/
def Granted (c : LaunchContext) (updates : List ContextUpdate) (copied room : Bool) : Prop :=
  copied = true ∧ (room = true ∨ (c.edited updates).inheritedHandles.entries.length =
      (c.inheritedHandles.removeAll (removedHandles updates)).entries.length ∧
    (c.edited updates).inheritedValues.entries.length =
      (c.inheritedValues.removeAll (removedValues updates)).entries.length)

instance : Decidable (c.Granted updates copied room) := inferInstanceAs (Decidable (_ ∧ _))

instance : Decidable c.Fits := inferInstanceAs (Decidable (_ ∧ _))

/-- **`patched` in one formula.** -/
theorem patched_eq (h : Once updates) : c.patched updates valid copied room =
    if updates.all (accepts valid) = false then .error .invalidArgument
    else if (c.edited updates).Fits ∧ c.Granted updates copied room then .ok (c.edited updates)
    else .error .resourceUnavailable := by
  obtain ⟨hsh, hrh, hsv, hrv⟩ := h
  obtain ⟨hh₁, hh₂⟩ := counted_le (m := c.inheritedHandles) hsh hrh
  obtain ⟨hv₁, hv₂⟩ := counted_le (m := c.inheritedValues) hsv hrv
  have hlenh := SortedMap.length_removeAll (m := c.inheritedHandles) hrh
  have hlenv := SortedMap.length_removeAll (m := c.inheritedValues) hrv
  rw [patched, countPatched_eq (by omega) (by omega)]
  cases hok : updates.all (accepts valid) with
  | false => rfl
  | true =>
    have haccepts : ∀ update ∈ updates, accepts valid update = true := by simpa using hok
    simp only [if_true, Bool.true_eq_false, if_false, bind, Except.bind, foldl_applyRemoval,
      foldlM_applySet haccepts]
    split
    · rename_i hover
      rw [if_neg]
      rintro ⟨⟨hfh, hfv⟩, hcopied, -⟩
      simp only [hcopied, Bool.not_true, Bool.or_false, Bool.or_eq_true, decide_eq_true_eq] at hover
      simp only [edited] at hfh hfv
      omega
    · rename_i hover
      simp only [Bool.or_eq_true, decide_eq_true_eq, Bool.not_eq_true', not_or, Bool.not_eq_false,
        Nat.not_lt] at hover
      rw [setAll_eq (hh₁.trans hover.1.1), setAll_eq (hv₁.trans hover.1.2)]
      simp only [Fits, Granted, edited, hover.2, true_and, or_and_left]
      split_ifs <;> first | rfl | tauto

/-! ## The order of the updates -/

section Order

variable {updates' : List ContextUpdate} (hp : updates'.Perm updates)

include hp

theorem parts_perm : (setHandles updates').Perm (setHandles updates) ∧
    (removedHandles updates').Perm (removedHandles updates) ∧ (setValues updates').Perm (setValues updates) ∧
      (removedValues updates').Perm (removedValues updates) :=
  ⟨hp.filterMap _, hp.filterMap _, hp.filterMap _, hp.filterMap _⟩

theorem Once.perm (h : Once updates) : Once updates' := by
  obtain ⟨hsh, hrh, hsv, hrv⟩ := parts_perm hp
  exact ⟨(hsh.map _).nodup_iff.mpr h.1, hrh.nodup_iff.mpr h.2.1, (hsv.map _).nodup_iff.mpr h.2.2.1,
    hrv.nodup_iff.mpr h.2.2.2⟩

theorem edited_perm (h : Once updates) : c.edited updates' = c.edited updates := by
  obtain ⟨hsh, hrh, hsv, hrv⟩ := parts_perm hp
  unfold edited
  rw [SortedMap.removeAll_perm hrh, SortedMap.removeAll_perm hrv, SortedMap.insertAll_perm hsh h.1,
    SortedMap.insertAll_perm hsv h.2.2.1]

/-- **The order of the updates does not matter.** -/
theorem patched_perm (h : Once updates) :
    c.patched updates' valid copied room = c.patched updates valid copied room := by
  have hgranted : c.Granted updates' copied room ↔ c.Granted updates copied room := by
    obtain ⟨-, hrh, -, hrv⟩ := parts_perm hp
    unfold Granted
    rw [edited_perm hp h, SortedMap.removeAll_perm hrh, SortedMap.removeAll_perm hrv]
  rw [patched_eq h, patched_eq (h.perm hp), hp.all_eq]
  simp only [edited_perm hp h, hgranted]

end Order

/-- **The prepared context**: a list with at most one update for each key and kind is refused, or makes the
    context with the removed keys deleted and the set keys bound to their new values, in whatever order the
    updates stand. That context is within the limits. If every update is acceptable and there is memory, the
    context is returned if it is within the limits, and the list is refused exactly when it is not. -/
theorem patched_context (c : LaunchContext) (updates : List ContextUpdate) (h : Once updates) :
    (∀ e, e ∈ (c.edited updates).inheritedHandles.entries ↔ e ∈ setHandles updates ∨
      e ∈ c.inheritedHandles.entries ∧
      e.1 ∉ removedHandles updates ∧ e.1 ∉ (setHandles updates).map Prod.fst) ∧
    (∀ e, e ∈ (c.edited updates).inheritedValues.entries ↔ e ∈ setValues updates ∨
      e ∈ c.inheritedValues.entries ∧
      e.1 ∉ removedValues updates ∧ e.1 ∉ (setValues updates).map Prod.fst) ∧ ∀ valid copied room,
      (∀ c', c.patched updates valid copied room = .ok c' → c' = c.edited updates ∧ c'.Fits) ∧
      (∀ updates', updates'.Perm updates →
        c.patched updates' valid copied room = c.patched updates valid copied room) ∧
      (updates.all (accepts valid) = true → c.Granted updates copied room →
        (c.patched updates valid copied room = .ok (c.edited updates) ↔ (c.edited updates).Fits) ∧
        (c.patched updates valid copied room = .error .resourceUnavailable ↔ ¬ (c.edited updates).Fits)) := by
  refine ⟨fun e => ?_, fun e => ?_, fun valid copied room =>
    ⟨fun c' hok => ?_, fun _ hp => patched_perm hp h, ?_⟩⟩
  · rw [edited, SortedMap.mem_insertAll h.1, SortedMap.mem_removeAll, and_assoc]
  · rw [edited, SortedMap.mem_insertAll h.2.2.1, SortedMap.mem_removeAll, and_assoc]
  · rw [patched_eq h] at hok
    split_ifs at hok with _ hfits
    cases hok
    exact ⟨rfl, hfits.1⟩
  · intro haccepts hgranted
    rw [patched_eq h, haccepts]
    by_cases hfits : (c.edited updates).Fits <;> simp [hgranted, hfits]

/-- A key that is removed and set at once, in both orders. -/
theorem patched_context_replaced : Once [.removeHandle 5, .setHandle 5 9] ∧
    new.patched [.setHandle 5 9, .removeHandle 5] (· = 9) true true =
      new.patched [.removeHandle 5, .setHandle 5 9] (· = 9) true true ∧
    new.patched [.removeHandle 5, .setHandle 5 9] (· = 9) true true =
      .ok (new.edited [.removeHandle 5, .setHandle 5 9]) ∧
    (new.edited [.removeHandle 5, .setHandle 5 9]).inheritedHandles.entries = [(5, 9)] := by
  have honce : Once [.removeHandle 5, .setHandle 5 9] := by decide
  obtain ⟨-, -, h⟩ := patched_context new _ honce
  obtain ⟨-, hperm, hlimit⟩ := h (· = 9) true true
  exact ⟨honce, hperm _ (.swap _ _ _), (hlimit (by decide) (by decide)).1.mpr (by decide), by decide⟩

/-- A full context, and a handle that is not live: the limit would be exceeded, and another error is returned.
    -/
theorem invalid_handle_before_limit :
    let full : LaunchContext := ⟨⟨(List.range 256).map fun key => (key, 1), by
      simpa [Function.comp_def] using List.pairwise_lt_range⟩, .empty⟩
    Once [.setHandle 256 7] ∧ ¬ (full.edited [.setHandle 256 7]).Fits ∧
      full.patched [.setHandle 256 7] (· = 1) true true = .error .invalidArgument :=
  ⟨by decide, by decide +kernel, rfl⟩

end LaunchContext

end Mnu.Task
