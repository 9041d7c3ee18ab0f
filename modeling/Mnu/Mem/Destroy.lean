import Mnu.Mem.Pte

/-!
# `Mnu.Mem.Destroy` — destroying a user page table

Model of `destroy_user_page_table` and the three functions below it. A table is a radix tree of four levels
with 512 entries at each node. `Table n` is a table with `n` levels of tables under it, and an entry of a
table that points to another comes with that table. The functions for the levels differ in the level only, so
they are `destroyTable` at the levels 0, 1 and 2. The root has a loop of its own: it goes over the lower half
of the addresses.

What the functions do is a list of events. A user leaf owns a frame if it is resident and was not put there by
the kernel itself (`owned`). `leaves` are all level-1 entries of a table, whatever the flags on the way say.
What is released is a part of what is owned (`releases_sublist`), so the two are compared entry by entry.
-/

namespace Mnu.Mem.Destroy

open Pte Function

/-- A table above `n` levels of tables. -/
def Table : Nat → Type
  | 0 => Fin 512 → Entry
  | n + 1 => Fin 512 → Entry × Table n

/-- The bytes that one entry covers. -/
def span (n : Nat) : Nat := 4096 * 512 ^ n

/-- What the destruction does, in order. -/
inductive Event where
  /-- `release_user_frame`, for the frame of this leaf. -/
  | release (address : Nat) (leaf : Entry)
  /-- `deallocate_4k_frame_by_phys`, for a table. -/
  | deallocate (phys : Nat)

/-- The entry is passed over: it is unused, not present or not of the user. -/
def skipped (entry : Entry) : Bool :=
  entry = .unused || !contains entry.flags present || !contains entry.flags userAccessible

section

variable (preinstalled : Nat → Bool)

/-- `destroy_user_l1_table`, `destroy_user_l2_table` and `destroy_user_l3_table`. -/
def destroyTable : (n : Nat) → Table n → (phys base : Nat) → List Event
  | 0, table, phys, base =>
    ((List.finRange 512).flatMap fun i =>
      let entry := table i
      let address := base + i * span 0
      if skipped entry then []
      else if preinstalled address then []
      else [.release address entry]) ++ [.deallocate phys]
  | n + 1, table, phys, base =>
    ((List.finRange 512).flatMap fun i =>
      let (entry, below) := table i
      if skipped entry then []
      else if contains entry.flags hugePage then []
      else destroyTable n below entry.addr (base + i * span (n + 1))) ++ [.deallocate phys]

/-- The errors of `destroy_user_page_table_inner`. -/
inductive Error where
  | invalidParam
  | permissionDenied
  | notMapped

/-- `destroy_user_page_table_inner`. A root that is still pinned is left for later. -/
def destroyUserPageTableInner (root : Table 3) (phys : Nat) (stackInUse offsetKnown deferred : Bool) :
    Except Error (List Event) :=
  if phys = 0 ∨ phys % 4096 ≠ 0 then .error .invalidParam
  else if stackInUse then .error .permissionDenied
  else if !offsetKnown then .error .notMapped
  else if deferred then .ok []
  else
    .ok (((List.finRange 512).flatMap fun i =>
      let (entry, below) := root i
      if 256 ≤ i.val then []
      else if skipped entry then []
      else if contains entry.flags hugePage then []
      else destroyTable preinstalled 2 below entry.addr (i * span 3)) ++ [.deallocate phys])

/-! ## What a table owns -/

/-- The kernel gave this leaf a frame of its own. -/
def owned (address : Nat) (leaf : Entry) : Bool := isResident leaf.flags && !preinstalled address

/-- The level-1 entries under a table. -/
def leaves : (n : Nat) → Table n → (base : Nat) → List (Nat × Entry)
  | 0, table, base => (List.finRange 512).map fun i : Fin 512 => (base + i * span 0, table i)
  | n + 1, table, base =>
    (List.finRange 512).flatMap fun i =>
      let (entry, below) := table i
      if entry = .unused || contains entry.flags hugePage then []
      else leaves n below (base + i * span (n + 1))

/-- A root without its upper half. -/
def lowerHalf (root : Table 3) : Table 3 := fun i => if 256 ≤ i.val then (.unused, (root i).2) else root i

/-- The leaves that own a frame. -/
def ownedLeaves (l : List (Nat × Entry)) : List (Nat × Entry) := l.filter fun x => owned preinstalled x.1 x.2

/-- Every leaf that owns a frame is present, and so are the entries that lead to it. -/
def AllPresent : (n : Nat) → Table n → (base : Nat) → Prop
  | 0, table, base => ∀ i : Fin 512,
      owned preinstalled (base + i * span 0) (table i) = true → contains (table i).flags present = true
  | n + 1, table, base => ∀ i : Fin 512, (table i).1 ≠ .unused → contains (table i).1.flags hugePage = false →
      (ownedLeaves preinstalled (leaves n (table i).2 (base + i * span (n + 1))) ≠ [] →
        skipped (table i).1 = false) ∧ AllPresent n (table i).2 (base + i * span (n + 1))

instance decidableAllPresent : (n : Nat) → (table : Table n) → (base : Nat) →
    Decidable (AllPresent preinstalled n table base)
  | 0, table, base => inferInstanceAs (Decidable (∀ i : Fin 512,
      owned preinstalled (base + i * span 0) (table i) = true → contains (table i).flags present = true))
  | n + 1, table, base =>
    have := fun i : Fin 512 => decidableAllPresent n (table i).2 (base + i * span (n + 1))
    inferInstanceAs (Decidable (∀ i : Fin 512, (table i).1 ≠ .unused →
      contains (table i).1.flags hugePage = false →
      (ownedLeaves preinstalled (leaves n (table i).2 (base + i * span (n + 1))) ≠ [] →
        skipped (table i).1 = false) ∧ AllPresent preinstalled n (table i).2 (base + i * span (n + 1))))

end

/-- The leaves whose frames were released. -/
def releases (events : List Event) : List (Nat × Entry) :=
  events.filterMap fun
    | .release address leaf => some (address, leaf)
    | .deallocate _ => none

/-- `release_user_frame` over the events: the owners that are left, and the frames that were handed back. -/
def handedBack (owners : Nat → Nat) : List (Nat × Entry) → List Nat
  | [] => []
  | (_, leaf) :: rest =>
    let left := update owners leaf.addr (owners leaf.addr - 1)
    if owners leaf.addr ≤ 1 then leaf.addr :: handedBack left rest else handedBack left rest

variable {preinstalled : Nat → Bool} {address n f base phys : Nat} {leaf : Entry} {l : List (Nat × Entry)}
  {table : Table n} {α : Type}

/-! ## Every owned leaf is released once -/

/-- A leaf that owns a frame is in use and accessible to the user. -/
theorem owned_cases (h : owned preinstalled address leaf = true) :
    leaf ≠ .unused ∧ contains leaf.flags userAccessible = true ∧ preinstalled address = false := by
  unfold owned isResident at h
  rw [Bool.and_eq_true, decide_eq_true_eq, Bool.not_eq_true'] at h
  obtain ⟨hres, hpre⟩ := h
  refine ⟨?_, ?_, hpre⟩
  · rintro rfl
    exact absurd hres (by decide)
  · unfold contains
    rw [decide_eq_true_eq]
    calc leaf.flags &&& userAccessible = leaf.flags &&& (ramLeaf ||| userAccessible) &&& userAccessible := by
          rw [BitVec.and_assoc]
          rfl
      _ = (ramLeaf ||| userAccessible) &&& userAccessible := by rw [hres]
      _ = userAccessible := by decide

/-- The releases of a concatenation of loops. -/
theorem releases_flatMap (l : List α) (f : α → List Event) (phys : Nat) :
    releases (l.flatMap f ++ [.deallocate phys]) = l.flatMap fun i => releases (f i) := by
  unfold releases
  rw [List.filterMap_append, List.filterMap_flatMap]
  exact List.append_nil _

theorem ownedLeaves_flatMap (l : List α) (f : α → List (Nat × Entry)) :
    ownedLeaves preinstalled (l.flatMap f) = l.flatMap fun i => ownedLeaves preinstalled (f i) :=
  List.filter_flatMap

theorem ownedLeaves_singleton (x : Nat × Entry) :
    ownedLeaves preinstalled [x] = if owned preinstalled x.1 x.2 = true then [x] else [] := by
  rw [ownedLeaves, List.filter_cons, List.filter_nil]

/-- Of the entries of a level-1 table, those that own a frame and are present are released. -/
theorem owned_releases_zero {table : Table 0} :
    ownedLeaves preinstalled (releases (destroyTable preinstalled 0 table phys base)) =
      (List.finRange 512).flatMap fun i : Fin 512 => if contains (table i).flags present = true then
        ownedLeaves preinstalled [(base + i * span 0, table i)] else [] := by
  rw [destroyTable]
  rw [releases_flatMap, ownedLeaves_flatMap]
  refine List.flatMap_congr fun i _ => ?_
  dsimp only
  by_cases howned : owned preinstalled (base + i * span 0) (table i) = true
  · obtain ⟨hused, huser, hpre⟩ := owned_cases howned
    by_cases hpresent : contains (table i).flags present = true
    · rw [if_pos hpresent, if_neg (by simp [skipped, hused, huser, hpresent]), if_neg (by simp [hpre])]
      rfl
    · rw [if_neg hpresent, if_pos (by simp [skipped, hpresent])]
      rfl
  · -- whatever happens to it, it does not count
    have hnone : ownedLeaves preinstalled [(base + i * span 0, table i)] = [] := by
      rw [ownedLeaves_singleton, if_neg howned]
    rw [hnone, ite_self]
    split
    · rfl
    split
    · rfl
    · exact hnone

theorem owned_leaves_zero {table : Table 0} : ownedLeaves preinstalled (leaves 0 table base) =
    (List.finRange 512).flatMap fun i : Fin 512 =>
    ownedLeaves preinstalled [(base + i * span 0, table i)] := by
  rw [leaves]
  rw [← List.flatMap_singleton' (List.map _ _), List.flatMap_map, ownedLeaves_flatMap]

/-- A table above others releases what is released behind the entries that it does not pass over. -/
theorem owned_releases_succ {table : Table (n + 1)} :
    ownedLeaves preinstalled (releases (destroyTable preinstalled (n + 1) table phys base)) =
      (List.finRange 512).flatMap fun i =>
        if (skipped (table i).1 || contains (table i).1.flags hugePage) = true then []
        else ownedLeaves preinstalled
          (releases (destroyTable preinstalled n (table i).2 (table i).1.addr
            (base + i * span (n + 1)))) := by
  rw [destroyTable]
  rw [releases_flatMap, ownedLeaves_flatMap]
  refine List.flatMap_congr fun i _ => ?_
  rcases table i with ⟨entry, below⟩
  dsimp only
  cases skipped entry <;> cases contains entry.flags hugePage <;> rfl

theorem owned_leaves_succ {table : Table (n + 1)} : ownedLeaves preinstalled (leaves (n + 1) table base) =
    (List.finRange 512).flatMap fun i =>
      if (decide ((table i).1 = .unused) || contains (table i).1.flags hugePage) = true then []
      else ownedLeaves preinstalled (leaves n (table i).2 (base + i * span (n + 1))) := by
  rw [leaves]
  rw [ownedLeaves_flatMap]
  refine List.flatMap_congr fun i _ => ?_
  rcases table i with ⟨entry, below⟩
  dsimp only
  split <;> rfl

/-- An entry that is not in use is passed over. -/
theorem skipped_unused : skipped .unused = true := by decide

theorem ite_nil_sublist {c : Prop} [Decidable c] (l : List α) : (if c then l else []).Sublist l := by
  split
  · exact List.Sublist.refl _
  · exact List.nil_sublist _

/-- What is released behind an entry is part of what is there. -/
theorem ite_skipped_sublist {entry : Entry} {l l' : List α} (h : l.Sublist l') :
    (if (skipped entry || contains entry.flags hugePage) = true then [] else l).Sublist
      (if (decide (entry = .unused) || contains entry.flags hugePage) = true then [] else l') := by
  split
  · exact List.nil_sublist _
  · rename_i hvisited
    simp only [Bool.or_eq_true, not_or] at hvisited
    have hused : entry ≠ .unused := fun h => hvisited.1 (h ▸ skipped_unused)
    rw [if_neg (by simp only [hused, decide_false, Bool.false_or]; exact hvisited.2)]
    exact h

/-- No frame is released but those of owned leaves, and none of them twice. -/
theorem releases_sublist (phys : Nat) : (ownedLeaves preinstalled (releases
    (destroyTable preinstalled n table phys base))).Sublist
    (ownedLeaves preinstalled (leaves n table base)) := by
  induction n generalizing phys base with
  | zero =>
    rw [owned_releases_zero, owned_leaves_zero]
    exact List.Sublist.flatMap_right _ fun i _ => ite_nil_sublist _
  | succ n ih =>
    rw [owned_releases_succ, owned_leaves_succ]
    exact List.Sublist.flatMap_right _ fun i _ => ite_skipped_sublist (ih _)

/-- Concatenations whose parts are sublists of each other are equal only part by part. -/
theorem flatMap_eq_iff {β : Type} {l : List α} {f g : α → List β} (hsub : ∀ a ∈ l, (f a).Sublist (g a)) :
    l.flatMap f = l.flatMap g ↔ ∀ a ∈ l, f a = g a := by
  refine ⟨fun h => ?_, List.flatMap_congr⟩
  induction l with
  | nil => exact nofun
  | cons a l ih =>
    obtain ⟨hhead, htail⟩ := List.forall_mem_cons.mp hsub
    have hlen := congrArg List.length h
    rw [List.flatMap_cons, List.flatMap_cons, List.length_append, List.length_append] at hlen
    have hrest := (List.Sublist.flatMap_right l htail).length_le
    have heq : f a = g a := hhead.eq_of_length (by have := hhead.length_le; omega)
    rw [List.flatMap_cons, List.flatMap_cons, heq] at h
    exact List.forall_mem_cons.mpr ⟨heq, ih htail (List.append_cancel_left h)⟩

/-- **Every leaf that owns a frame has its frame released, once, just when all of them can be found**: they
    are present, and so are the entries that lead to them. -/
theorem releases_destroyTable (phys : Nat) : ownedLeaves preinstalled (releases
    (destroyTable preinstalled n table phys base)) = ownedLeaves preinstalled (leaves n table base) ↔
      AllPresent preinstalled n table base := by
  induction n generalizing phys base with
  | zero =>
    rw [owned_releases_zero, owned_leaves_zero, flatMap_eq_iff fun i _ => ite_nil_sublist _, AllPresent]
    refine ⟨fun h i howned => ?_, fun h i _ => ?_⟩
    · by_contra hpresent
      have hi := h i (List.mem_finRange i)
      rw [if_neg hpresent, ownedLeaves_singleton, if_pos howned] at hi
      cases hi
    · split
      · rfl
      · rename_i hpresent
        rw [ownedLeaves_singleton, if_neg fun howned => hpresent (h i howned)]
  | succ n ih =>
    rw [owned_releases_succ, owned_leaves_succ,
      flatMap_eq_iff fun i _ => ite_skipped_sublist (releases_sublist _), AllPresent]
    refine forall_congr' fun i => ?_
    rw [forall_prop_of_true (List.mem_finRange i)]
    rcases table i with ⟨entry, below⟩
    dsimp only
    by_cases hunused : entry = .unused
    · simp [hunused, skipped_unused]
    by_cases hhuge : contains entry.flags hugePage = true
    · simp [hhuge]
    rw [if_neg (show ¬ (decide (entry = .unused) || contains entry.flags hugePage) =
      true by simp [hunused, hhuge])]
    by_cases hskip : skipped entry = true
    · -- nothing is released behind an entry that is passed over, so nothing may be owned there
      rw [if_pos (by simp [hskip])]
      refine ⟨fun h _ _ => ⟨fun hsome => absurd h.symm hsome, (ih 0).mp ?_⟩, fun h => ?_⟩
      · have hnone : (ownedLeaves preinstalled (releases
            (destroyTable preinstalled n below 0 (base + i * span (n + 1))))).Sublist
            (ownedLeaves preinstalled (leaves n below (base + i * span (n + 1)))) := releases_sublist 0
        rw [← h] at hnone ⊢
        exact List.sublist_nil.mp hnone
      · by_contra hsome
        rw [(h hunused (by simpa using hhuge)).1 fun h0 => hsome h0.symm] at hskip
        cases hskip
    · rw [if_neg (by simp [hskip, hhuge]), ih]
      exact ⟨fun h _ _ => ⟨fun _ => by simpa using hskip, h⟩, fun h => (h hunused (by simpa using hhuge)).2⟩

/-- No frame of a page that the kernel put there is released. -/
theorem releases_not_preinstalled {x : Nat × Entry}
    (hx : x ∈ releases (destroyTable preinstalled n table phys base)) : preinstalled x.1 = false := by
  induction n generalizing phys base with (unfold destroyTable at hx; rw [releases_flatMap] at hx)
  | zero =>
    obtain ⟨i, _, hi⟩ := List.mem_flatMap.mp hx
    dsimp only at hi
    split at hi
    · cases hi
    split at hi
    · cases hi
    rename_i hpre
    have hx' : x ∈ [(base + i * span 0, table i)] := hi
    rw [List.mem_singleton.mp hx']
    simpa using hpre
  | succ n ih =>
    obtain ⟨i, _, hi⟩ := List.mem_flatMap.mp hx
    dsimp only at hi
    split at hi
    · cases hi
    split at hi
    · cases hi
    · exact ih hi

/-- The loop over the root is that of a table of its level, without the upper half. -/
theorem inner_ok {root : Table 3} {stackInUse offsetKnown : Bool} {events : List Event}
    (h : destroyUserPageTableInner preinstalled root phys stackInUse offsetKnown false = .ok events) :
    events = destroyTable preinstalled 3 (lowerHalf root) phys 0 := by
  unfold destroyUserPageTableInner at h
  split at h
  · cases h
  split at h
  · cases h
  split at h
  · cases h
  rw [if_neg (by decide)] at h
  rw [← Except.ok.inj h]
  conv_rhs => unfold destroyTable
  refine congrArg (fun l => l ++ [Event.deallocate phys]) (List.flatMap_congr ?_)
  intro i _
  unfold lowerHalf
  by_cases hi : 256 ≤ i.val
  · rw [if_pos hi]
    dsimp only
    rw [if_pos hi, if_pos (by decide)]
  · rw [if_neg hi, Nat.zero_add]
    dsimp only
    rw [if_neg hi]

/-! ## The frames go back -/

theorem mem_handedBack {owners : Nat → Nat} (h : f ∈ handedBack owners l) : ∃ x ∈ l, x.2.addr = f := by
  induction l generalizing owners with
  | nil => cases h
  | cons x rest ih =>
    obtain ⟨address, leaf⟩ := x
    have hrest : ∀ {owners'}, f ∈ handedBack owners' rest → ∃ x ∈ (address, leaf) :: rest, x.2.addr = f := by
      intro owners' hmem
      obtain ⟨y, hy, hya⟩ := ih hmem
      exact ⟨y, List.mem_cons_of_mem _ hy, hya⟩
    unfold handedBack at h
    dsimp only at h
    split at h
    · rcases List.mem_cons.mp h with rfl | h
      · exact ⟨_, List.mem_cons_self, rfl⟩
      · exact hrest h
    · exact hrest h

/-- A frame is handed back when as many references are released as it has owners, and not before. -/
theorem count_handedBack (owners : Nat → Nat) (hpos : 0 < owners f) :
    (l.countP (fun x => x.2.addr == f) < owners f → (handedBack owners l).count f = 0) ∧
      (l.countP (fun x => x.2.addr == f) = owners f → (handedBack owners l).count f = 1) := by
  induction l generalizing owners with
  | nil =>
    refine ⟨fun _ => rfl, ?_⟩
    intro h
    have h' : 0 = owners f := h
    omega
  | cons x rest ih =>
    obtain ⟨address, leaf⟩ := x
    unfold handedBack
    dsimp only
    rw [List.countP_cons]
    by_cases heq : leaf.addr = f
    · subst heq
      rw [if_pos (by simp)]
      by_cases hlast : owners leaf.addr ≤ 1
      · -- the last owner: no further release of this frame is left
        rw [if_pos hlast, List.count_cons_self]
        refine ⟨fun h => by omega, ?_⟩
        intro h
        have hnone : rest.countP (fun x => x.2.addr == leaf.addr) = 0 := by omega
        have hrest : leaf.addr ∉ handedBack (update owners leaf.addr (owners leaf.addr - 1)) rest := by
          intro hmem
          obtain ⟨y, hy, hya⟩ := mem_handedBack hmem
          have := List.countP_eq_zero.mp hnone y hy
          simp [hya] at this
        rw [List.count_eq_zero.mpr hrest]
      · rw [if_neg hlast]
        have hless := ih (update owners leaf.addr (owners leaf.addr - 1)) (by rw [update_self]; omega)
        rw [update_self] at hless
        exact ⟨fun h => hless.1 (by omega), fun h => hless.2 (by omega)⟩
    · have hsame : update owners leaf.addr (owners leaf.addr - 1) f = owners f :=
        update_of_ne (Ne.symm heq) _ _
      have hrest := ih (update owners leaf.addr (owners leaf.addr - 1)) (hsame.symm ▸ hpos)
      rw [hsame] at hrest
      rw [if_neg (by simpa using heq), Nat.add_zero]
      split
      · rw [List.count_cons_of_ne heq]
        exact hrest
      · exact hrest

/-- Each leaf that owns a frame has its frame released exactly once, no page that the kernel put there is
    touched, and a frame whose owners are all leaves of this table is handed back to the allocator once. -/
structure ReleasesAll (preinstalled : Nat → Bool) (root : Table 3) (events : List Event) : Prop where
  once : ownedLeaves preinstalled (releases events) = ownedLeaves preinstalled (leaves 3 (lowerHalf root) 0)
  kernel : ∀ x ∈ releases events, preinstalled x.1 = false
  returned : ∀ owners f, (∀ x ∈ releases events, x.2.addr = f → owned preinstalled x.1 x.2 = true) →
    0 < owners f →
    owners f = (ownedLeaves preinstalled (leaves 3 (lowerHalf root) 0)).countP (fun x => x.2.addr == f) →
    (handedBack owners (releases events)).count f = 1

/-- **Destroying a table gives back every frame it owns, if and only if every leaf that owns one is present.**
    -/
theorem destroy_releases_owned_leaves {root : Table 3} {phys : Nat} {stackInUse offsetKnown : Bool}
    {events : List Event}
    (h : destroyUserPageTableInner preinstalled root phys stackInUse offsetKnown false = .ok events) :
    ReleasesAll preinstalled root events ↔ AllPresent preinstalled 3 (lowerHalf root) 0 := by
  rw [inner_ok h]
  refine ⟨fun hall => (releases_destroyTable phys).mp hall.once, fun hpresent => ?_⟩
  have hreleases := (releases_destroyTable phys).mpr hpresent
  refine ⟨hreleases, fun x hx => releases_not_preinstalled hx, ?_⟩
  intro owners f howned hpos hcount
  apply (count_handedBack owners hpos).2
  rw [hcount, ← hreleases]
  unfold ownedLeaves
  rw [List.countP_filter]
  apply List.countP_congr
  intro x hx
  constructor
  · intro haddr
    rw [haddr, howned x hx (by simpa using haddr)]
    rfl
  · intro hboth
    exact (Bool.and_eq_true_iff.mp hboth).1

/-- A root with one leaf, at the second page. -/
def oneLeaf (leaf : Entry) : Table 3 := fun i =>
  let below {α : Type} (here : Bool) (phys : Nat) (table : α) : Entry × α :=
    (if here then ⟨phys, 0x7⟩ else .unused, table)
  below (i == 0) 0x2000 fun j => below (j == 0) 0x3000 fun k => below (k == 0) 0x4000 fun l =>
    if l = 1 then leaf else .unused

/-- A page of the user, readable and writable. -/
def mappedLeaf : Entry := ⟨0x5000, 0x8000000000000807⟩

theorem destroy_releases_owned_leaves_mapped : ∃ events,
    destroyUserPageTableInner (fun _ => false) (oneLeaf mappedLeaf) 0x1000 false true false = .ok events ∧
      releases events = [(0x1000, mappedLeaf)] ∧ ReleasesAll (fun _ => false)
        (oneLeaf mappedLeaf) events := by
  obtain ⟨events, h⟩ : ∃ events, destroyUserPageTableInner (fun _ => false)
    (oneLeaf mappedLeaf) 0x1000 false true
      false = .ok events := ⟨_, rfl⟩
  refine ⟨events, h, ?_, (destroy_releases_owned_leaves h).mpr (by decide +kernel)⟩
  rw [inner_ok h]
  decide +kernel

/-- **A leaf that `protect` has made inaccessible is never released.** It still owns its frame, and the table
    that held the only reference is gone. -/
theorem inaccessible_leaf_leaks : isResident (protectFlags mappedLeaf.flags false false false) = true ∧
      ∃ events, destroyUserPageTableInner (fun _ => false)
          (oneLeaf { mappedLeaf with flags := protectFlags mappedLeaf.flags false false false })
          0x1000 false true false = .ok events ∧ releases events = [] ∧
            (ownedLeaves (fun _ => false) (leaves 3 (lowerHalf
          (oneLeaf { mappedLeaf with flags := protectFlags mappedLeaf.flags false false false })) 0)).map
            (fun x => (x.1, x.2.addr)) = [(0x1000, 0x5000)] :=
  ⟨by decide, _, rfl, by decide +kernel, by decide +kernel⟩

end Mnu.Mem.Destroy
