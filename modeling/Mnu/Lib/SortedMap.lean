import Mnu.Lib.SortedList

/-!
# `Mnu.Lib.SortedMap` — a map as a sorted list of entries

Entries with strictly increasing keys, found by a search for the position of the key. The order is a field of
the map, so every operation says why it keeps it; what an operation does is then a statement about membership
of entries (`mem_insert`, `mem_remove`, `mem_retain`), and a lookup is membership (`get_eq_some`). Two maps
with the same entries are equal (`ext_mem`).
-/

namespace Mnu.Lib

/-- Entries sorted by key, no key twice. -/
structure SortedMap (κ β : Type) [LinearOrder κ] where
  entries : List (κ × β)
  sorted : (entries.map Prod.fst).Pairwise (· < ·)

namespace SortedMap

variable {κ β : Type} [LinearOrder κ]

/-- No entries. -/
def empty : SortedMap κ β := ⟨[], List.Pairwise.nil⟩

/-- Where the key is, or where it would go. -/
def index (m : SortedMap κ β) (key : κ) : Except Nat Nat := SortedList.search (m.entries.map Prod.fst) key

/-- The value of a key. -/
def get (m : SortedMap κ β) (key : κ) : Option β :=
  match m.index key with
  | .ok index => m.entries[index]?.map Prod.snd
  | .error _ => none

/-- Whether a key has a value. -/
def containsKey (m : SortedMap κ β) (key : κ) : Bool := (m.get key).isSome

/-- What follows in the list of entries has a greater key. -/
theorem sorted_append {e₁ e₂ : List (κ × β)} {e : κ × β} (h : ((e₁ ++ e₂).map Prod.fst).Pairwise (· < ·))
    (hlow : ∀ a ∈ e₁, a.1 < e.1) (hhigh : ∀ b ∈ e₂, e.1 < b.1) :
    ((e₁ ++ e :: e₂).map Prod.fst).Pairwise (· < ·) := by
  rw [List.pairwise_map] at h ⊢
  obtain ⟨h₁, h₂, h₁₂⟩ := List.pairwise_append.mp h
  refine List.pairwise_append.mpr ⟨h₁, List.pairwise_cons.mpr ⟨hhigh, h₂⟩, ?_⟩
  intro a ha b hb
  rcases List.mem_cons.mp hb with rfl | hb
  · exact hlow a ha
  · exact h₁₂ a ha b hb

/-- The entries around a key that is there. -/
theorem sorted_split {e₁ e₂ : List (κ × β)} {e : κ × β}
    (h : ((e₁ ++ e :: e₂).map Prod.fst).Pairwise (· < ·)) :
    ((e₁ ++ e₂).map Prod.fst).Pairwise (· < ·) ∧ (∀ a ∈ e₁, a.1 < e.1) ∧ ∀ b ∈ e₂, e.1 < b.1 := by
  rw [List.pairwise_map] at h ⊢
  obtain ⟨h₁, h₂, h₁₂⟩ := List.pairwise_append.mp h
  obtain ⟨hhigh, h₂⟩ := List.pairwise_cons.mp h₂
  refine ⟨List.pairwise_append.mpr ⟨h₁, h₂, ?_⟩, fun a ha => h₁₂ a ha e List.mem_cons_self, hhigh⟩
  exact fun a ha b hb => h₁₂ a ha b (List.mem_cons_of_mem e hb)

/-- The entries before and after the place of a key, and what a search for it finds. -/
structure Around (m : SortedMap κ β) (key : κ) (e₁ e₂ : List (κ × β)) : Prop where
  sorted : ((e₁ ++ e₂).map Prod.fst).Pairwise (· < ·)
  low : ∀ e ∈ e₁, e.1 < key
  high : ∀ e ∈ e₂, key < e.1
  found : m.entries = e₁ ++ e₂ ∧ m.index key = .error e₁.length ∨
    ∃ value, m.entries = e₁ ++ (key, value) :: e₂ ∧ m.index key = .ok e₁.length

/-- The map splits at a key. -/
theorem exists_around (m : SortedMap κ β) (key : κ) : ∃ e₁ e₂, Around m key e₁ e₂ := by
  rcases SortedList.search_cases m.sorted key with ⟨l₁, l₂, hl, hs⟩ | ⟨l₁, l₂, hl, _, hs, hlow, hhigh⟩
  · obtain ⟨e₁, rest, hentries, rfl, hrest⟩ := List.map_eq_append_iff.mp hl
    obtain ⟨⟨_, value⟩, e₂, rfl, rfl, rfl⟩ := List.map_eq_cons_iff.mp hrest
    obtain ⟨hsorted, hlow, hhigh⟩ := sorted_split (hentries ▸ m.sorted)
    exact ⟨e₁, e₂, hsorted, hlow, hhigh, .inr ⟨value, hentries, by rw [index, hs, List.length_map]⟩⟩
  · obtain ⟨e₁, e₂, hentries, rfl, rfl⟩ := List.map_eq_append_iff.mp hl
    exact ⟨e₁, e₂, hentries ▸ m.sorted, fun e he => hlow _ (List.mem_map_of_mem he),
      fun e he => hhigh _ (List.mem_map_of_mem he), .inl ⟨hentries, by rw [index, hs, List.length_map]⟩⟩

variable {m m' : SortedMap κ β} {key : κ} {value : β} {e : κ × β} {e₁ e₂ : List (κ × β)}

theorem Around.mem (h : Around m key e₁ e₂) : e ∈ e₁ ++ e₂ ↔ e ∈ m.entries ∧ e.1 ≠ key := by
  have hne : e ∈ e₁ ++ e₂ → e.1 ≠ key := fun he =>
    (List.mem_append.mp he).elim (fun he => (h.low e he).ne) fun he => (h.high e he).ne'
  rcases h.found with ⟨hentries, _⟩ | ⟨old, hentries, _⟩
  · rw [hentries]
    exact ⟨fun he => ⟨he, hne he⟩, And.left⟩
  · rw [hentries]
    refine ⟨fun he => ⟨?_, hne he⟩, ?_⟩
    · simp only [List.mem_append, List.mem_cons] at he ⊢
      tauto
    · rintro ⟨he, hk⟩
      have hold : e ≠ (key, old) := fun heq => hk (congrArg Prod.fst heq)
      simp only [List.mem_append, List.mem_cons] at he ⊢
      tauto

/-- The entries after an insertion: at the place of the key, or where it would go. -/
def inserted (m : SortedMap κ β) (key : κ) (value : β) : List (κ × β) :=
  match m.index key with
  | .ok index => m.entries.set index (key, value)
  | .error index => m.entries.insertIdx index (key, value)

theorem Around.inserted (h : Around m key e₁ e₂) : m.inserted key value = e₁ ++ (key, value) :: e₂ := by
  rcases h.found with ⟨hentries, hindex⟩ | ⟨old, hentries, hindex⟩
  · rw [SortedMap.inserted, hindex]
    dsimp only
    rw [hentries, SortedList.insertIdx_append]
  · rw [SortedMap.inserted, hindex]
    simp [hentries]

theorem sorted_inserted (m : SortedMap κ β) (key : κ) (value : β) :
    ((m.inserted key value).map Prod.fst).Pairwise (· < ·) := by
  obtain ⟨e₁, e₂, h⟩ := m.exists_around key
  rw [h.inserted]
  exact sorted_append h.sorted h.low h.high

/-- A value set. -/
def insert (m : SortedMap κ β) (key : κ) (value : β) : SortedMap κ β :=
  ⟨m.inserted key value, m.sorted_inserted key value⟩

/-- The entries that `keep` wants. -/
def retain (m : SortedMap κ β) (keep : κ → β → Bool) : SortedMap κ β where
  entries := m.entries.filter fun entry => keep entry.1 entry.2
  sorted := m.sorted.sublist (List.filter_sublist.map Prod.fst)

/-- The map without the key. -/
def remove (m : SortedMap κ β) (key : κ) : SortedMap κ β :=
  match m.index key with
  | .ok index => ⟨m.entries.eraseIdx index, m.sorted.sublist ((List.eraseIdx_sublist _ _).map Prod.fst)⟩
  | .error _ => m

/-- The values in the order of their keys. -/
def values (m : SortedMap κ β) : List β := m.entries.map Prod.snd

/-- **A lookup is membership**, since no two entries have the same key. -/
theorem get_eq_some : m.get key = some value ↔ (key, value) ∈ m.entries := by
  obtain ⟨e₁, e₂, h⟩ := m.exists_around key
  have hnot : (key, value) ∉ e₁ ++ e₂ := fun he => (h.mem.mp he).2 rfl
  rcases h.found with ⟨hentries, hindex⟩ | ⟨old, hentries, hindex⟩
  · rw [get, hindex, hentries]
    exact ⟨nofun, fun he => absurd he hnot⟩
  · have hget : m.get key = some old := by
      rw [get, hindex]
      simp [hentries]
    simp only [List.mem_append, not_or] at hnot
    simp [hget, hentries, hnot, eq_comm]

theorem containsKey_iff : m.containsKey key = true ↔ ∃ value, (key, value) ∈ m.entries := by
  simp only [containsKey, Option.isSome_iff_exists, get_eq_some]

/-- The key has its new value, the others theirs. -/
theorem mem_insert : e ∈ (m.insert key value).entries ↔ e = (key, value) ∨ e ∈ m.entries ∧ e.1 ≠ key := by
  obtain ⟨e₁, e₂, h⟩ := m.exists_around key
  show e ∈ m.inserted key value ↔ _
  rw [← h.mem, h.inserted, List.mem_append, List.mem_append, List.mem_cons]
  tauto

theorem mem_retain {keep : κ → β → Bool} : e ∈ (m.retain keep).entries ↔ e ∈ m.entries ∧
    keep e.1 e.2 = true := List.mem_filter

theorem Around.remove (h : Around m key e₁ e₂) : (m.remove key).entries = e₁ ++ e₂ := by
  rcases h.found with ⟨hentries, hindex⟩ | ⟨old, hentries, hindex⟩
  · rw [SortedMap.remove, hindex]
    exact hentries
  · rw [SortedMap.remove, hindex]
    dsimp only
    rw [hentries, SortedList.eraseIdx_append]

theorem mem_remove : e ∈ (m.remove key).entries ↔ e ∈ m.entries ∧ e.1 ≠ key := by
  obtain ⟨e₁, e₂, h⟩ := m.exists_around key
  rw [h.remove, h.mem]

/-- **Extensionality**: the entries are sorted, so their order is no information. -/
theorem ext_mem (h : ∀ e, e ∈ m.entries ↔ e ∈ m'.entries) : m = m' := by
  obtain ⟨entries, hsorted⟩ := m
  obtain ⟨entries', hsorted'⟩ := m'
  have hlt := List.pairwise_map.mp hsorted
  have hlt' := List.pairwise_map.mp hsorted'
  have hperm : entries.Perm entries' := (List.perm_ext_iff_of_nodup (hlt.imp fun hab heq => (heq ▸ hab).false)
    (hlt'.imp fun hab heq => (heq ▸ hab).false)).mpr h
  cases hperm.eq_of_pairwise (fun a b _ _ hab hba => absurd hab hba.not_gt) hlt hlt'
  rfl

/-! ## Sizes -/

/-- A new key makes the map longer. -/
theorem length_insert (m : SortedMap κ β) (key : κ) (value : β) :
    (m.insert key value).entries.length = m.entries.length + (!m.containsKey key).toNat := by
  obtain ⟨e₁, e₂, h⟩ := m.exists_around key
  show (m.inserted key value).length = _
  rw [h.inserted]
  rcases h.found with ⟨hentries, hindex⟩ | ⟨old, hentries, hindex⟩
  · simp [containsKey, get, hindex, hentries, Nat.add_assoc]
  · simp [containsKey, get, hindex, hentries]

theorem length_remove (m : SortedMap κ β) (key : κ) :
    (m.remove key).entries.length + (m.containsKey key).toNat = m.entries.length := by
  obtain ⟨e₁, e₂, h⟩ := m.exists_around key
  rw [h.remove]
  rcases h.found with ⟨hentries, hindex⟩ | ⟨old, hentries, hindex⟩
  · simp [containsKey, get, hindex, hentries]
  · simp [containsKey, get, hindex, hentries, Nat.add_assoc]

/-! ## Many keys -/

/-- Values set one after the other. -/
def insertAll (m : SortedMap κ β) (sets : List (κ × β)) : SortedMap κ β :=
  sets.foldl (fun m e => m.insert e.1 e.2) m

/-- Keys removed one after the other. -/
def removeAll (m : SortedMap κ β) (keys : List κ) : SortedMap κ β := keys.foldl remove m

variable {sets : List (κ × β)} {keys : List κ}

theorem of_mem_insertAll (h : e ∈ (m.insertAll sets).entries) : e ∈ sets ∨ e ∈ m.entries := by
  induction sets generalizing m with
  | nil => exact .inr h
  | cons x sets ih =>
    rcases ih h with he | he
    · exact .inl (List.mem_cons_of_mem x he)
    · rcases mem_insert.mp he with rfl | he
      · exact .inl List.mem_cons_self
      · exact .inr he.1

/-- Keys that are set once have that value. -/
theorem mem_insertAll (h : (sets.map Prod.fst).Nodup) :
    e ∈ (m.insertAll sets).entries ↔ e ∈ sets ∨ e ∈ m.entries ∧ e.1 ∉ sets.map Prod.fst := by
  induction sets generalizing m with
  | nil => simp [insertAll]
  | cons x sets ih =>
    obtain ⟨hx, hsets⟩ := List.nodup_cons.mp h
    have hfirst : e = x → e.1 ∉ sets.map Prod.fst := fun heq => heq ▸ hx
    rw [insertAll, List.foldl_cons, ← insertAll, ih hsets, mem_insert, List.mem_cons,
      List.map_cons, List.mem_cons]
    tauto

theorem mem_removeAll : e ∈ (m.removeAll keys).entries ↔ e ∈ m.entries ∧ e.1 ∉ keys := by
  induction keys generalizing m with
  | nil => simp [removeAll]
  | cons k keys ih =>
    rw [removeAll, List.foldl_cons, ← removeAll, ih, mem_remove, List.mem_cons]
    tauto

/-- Removals may be reordered. -/
theorem removeAll_perm {keys' : List κ} (hp : keys'.Perm keys) : m.removeAll keys' = m.removeAll keys :=
  ext_mem fun e => by rw [mem_removeAll, mem_removeAll, hp.mem_iff]

/-- So may settings of different keys. -/
theorem insertAll_perm {sets' : List (κ × β)} (hp : sets'.Perm sets) (h : (sets.map Prod.fst).Nodup) :
    m.insertAll sets' = m.insertAll sets := by
  have hkeys := hp.map Prod.fst
  refine ext_mem fun e => ?_
  rw [mem_insertAll h, mem_insertAll (hkeys.nodup_iff.mpr h), hp.mem_iff, hkeys.mem_iff]

theorem length_le_insertAll (m : SortedMap κ β) (sets : List (κ × β)) :
    m.entries.length ≤ (m.insertAll sets).entries.length := by
  induction sets generalizing m with
  | nil => exact Nat.le_refl _
  | cons x sets ih => exact (m.length_insert x.1 x.2 ▸ Nat.le_add_right _ _).trans (ih _)

theorem length_removeAll (h : keys.Nodup) :
    (m.removeAll keys).entries.length + keys.countP m.containsKey = m.entries.length := by
  induction keys generalizing m with
  | nil => rfl
  | cons k keys ih =>
    obtain ⟨hk, hkeys⟩ := List.nodup_cons.mp h
    have hsame : keys.countP m.containsKey = keys.countP (m.remove k).containsKey := by
      refine List.countP_congr fun j hj => ?_
      have hne : j ≠ k := fun heq => hk (heq ▸ hj)
      simp [containsKey_iff, mem_remove, hne]
    have hlen := m.length_remove k
    have hrest := ih (m := m.remove k) hkeys
    rw [List.countP_cons, hsame]
    show ((m.remove k).removeAll keys).entries.length + _ = _
    cases hc : m.containsKey k <;> simp [hc] at hlen ⊢ <;> omega

/-- Keys that `m` does not have add to its size, whatever else is set. -/
theorem le_length_insertAll {m₀ : SortedMap κ β} (h : (sets.map Prod.fst).Nodup)
    (hsub : ∀ e ∈ sets, m.containsKey e.1 = true → m₀.containsKey e.1 = true) :
    m.entries.length + sets.countP (fun e => !m₀.containsKey e.1) ≤ (m.insertAll sets).entries.length := by
  induction sets generalizing m with
  | nil => exact Nat.le_refl _
  | cons x sets ih =>
    obtain ⟨hx, hsets⟩ := List.nodup_cons.mp h
    have hrest := ih (m := m.insert x.1 x.2) hsets fun e he hc => by
      have hne : e.1 ≠ x.1 := fun heq => hx (heq ▸ List.mem_map_of_mem he)
      have hnot : ∀ v, (e.1, v) ≠ x := fun v heq => hne (by rw [← heq])
      refine hsub e (List.mem_cons_of_mem x he) ?_
      simpa [containsKey_iff, mem_insert, hne, hnot] using hc
    have hlen := m.length_insert x.1 x.2
    have hfirst := hsub x List.mem_cons_self
    rw [List.countP_cons]
    show _ ≤ ((m.insert x.1 x.2).insertAll sets).entries.length
    cases hc : m.containsKey x.1 <;> cases hc₀ : m₀.containsKey x.1 <;>
      simp [hc, hc₀] at hlen hfirst ⊢ <;> omega

end SortedMap

end Mnu.Lib
