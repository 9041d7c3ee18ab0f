import Mnu.PlugKit.Virtqueue

/-!
# `Mnu.PlugKit.VirtqueueInv` — descriptors are free or outstanding, once

Each operation has one lemma that says what it can do to the queue, whatever the device writes: hand out a
chain (`Handed`), take back a chain that is outstanding (`Released`), or nothing (`Same`). From these,
`Sound`: the free stack and the outstanding chains are a partition of the descriptors, the links follow the
chains, and `active_heads` marks their heads.
-/

namespace Mnu.PlugKit.Virtqueue

open Mnu.Lib Function

/-! ## Links -/

/-- Each descriptor of the list is linked to the one after it, and the last to none. -/
def Linked (next : Nat → Option Nat) : List Nat → Prop
  | [] => True
  | a :: l => next a = l.head? ∧ Linked next l

/-- What `writeChain` makes of the links. -/
def setLinks (next : Nat → Option Nat) : List Nat → Nat → Option Nat
  | [] => next
  | a :: l => setLinks (update next a l.head?) l

/-- What `releaseLoop` makes of them. -/
def clearLinks (next : Nat → Option Nat) : List Nat → Nat → Option Nat
  | [] => next
  | a :: l => clearLinks (update next a none) l

section Links

variable {next next' : Nat → Option Nat} {l : List Nat} {i : Nat}

theorem Linked.congr (h : Linked next l) (hsame : ∀ a ∈ l, next' a = next a) : Linked next' l := by
  induction l with
  | nil => trivial
  | cons a l ih =>
    refine ⟨?_, ih h.2 fun b hb => hsame b (List.mem_cons_of_mem a hb)⟩
    rw [hsame a List.mem_cons_self]
    exact h.1

theorem setLinks_of_not_mem (hi : i ∉ l) : setLinks next l i = next i := by
  induction l generalizing next with
  | nil => rfl
  | cons a l ih =>
    obtain ⟨hne, hl⟩ := not_or.mp (mt List.mem_cons.mpr hi)
    exact (ih hl).trans (update_of_ne hne _ _)

theorem clearLinks_of_not_mem (hi : i ∉ l) : clearLinks next l i = next i := by
  induction l generalizing next with
  | nil => rfl
  | cons a l ih =>
    obtain ⟨hne, hl⟩ := not_or.mp (mt List.mem_cons.mpr hi)
    exact (ih hl).trans (update_of_ne hne _ _)

/-- Written in order, the links are those of the chain. -/
theorem linked_setLinks (hnodup : l.Nodup) : Linked (setLinks next l) l := by
  induction l generalizing next with
  | nil => trivial
  | cons a l ih =>
    obtain ⟨ha, hl⟩ := List.nodup_cons.mp hnodup
    exact ⟨(setLinks_of_not_mem ha).trans (update_self _ _ _), ih hl⟩

end Links

/-! ## Accesses -/

/-- Nothing but the contents of the memory is different. -/
def Same (q q' : Queue) : Prop := ∃ memory : Memory, memory.len = q.memory.len ∧
    q' = { q with memory := memory }

section Accesses

variable (dev : Device) {q q' q'' : Queue}

theorem Same.refl {q : Queue} : Same q q := ⟨q.memory, rfl, rfl⟩

theorem Same.trans (h : Same q q') (h' : Same q' q'') : Same q q'' := by
  obtain ⟨m, hm, rfl⟩ := h
  obtain ⟨m', hm', rfl⟩ := h'
  exact ⟨m', hm'.trans hm, rfl⟩

variable {α β : Type} {n offset count : Nat} (P : Result β → Prop)

/-- **Rule for an access** inside the memory: it succeeds, and only the contents of the memory change. -/
theorem access_bind {f : Memory → α × Memory} {g : α → Queue → Result β} (hn : q.memory.len = n)
    (h : offset + count ≤ n) (hg : ∀ value (m : Memory), m.len = n → P (g value { q with memory := m }))
    (hlen : ∀ m, (f m).2.len = m.len := by intro _; rfl) :
    P (Result.bind (access dev q offset count f) g) := by
  have haccess : access dev q offset count f = _ := if_pos (hn ▸ h)
  rw [haccess]
  exact hg _ _ ((hlen _).trans hn)

/-- **Rule for `sync`.** -/
theorem sync_bind {g : Unit → Queue → Result β} (hn : q.memory.len = n)
    (hg : ∀ m : Memory, m.len = n → P (g () { q with memory := m }))
    (herror : ∀ m : Memory, m.len = n → P (.error .accessFailed, { q with memory := m })) :
    P (Result.bind (sync dev q) g) := by
  unfold sync
  dsimp only
  split
  · exact hg (q.memory.tick dev) hn
  · exact herror (q.memory.tick dev) hn

end Accesses

/-! ## The layout -/

/-- The queue memory holds the whole layout. -/
structure Fits (q : Queue) : Prop where
  layout : Layout.calculate q.size = .ok q.layout
  len : q.layout.totalSize ≤ q.memory.len

section Fitting

variable {q q' : Queue}

theorem Fits.same (h : Fits q) (hs : Same q q') : Fits q' := by
  obtain ⟨m, hm, rfl⟩ := hs
  exact ⟨h.layout, by rw [show ({ q with memory := m } : Queue).memory.len = _ from hm]; exact h.len⟩

/-- The three parts lie apart, inside the memory. -/
theorem Fits.eq (h : Fits q) : 2 ≤ q.size.toNat ∧ q.layout.availableOffset = q.size.toNat * 16 ∧
    q.size.toNat * 16 + (q.size.toNat * 2 + 6) ≤ q.layout.usedOffset ∧
    q.layout.usedOffset + (q.size.toNat * 8 + 6) ≤ q.memory.len := by
  have hlayout := h.layout
  have hlen := h.len
  unfold Layout.calculate at hlayout
  split at hlayout
  · cases hlayout
  rename_i hsize
  have hlow : ¬ q.size < 2 := fun h0 => hsize (.inl h0)
  have hl := Except.ok.inj hlayout
  rw [← hl] at hlen ⊢
  refine ⟨?_, rfl, ?_, hlen⟩
  · rw [UInt16.lt_iff_toNat_lt] at hlow
    exact Nat.le_of_not_lt hlow
  · show _ ≤ alignUp _ 4
    unfold alignUp
    omega

theorem mod_size_lt (h : Fits q) (index : UInt16) : (index % q.size).toNat < q.size.toNat := by
  rw [UInt16.toNat_mod]
  exact Nat.mod_lt _ (by have := h.eq.1; omega)

end Fitting

/-! ## What the operations can do -/

/-- A chain has been handed out. -/
def Handed (q : Queue) (chain : List Nat) (head : Nat) (q' : Queue) : Prop :=
  ∃ n, chain = q.free.take n ∧ chain.head? = some head ∧ Same { q with
      free := q.free.drop n
      next := setLinks q.next chain
      activeHeads := update q.activeHeads head true
      availableIndex := q.availableIndex + 1
      chains := chain :: q.chains } q'

/-- The chain with this head has been taken back. -/
def Released (q : Queue) (head : Nat) (q' : Queue) : Prop :=
  ∃ chain ∈ q.chains, chain.head? = some head ∧ Same { q with
      free := chain.reverse ++ q.free
      next := clearLinks q.next chain
      activeHeads := update q.activeHeads head false
      lastUsedIndex := q.lastUsedIndex + 1
      chains := q.chains.filter fun chain => chain.head? ≠ some head } q'

/-- What `enqueue` can do. -/
inductive Enqueued (q : Queue) (ds : List Descriptor) : Except Error Nat → Queue → Prop where
  | invalid : (ds = [] ∨ ∃ d ∈ ds, d.length = 0) → Enqueued q ds (.error .invalidDescriptor) q
  | full : Enqueued q ds (.error .queueFull) q
  | handed {chain head q'} : Handed q chain head q' → chain.length = ds.length → Enqueued q ds (.ok head) q'
  | unsynced {chain head q'} : Handed q chain head q' → Enqueued q ds (.error .accessFailed) q'

/-- What `pop_used` can do. -/
inductive Popped (q : Queue) : Except Error (Option UsedDescriptor) → Queue → Prop where
  | none {q'} : Same q q' → Popped q (.ok none) q'
  | rejected {e q'} : Same q q' → (e = .accessFailed ∨ e = .invalidUsedIndex) → Popped q (.error e) q'
  | used {head written q'} : Released q head q' → Popped q (.ok (some ⟨head, written⟩)) q'

/-- The invariant of a queue. -/
structure Sound (q : Queue) : Prop where
  fits : Fits q
  /-- Every descriptor is on the free stack or in an outstanding chain, and only once. -/
  partition : (q.free ++ q.chains.flatten).Perm (List.range q.size.toNat)
  linked : ∀ chain ∈ q.chains, chain ≠ [] ∧ Linked q.next chain
  heads : ∀ h, q.activeHeads h = true ↔ ∃ chain ∈ q.chains, chain.head? = some h

section Handing

variable (dev : Device) {q q' : Queue}

theorem Sound.nodup (h : Sound q) : (q.free ++ q.chains.flatten).Nodup :=
  h.partition.nodup_iff.mpr List.nodup_range

/-- The allocation takes from the stack. -/
theorem allocate_eq {n : Nat} {free allocated : List Nat} (h : n ≤ free.length) :
    allocate n free allocated = .ok (allocated ++ free.take n, free.drop n) := by
  induction n generalizing free allocated with
  | zero => simp [allocate]
  | succ n ih =>
    cases free with
    | nil => cases h
    | cons a free =>
      rw [allocate, ih (Nat.le_of_succ_le_succ h)]
      simp

/-- A descriptor of the table can be written. -/
theorem writeDescriptor_ok (h : Fits q) {index : Nat} (hi : index < q.size.toNat)
    (d : Descriptor) (flags next : Nat) :
    ∃ q', writeDescriptor dev q index d flags next = (.ok (), q') ∧ Same q q' := by
  obtain ⟨_, _, hused, hlen⟩ := h.eq
  let P : Result Unit → Prop := fun r => ∃ q', r = (.ok (), q') ∧ Same q q'
  refine access_bind dev P rfl (by omega) fun _ m₁ hm₁ => ?_
  refine access_bind dev P hm₁ (by omega) fun _ m₂ hm₂ => ?_
  refine access_bind dev P hm₂ (by omega) fun _ m₃ hm₃ => ?_
  have hlast : index * 16 + 14 + 2 ≤ m₃.len := by omega
  exact ⟨_, if_pos hlast, (m₃.tick dev).write (index * 16 + 14) (toLeBytes 2 next), hm₃, rfl⟩

/-- The loop over a chain changes the links, and nothing else that the driver keeps. -/
theorem writeChain_ok (h : Fits q) (allocated : List Nat) (ds : List Descriptor)
    (hlen : allocated.length = ds.length) (hrange : ∀ i ∈ allocated, i < q.size.toNat) :
    ∃ q', writeChain dev q allocated ds = (.ok (), q') ∧
      Same { q with next := setLinks q.next allocated } q' := by
  induction allocated generalizing q ds with
  | nil => exact ⟨q, by cases ds <;> rfl, .refl⟩
  | cons index allocated ih =>
    cases ds with
    | nil => cases hlen
    | cons d ds =>
      have hfits : Fits { q with next := update q.next index allocated.head? } := ⟨h.layout, h.len⟩
      obtain ⟨q₁, h₁, hs₁⟩ := writeDescriptor_ok dev hfits (hrange index List.mem_cons_self) d
        ((if allocated.head?.isSome then 1 else 0) + if d.deviceWritable then 2 else 0)
          (allocated.head?.getD 0)
      have hfits₁ := hfits.same hs₁
      obtain ⟨m, hm, rfl⟩ := hs₁
      obtain ⟨q₂, h₂, m', hm', rfl⟩ := ih hfits₁ ds (Nat.succ.inj hlen)
        fun i hi => hrange i (List.mem_cons_of_mem index hi)
      refine ⟨_, ?_, m', hm'.trans hm, rfl⟩
      show Result.bind (writeDescriptor dev _ index d _ _) _ = _
      rw [h₁]
      exact h₂

/-- An operation whose result is `head`, unless its sync fails, with this effect on what the driver keeps. -/
def Commits (q : Queue) (head : Nat) (r : Result Nat) : Prop :=
  Same q r.2 ∧ (r.1 = .ok head ∨ r.1 = .error .accessFailed)

/-- The chain is recorded; only the sync at the end can fail. -/
theorem publish_spec (h : Fits q) (allocated : List Nat) (head : Nat) : Commits { q with
      activeHeads := update q.activeHeads head true
      chains := allocated :: q.chains
      availableIndex := q.availableIndex + 1 } head (publish dev q allocated head) := by
  obtain ⟨_, havail, hused, hlen⟩ := h.eq
  have hslot := mod_size_lt h q.availableIndex
  refine access_bind dev _ rfl (by dsimp only; omega) fun _ m₁ hm₁ => ?_
  refine access_bind dev _ hm₁ (by dsimp only; omega) fun _ m₂ hm₂ => ?_
  refine sync_bind dev _ hm₂ (fun m₃ hm₃ => ?_) fun m₃ hm₃ => ?_
  · exact ⟨⟨m₃, hm₃, rfl⟩, .inl rfl⟩
  · exact ⟨⟨m₃, hm₃, rfl⟩, .inr rfl⟩

/-- **`enqueue`** refuses its arguments, finds too few free descriptors, or hands out a chain. -/
theorem enqueue_spec (h : Sound q) {ds : List Descriptor} {r : Result Nat} (hr : enqueue dev q ds = r) :
    Enqueued q ds r.1 r.2 := by
  subst hr
  unfold enqueue
  split
  · exact .invalid ‹_›
  rename_i hds
  split
  · exact .full
  · rename_i hroom
    have hle : ds.length ≤ q.free.length := Nat.le_of_not_lt hroom
    have hlen : (q.free.take ds.length).length = ds.length := by
      rw [List.length_take, Nat.min_eq_left hle]
    rw [allocate_eq hle, List.nil_append]
    dsimp only
    have hpos : 0 < ds.length := List.length_pos_iff.mpr fun h0 => hds (.inl h0)
    obtain ⟨head, rest, hchain⟩ : ∃ head rest, q.free.take ds.length = head :: rest := by
      cases hc : q.free.take ds.length with
      | nil =>
        rw [hc] at hlen
        simp only [List.length_nil] at hlen
        omega
      | cons head rest => exact ⟨head, rest, rfl⟩
    have hfree : ∀ i ∈ q.free.take ds.length, i ∈ q.free := fun i hi => List.mem_of_mem_take hi
    have hrange : ∀ i ∈ q.free.take ds.length, i < q.size.toNat := fun i hi =>
      List.mem_range.mp (h.partition.subset (List.mem_append_left _ (hfree i hi)))
    -- a free descriptor is not the head of an outstanding chain
    have hinactive : q.activeHeads head = false := by
      by_contra hact
      obtain ⟨chain, hmem, hhead⟩ := (h.heads head).mp (by simpa using hact)
      have hin : head ∈ q.chains.flatten := List.mem_flatten.mpr ⟨chain, hmem, List.mem_of_mem_head? hhead⟩
      exact List.disjoint_of_nodup_append h.nodup (hfree head (by rw [hchain]; exact List.mem_cons_self)) hin
    have hhead : (q.free.take ds.length).headD 0 = head := by rw [hchain]; rfl
    rw [hhead, hinactive]
    have hfits : Fits { q with free := q.free.drop ds.length } := ⟨h.fits.layout, h.fits.len⟩
    obtain ⟨q₁, h₁, hs₁⟩ := writeChain_ok dev hfits _ ds hlen hrange
    have hfits₁ : Fits q₁ := Fits.same (q := { q with
      free := q.free.drop ds.length
      next := setLinks q.next (q.free.take ds.length) }) ⟨h.fits.layout, h.fits.len⟩ hs₁
    obtain ⟨m₁, hm₁, rfl⟩ := hs₁
    obtain ⟨⟨m₂, hm₂, hq₂⟩, h₂⟩ := publish_spec dev hfits₁ (q.free.take ds.length) head
    have hhanded : Handed q (q.free.take ds.length) head _ :=
      ⟨ds.length, rfl, by rw [hchain]; rfl, ⟨m₂, hm₂.trans hm₁, hq₂⟩⟩
    simp only [Bool.false_eq_true, if_false]
    rw [h₁]
    simp only [Result.bind]
    rcases h₂ with h₂ | h₂
    · rw [h₂]
      exact .handed hhanded hlen
    · rw [h₂]
      exact .unsynced hhanded

end Handing

/-! ## Chains -/

section Chains

variable {chains : List (List Nat)} {chain : List Nat} {head : Nat}

/-- Chains that share nothing are told apart by their heads. -/
theorem perm_filter_head (hnodup : chains.flatten.Nodup) (hmem : chain ∈ chains)
    (hhead : chain.head? = some head) :
    (chain :: chains.filter fun c => c.head? ≠ some head).Perm chains := by
  induction chains with
  | nil => cases hmem
  | cons c chains ih =>
    rw [List.flatten_cons] at hnodup
    have hdisj := List.disjoint_of_nodup_append hnodup
    have hfilter : ∀ d ∈ chains, d.head? = some head → head ∈ chains.flatten :=
      fun d hd h0 => List.mem_flatten.mpr ⟨d, hd, List.mem_of_mem_head? h0⟩
    by_cases hc : c.head? = some head
    · have hnone : ∀ d ∈ chains, d.head? ≠ some head :=
        fun d hd h0 => hdisj (List.mem_of_mem_head? hc) (hfilter d hd h0)
      have hchain : chain = c := (List.mem_cons.mp hmem).resolve_right fun h0 => hnone chain h0 hhead
      subst hchain
      rw [List.filter_cons_of_neg (by simp [hc]), List.filter_eq_self.mpr (by simpa using hnone)]
    · have hin : chain ∈ chains := (List.mem_cons.mp hmem).resolve_left fun h0 => hc (h0 ▸ hhead)
      rw [List.filter_cons_of_pos (by simpa using hc)]
      exact (List.Perm.swap c chain _).trans ((ih hnodup.of_append_right hin).cons c)

end Chains

section Releasing

variable (dev : Device) {q q' : Queue} {chain : List Nat}

theorem Sound.same (h : Sound q) (hs : Same q q') : Sound q' := by
  have hfits := h.fits.same hs
  obtain ⟨m, _, rfl⟩ := hs
  exact ⟨hfits, h.partition, h.linked, h.heads⟩

theorem Sound.lt_of_chain (h : Sound q) (hc : chain ∈ q.chains) {i : Nat} (hi : i ∈ chain) :
    i < q.size.toNat :=
  List.mem_range.mp (h.partition.subset (List.mem_append_right _ (List.mem_flatten.mpr ⟨chain, hc, hi⟩)))

theorem Sound.chain_nodup (h : Sound q) (hc : chain ∈ q.chains) : chain.Nodup :=
  (List.nodup_flatten.mp h.nodup.of_append_right).1 chain hc

/-- A chain without repetitions is released to its end. -/
theorem releaseLoop_ok (chain : List Nat) {left : Nat} (hlinked : Linked q.next chain) (hnodup : chain.Nodup)
    (hrange : ∀ i ∈ chain, i < q.size.toNat) (hleft : chain.length ≤ left) : releaseLoop q left chain.head? =
      (.ok (), { q with next := clearLinks q.next chain, free := chain.reverse ++ q.free }) := by
  induction chain generalizing q left with
  | nil => cases left <;> rfl
  | cons index chain ih =>
    obtain ⟨hin, hnodup⟩ := List.nodup_cons.mp hnodup
    obtain ⟨left, rfl⟩ : ∃ k, left = k + 1 := ⟨left - 1, by simp only [List.length_cons] at hleft; omega⟩
    show (if _ then _ else _) = _
    rw [if_neg (Nat.not_le_of_lt (hrange index List.mem_cons_self)), hlinked.1]
    have hrest : Linked (update q.next index none) chain :=
      hlinked.2.congr fun a ha => update_of_ne (fun h0 : a = index => hin (h0 ▸ ha)) _ _
    have htail := ih (q := { q with next := update q.next index none, free := index :: q.free }) hrest hnodup
      (fun i hi => hrange i (List.mem_cons_of_mem index hi)) (Nat.le_of_succ_le_succ hleft)
    rw [htail, List.reverse_cons, List.append_assoc]
    rfl

/-- **`release_chain`** of an outstanding chain comes to its end. -/
theorem releaseChain_ok (h : Sound q) {head : Nat} (hactive : q.activeHeads head = true) :
    ∃ chain ∈ q.chains, chain.head? = some head ∧ releaseChain q head = (.ok (), { q with
      free := chain.reverse ++ q.free
      next := clearLinks q.next chain
      activeHeads := update q.activeHeads head false
      chains := q.chains.filter fun chain => chain.head? ≠ some head }) := by
  obtain ⟨chain, hmem, hhead⟩ := (h.heads head).mp hactive
  have hnodup := h.chain_nodup hmem
  have hrange : ∀ i ∈ chain, i < q.size.toNat := fun i hi => h.lt_of_chain hmem hi
  have hlen : chain.length ≤ q.size.toNat := by
    have hsub : chain ⊆ List.range q.size.toNat := fun i hi => List.mem_range.mpr (hrange i hi)
    have := (List.subperm_of_subset hnodup hsub).length_le
    rwa [List.length_range] at this
  have hloop := releaseLoop_ok (q := { q with
    activeHeads := update q.activeHeads head false
    chains := q.chains.filter fun chain => chain.head? ≠ some head }) chain
      (h.linked chain hmem).2 hnodup hrange hlen
  rw [hhead] at hloop
  exact ⟨chain, hmem, hhead, hloop⟩

/-- **`pop_used`** takes back an outstanding chain, or changes nothing. -/
theorem popUsed_spec (h : Sound q) {r : Result (Option UsedDescriptor)} (hr : popUsed dev q = r) :
    Popped q r.1 r.2 := by
  subst hr
  obtain ⟨_, _, _, hlen⟩ := h.fits.eq
  have hslot := mod_size_lt h.fits q.lastUsedIndex
  let P : Result (Option UsedDescriptor) → Prop := fun r => Popped q r.1 r.2
  refine sync_bind dev P rfl (fun m₁ hm₁ => ?_) fun m₁ hm₁ => .rejected ⟨m₁, hm₁, rfl⟩ (.inl rfl)
  refine access_bind dev P hm₁ (by dsimp only; omega) fun index m₂ hm₂ => ?_
  dsimp only
  split
  · exact .none ⟨m₂, hm₂, rfl⟩
  split
  · exact .rejected ⟨m₂, hm₂, rfl⟩ (.inr rfl)
  refine access_bind dev P hm₂ (by omega) fun head m₃ hm₃ => ?_
  dsimp only
  split
  · exact .rejected ⟨m₃, hm₃, rfl⟩ (.inr rfl)
  split
  · exact .rejected ⟨m₃, hm₃, rfl⟩ (.inr rfl)
  rename_i hvalid
  obtain ⟨_, hactive⟩ := not_or.mp hvalid
  refine access_bind dev P hm₃ (by omega) fun written m₄ hm₄ => ?_
  obtain ⟨chain, hmem, hhead, hrel⟩ := releaseChain_ok (h.same ⟨m₄, hm₄, rfl⟩) (by simpa using hactive)
  rw [hrel]
  exact .used ⟨chain, hmem, hhead, ⟨m₄, hm₄, rfl⟩⟩

end Releasing

/-! ## The partition along runs -/

section Runs

variable (dev : Device) {q q' q₁ : Queue} {heads : List Nat}

/-- The device has reported chains used, and they were taken back in this order. -/
inductive Reported : Queue → List Nat → Queue → Prop where
  | none {q q' : Queue} : Same q q' → Reported q [] q'
  | some {q q₁ q' : Queue} {head heads} : Released q head q₁ → Reported q₁ heads q' →
      Reported q (head :: heads) q'

theorem Same.released {head : Nat} (hs : Same q q₁) (hrel : Released q₁ head q') : Released q head q' := by
  obtain ⟨m, hm, rfl⟩ := hs
  obtain ⟨chain, hmem, hhead, m', hm', rfl⟩ := hrel
  exact ⟨chain, hmem, hhead, m', hm'.trans hm, rfl⟩

theorem Same.reported (hs : Same q q₁) (hr : Reported q₁ heads q') : Reported q heads q' := by
  cases hr with
  | none hs' => exact .none (hs.trans hs')
  | some hrel hrest => exact .some (hs.released hrel) hrest

theorem Reported.trans {heads' : List Nat} (h : Reported q heads q₁) (h' : Reported q₁ heads' q') :
    Reported q (heads ++ heads') q' := by
  induction h with
  | none hs => exact hs.reported h'
  | some hrel _ ih => exact .some hrel (ih h')

/-- **A new queue is sound.** -/
theorem sound_new {memory : Memory} {size : UInt16} (h : new memory size = .ok q) : Sound q := by
  unfold new at h
  split at h
  · cases h
  rename_i layout hlayout
  split at h
  · cases h
  rename_i hlen
  cases h
  refine ⟨⟨hlayout, Nat.le_of_not_lt hlen⟩, ?_, nofun, ?_⟩
  · show (List.range size.toNat ++ []).Perm _
    rw [List.append_nil]
  · intro i
    simp

section Kept

variable (h : Sound q) {head : Nat}
include h

/-- **Handing out a chain keeps that.** -/
theorem Sound.handed {chain : List Nat} (hh : Handed q chain head q') : Sound q' := by
  obtain ⟨n, hchain, hhead, hsame⟩ := hh
  have hsplit : chain ++ q.free.drop n = q.free := by rw [hchain, List.take_append_drop]
  have hnodup : chain.Nodup := by
    rw [hchain]
    exact h.nodup.of_append_left.sublist (List.take_sublist _ _)
  have hfree : ∀ i ∈ chain, i ∈ q.free := fun i hi => by
    rw [← hsplit]
    exact List.mem_append_left _ hi
  refine Sound.same ?_ hsame
  refine ⟨⟨h.fits.layout, h.fits.len⟩, ?_, ?_, ?_⟩
  · show (q.free.drop n ++ (chain :: q.chains).flatten).Perm _
    rw [List.flatten_cons, ← List.append_assoc]
    refine (List.perm_append_comm.append_right _).trans ?_
    rw [hsplit]
    exact h.partition
  · intro c hc
    rcases List.mem_cons.mp hc with rfl | hc
    · refine ⟨fun h0 => ?_, linked_setLinks hnodup⟩
      rw [h0] at hhead
      cases hhead
    · refine ⟨(h.linked c hc).1, (h.linked c hc).2.congr fun i hi => setLinks_of_not_mem fun h0 => ?_⟩
      exact List.disjoint_of_nodup_append h.nodup (hfree i h0) (List.mem_flatten.mpr ⟨c, hc, hi⟩)
  · intro i
    simp only [update_apply]
    split
    · rename_i heq
      subst heq
      exact ⟨fun _ => ⟨chain, List.mem_cons_self, hhead⟩, fun _ => rfl⟩
    · rename_i hne
      rw [h.heads i]
      constructor
      · rintro ⟨c, hc, h0⟩
        exact ⟨c, List.mem_cons_of_mem _ hc, h0⟩
      · rintro ⟨c, hc, h0⟩
        rcases List.mem_cons.mp hc with rfl | hc
        · exact absurd (Option.some.inj (h0.symm.trans hhead)) hne
        · exact ⟨c, hc, h0⟩

/-- **So does releasing one.** -/
theorem Sound.released (hr : Released q head q') : Sound q' := by
  obtain ⟨chain, hmem, hhead, hsame⟩ := hr
  have hperm := perm_filter_head h.nodup.of_append_right hmem hhead
  have hflat := hperm.flatten
  rw [List.flatten_cons] at hflat
  have hkeep : ∀ c ∈ q.chains.filter (fun chain => chain.head? ≠ some head), c ∈ q.chains ∧
    c.head? ≠ some head :=
    fun c hc => by simpa using hc
  refine Sound.same ?_ hsame
  refine ⟨⟨h.fits.layout, h.fits.len⟩, ?_, ?_, ?_⟩
  · show ((chain.reverse ++ q.free) ++ (q.chains.filter _).flatten).Perm _
    refine List.Perm.trans ?_ h.partition
    refine (((List.reverse_perm chain).append_right _).append_right _).trans ?_
    rw [List.append_assoc]
    refine List.perm_append_comm_assoc chain q.free _ |>.trans ?_
    exact hflat.append_left _
  · intro c hc
    obtain ⟨hin, _⟩ := hkeep c hc
    refine ⟨(h.linked c hin).1, (h.linked c hin).2.congr fun i hi => clearLinks_of_not_mem fun h0 => ?_⟩
    -- two chains of the partition share nothing
    have hnodup : (chain ++ (q.chains.filter fun chain => chain.head? ≠ some head).flatten).Nodup :=
      hflat.nodup_iff.mpr h.nodup.of_append_right
    exact List.disjoint_of_nodup_append hnodup h0 (List.mem_flatten.mpr ⟨c, hc, hi⟩)
  · intro i
    simp only [update_apply]
    split
    · rename_i heq
      subst heq
      simp
    · rename_i hne
      rw [h.heads i]
      constructor
      · rintro ⟨c, hc, h0⟩
        refine ⟨c, List.mem_filter.mpr ⟨hc, ?_⟩, h0⟩
        rw [h0]
        simpa using hne
      · rintro ⟨c, hc, h0⟩
        exact ⟨c, (hkeep c hc).1, h0⟩

theorem Sound.reported (hr : Reported q heads q') : Sound q' := by
  induction hr with
  | none hs => exact h.same hs
  | some hrel _ ih => exact ih (h.released hrel)

/-- What a loop that waits for `head` can return, after it has taken back the chains `heads`. -/
def Answers (head : Nat) (heads : List Nat) : Except Error (Option UsedDescriptor) → Prop
  | .ok (some completed) => completed.head = head ∧ ∃ others, heads = others ++ [head] ∧ head ∉ others
  | .ok none => head ∉ heads
  | .error e => (e = .accessFailed ∨ e = .invalidUsedIndex) ∧ head ∉ heads

/-- **What draining does**: chains are released, the wanted one last if at all. -/
theorem drain_cases (head fuel : Nat) :
    ∃ heads q' r, drain dev head fuel q = (r, q') ∧ Reported q heads q' ∧ Answers head heads r := by
  induction fuel generalizing q with
  | zero => exact ⟨[], q, _, rfl, .none .refl, List.not_mem_nil⟩
  | succ fuel ih =>
    generalize hpop : popUsed dev q = popped
    obtain ⟨r, q₁⟩ := popped
    rw [drain, hpop]
    cases popUsed_spec dev h hpop with
    | none hs => exact ⟨[], q₁, .ok none, rfl, .none hs, List.not_mem_nil⟩
    | rejected hs he => exact ⟨[], q₁, _, rfl, .none hs, he, List.not_mem_nil⟩
    | @used head' written _ hrel =>
      by_cases heq : head' = head
      · refine ⟨[head'], q₁, _, if_pos heq, .some hrel (.none .refl), heq, [], ?_, List.not_mem_nil⟩
        rw [heq]
        rfl
      · obtain ⟨heads, q', r, hrun, hrep, hans⟩ := ih (h.released hrel)
        refine ⟨head' :: heads, q', r, (if_neg heq).trans hrun, .some hrel hrep, ?_⟩
        have hcons : head ∉ heads → head ∉ head' :: heads := fun h0 =>
          fun h1 => (List.mem_cons.mp h1).elim (fun h2 => heq h2.symm) h0
        cases r with
        | error e => exact ⟨hans.1, hcons hans.2⟩
        | ok used =>
          cases used with
          | none => exact hcons hans
          | some completed =>
            obtain ⟨hhead, others, hsplit, hnot⟩ := hans
            refine ⟨hhead, head' :: others, by rw [hsplit]; rfl, ?_⟩
            exact fun h1 => (List.mem_cons.mp h1).elim (fun h2 => heq h2.symm) hnot

/-- **What polling does.** -/
theorem polls_cases (head maxPolls : Nat) :
    ∃ heads q' r, polls dev head maxPolls q = (r, q') ∧ Reported q heads q' ∧
      ((∃ completed, r = .ok completed ∧ Answers head heads (.ok (some completed))) ∨
        (r = .error .commandTimeout ∨ r = .error .accessFailed ∨ r = .error .invalidUsedIndex) ∧
        head ∉ heads) := by
  induction maxPolls generalizing q with
  | zero => exact ⟨[], q, _, rfl, .none .refl, .inr ⟨.inl rfl, List.not_mem_nil⟩⟩
  | succ n ih =>
    obtain ⟨heads, q₁, r, hrun, hrep, hans⟩ := drain_cases dev h head (q.size.toNat + 1)
    rw [polls, hrun]
    cases r with
    | error e =>
      refine ⟨heads, q₁, _, rfl, hrep, .inr ⟨?_, hans.2⟩⟩
      rcases hans.1 with rfl | rfl
      · exact .inr (.inl rfl)
      · exact .inr (.inr rfl)
    | ok used =>
      cases used with
      | some completed => exact ⟨heads, q₁, _, rfl, hrep, .inl ⟨completed, rfl, hans⟩⟩
      | none =>
        obtain ⟨heads', q', r', hrun', hrep', hend⟩ := ih (h.reported hrep)
        refine ⟨heads ++ heads', q', r', hrun', hrep.trans hrep', ?_⟩
        have happ : ∀ l, head ∉ l → head ∉ heads ++ l := fun l h0 h1 => (List.mem_append.mp h1).elim hans h0
        rcases hend with ⟨completed, rfl, hhead, others, hsplit, hnot⟩ | ⟨herr, hnot⟩
        · exact .inl ⟨completed, rfl, hhead, heads ++ others, by rw [hsplit, List.append_assoc], happ _ hnot⟩
        · exact .inr ⟨herr, happ _ hnot⟩

/-- Each round of the inner loop takes a chain back, so that more fuel makes no difference. -/
theorem drain_fuel (head : Nat) {fuel : Nat} (hfuel : q.chains.length < fuel) :
    drain dev head (fuel + 1) q = drain dev head fuel q := by
  induction fuel generalizing q with
  | zero => cases hfuel
  | succ fuel ih =>
    rw [drain]
    conv_rhs => rw [drain]
    generalize hpop : popUsed dev q = popped
    obtain ⟨r, q₁⟩ := popped
    cases popUsed_spec dev h hpop with
    | none | rejected => rfl
    | @used head' written _ hrel =>
      have hlen : q₁.chains.length < fuel := by
        obtain ⟨chain, hmem, hhead, m, _, rfl⟩ := hrel
        have hperm := (perm_filter_head h.nodup.of_append_right hmem hhead).length_eq
        rw [List.length_cons] at hperm
        show (q.chains.filter _).length < fuel
        omega
      show (if head' = head then _ else drain dev head (fuel + 1) q₁) = _
      rw [ih (h.released hrel) hlen]
      rfl

/-- The loop of the model never runs out of fuel. -/
theorem drain_complete (head k : Nat) :
    drain dev head (q.size.toNat + 1 + k) q = drain dev head (q.size.toNat + 1) q := by
  have hle : q.chains.length ≤ q.size.toNat := by
    have hlen := h.partition.length_eq
    rw [List.length_append, List.length_range] at hlen
    have hflat : q.chains.length ≤ q.chains.flatten.length := by
      rw [List.length_flatten]
      have hsum := List.length_le_sum_of_one_le (q.chains.map List.length) fun n hn => by
        obtain ⟨c, hc, rfl⟩ := List.mem_map.mp hn
        exact List.length_pos_iff.mpr (h.linked c hc).1
      rwa [List.length_map] at hsum
    omega
  induction k with
  | zero => rfl
  | succ k ih =>
    have hfuel : q.chains.length < q.size.toNat + 1 + k := by omega
    exact (drain_fuel dev h head hfuel).trans ih

/-- Whatever the result of a `wait_for_used`, it has taken back the chains that were reported, and that of its
    head last if it returns it and not at all if it fails. -/
theorem waitForUsed_reported (head maxPolls : Nat) {r : Except Error UsedDescriptor}
    (hw : waitForUsed dev q head maxPolls = (r, q')) : ∃ heads, Reported q heads q' ∧
      ((∃ used, r = .ok used ∧ Answers head heads (.ok (some used))) ∨ (∃ e, r = .error e) ∧
        head ∉ heads) := by
  unfold waitForUsed at hw
  split at hw
  · cases hw
    exact ⟨[], .none .refl, .inr ⟨⟨_, rfl⟩, List.not_mem_nil⟩⟩
  · obtain ⟨heads, q₁, r₁, hrun, hrep, hend⟩ := polls_cases dev h head maxPolls
    cases hrun.symm.trans hw
    refine ⟨heads, hrep, hend.imp_right fun ⟨herr, hnot⟩ => ⟨?_, hnot⟩⟩
    rcases herr with rfl | rfl | rfl <;> exact ⟨_, rfl⟩

theorem Enqueued.sound {ds : List Descriptor} {r : Except Error Nat} (he : Enqueued q ds r q') :
    Sound q' := by
  cases he with
  | invalid | full => exact h
  | handed hh | unsynced hh => exact h.handed hh

theorem Popped.sound {r : Except Error (Option UsedDescriptor)} (hp : Popped q r q') : Sound q' := by
  cases hp with
  | none hs | rejected hs => exact h.same hs
  | used hrel => exact h.released hrel

theorem sound_step {l : Label} (hs : step q l = some q') : Sound q' := by
  obtain ⟨call, dev⟩ := l
  cases hs
  cases call with
  | enqueue ds =>
    exact (enqueue_spec dev h rfl).sound h
  | popUsed =>
    exact (popUsed_spec dev h rfl).sound h
  | waitForUsed head maxPolls =>
    obtain ⟨heads, hrep, _⟩ := waitForUsed_reported dev h head.toNat maxPolls.toNat rfl
    exact h.reported hrep

end Kept

/-- **Every reachable queue is sound.** -/
theorem sound_reachable (h : virtqueue.Reachable q) : Sound q := by
  refine System.Reach.invariant ?_ ?_ h
  · rintro q ⟨memory, size, hnew⟩
    exact sound_new hnew
  · intro q l q' hi _ hs
    exact sound_step hi hs

end Runs

/-! ## The guarantees -/

/-- What the driver keeps: everything but the memory. -/
def SameBook (q q' : Queue) : Prop :=
  q'.free = q.free ∧ q'.next = q.next ∧ q'.activeHeads = q.activeHeads ∧ q'.chains = q.chains

/-- What holds of a queue whatever the device does. -/
structure Guarantees (q : Queue) : Prop where
  /-- Every descriptor is on the free stack once, or in one outstanding chain. -/
  partition : (q.free ++ q.chains.flatten).Perm (List.range q.size.toNat)
  /-- The links of the driver are those of the outstanding chains, and `active_heads` marks their heads. -/
  chains : (∀ chain ∈ q.chains, chain ≠ [] ∧ Linked q.next chain) ∧
    ∀ h, q.activeHeads h = true ↔ ∃ chain ∈ q.chains, chain.head? = some h
  /-- A chain that is handed out consists of descriptors that were free, and in no outstanding chain. -/
  fresh : ∀ dev ds head q', enqueue dev q ds = (.ok head, q') → ∃ chain, chain.head? = some head ∧
    chain.length = ds.length ∧ q'.chains = chain :: q.chains ∧ ∀ i ∈ chain, i ∈ q.free ∧ ∀ c ∈ q.chains, i ∉ c
  /-- A chain is taken back only when its head was reported. -/
  reported : ∀ dev used q', popUsed dev q = (.ok (some used), q') →
    ∃ chain ∈ q.chains, chain.head? = some used.head ∧
    q'.chains = q.chains.filter fun c => c.head? ≠ some used.head
  /-- A `pop_used` that rejects what the device wrote changes nothing. -/
  rejected : ∀ dev q', popUsed dev q = (.error .invalidUsedIndex, q') → SameBook q q'
  /-- A `wait_for_used` takes back the chains that are reported, and nothing else: that of its head last if it
      returns it, and not at all if it fails. -/
  waited : ∀ dev head maxPolls r q', waitForUsed dev q head maxPolls = (r, q') →
    ∃ heads, Reported q heads q' ∧
    ((∃ used, r = .ok used ∧ Answers head heads (.ok (some used))) ∨ (∃ e, r = .error e) ∧ head ∉ heads)
  /-- The loop of `wait_for_used` over completions ends by itself. -/
  completes : ∀ dev head k, drain dev head (q.size.toNat + 1 + k) q = drain dev head (q.size.toNat + 1) q
  /-- The checks of `enqueue` and `release_chain` behind the first ones never fail. -/
  enqueues : ∀ dev ds q', enqueue dev q ds = (.error .invalidDescriptor, q') →
    ds = [] ∨ ∃ d ∈ ds, d.length = 0
  releases : ∀ head, q.activeHeads head = true → (releaseChain q head).1 = .ok ()

theorem Same.book {q q' : Queue} (h : Same q q') : SameBook q q' := by
  obtain ⟨m, _, rfl⟩ := h
  exact ⟨rfl, rfl, rfl, rfl⟩

section Results

variable {q : Queue}

/-- What follows for the driver. -/
theorem Sound.guarantees (h : Sound q) : Guarantees q := by
  refine ⟨h.partition, ⟨h.linked, h.heads⟩, ?_, ?_, ?_, ?_,
    fun dev head k => drain_complete dev h head k, ?_, ?_⟩
  · intro dev ds head q' heq
    cases enqueue_spec dev h heq with
    | @handed chain _ _ hh hlen =>
      obtain ⟨n, hchain, hhead, m, _, rfl⟩ := hh
      have hfree : ∀ i ∈ chain, i ∈ q.free := fun i hi => by
        rw [hchain] at hi
        exact List.mem_of_mem_take hi
      refine ⟨chain, hhead, hlen, rfl, fun i hi => ⟨hfree i hi, fun c hc hin => ?_⟩⟩
      exact List.disjoint_of_nodup_append h.nodup (hfree i hi) (List.mem_flatten.mpr ⟨c, hc, hin⟩)
  · intro dev used q' heq
    cases popUsed_spec dev h heq with
    | used hrel =>
      obtain ⟨chain, hmem, hhead, m, _, rfl⟩ := hrel
      exact ⟨chain, hmem, hhead, rfl⟩
  · intro dev q' heq
    cases popUsed_spec dev h heq with
    | rejected hs => exact hs.book
  · exact fun dev head maxPolls r q' hw => waitForUsed_reported dev h head maxPolls hw
  · intro dev ds q' heq
    cases enqueue_spec dev h heq with
    | invalid hds => exact hds
  · intro head hactive
    obtain ⟨chain, _, _, heq⟩ := releaseChain_ok h hactive
    rw [heq]

/-- **Descriptors are free or outstanding, once**, in every run of a virtqueue against any device. -/
theorem descriptors_partitioned (h : virtqueue.Reachable q) : Guarantees q := (sound_reachable h).guarantees

end Results

/-! ## A queue of two descriptors -/

/-- A queue of two descriptors. -/
def smallQueue : Queue where
  memory := Memory.write ⟨66, fun _ => 0, 0⟩ 0 (List.replicate 66 0)
  size := 2
  layout := ⟨0, 32, 44, 66⟩
  free := [0, 1]
  next _ := none
  activeHeads _ := false
  availableIndex := 0
  lastUsedIndex := 0
  chains := []

theorem new_smallQueue : new ⟨66, fun _ => 0, 0⟩ 2 = .ok smallQueue := by
  have hlayout : Layout.calculate 2 = .ok ⟨0, 32, 44, 66⟩ := by decide
  unfold new
  rw [hlayout]
  rfl

/-- A device that leaves the memory alone. -/
def idleDevice : Device := ⟨fun _ bytes => bytes, fun _ => true⟩

/-- A device that reports two chains: the one with head 0, and one that was never handed out. -/
def liar : Device := ⟨fun _ _ i => if i = 46 then 2 else if i = 56 then 7 else 0, fun _ => true⟩

/-- A page for the device to write. -/
def buffer : Descriptor := ⟨4096, 64, true⟩

/-- Each descriptor in a chain of its own. -/
def twoChains : List Label := [⟨.enqueue [buffer], idleDevice⟩, ⟨.enqueue [buffer], idleDevice⟩]

theorem descriptors_partitioned_twoChains : ∃ q, virtqueue.Reachable q ∧ q.free = [] ∧ q.chains = [[1], [0]] ∧
    Guarantees q := by
  obtain ⟨q, hq, hp⟩ := System.reachable_of_exec virtqueue smallQueue twoChains
    (fun q => q.free = [] ∧ q.chains = [[1], [0]]) ⟨_, _, new_smallQueue⟩ (by decide +kernel)
  exact ⟨q, hq, hp.1, hp.2, descriptors_partitioned hq⟩

/-- **A wait that is rejected can have changed the state**: it waits for the chain with head 1, drops the
    completion of the other one, and then finds that the device reports a chain that does not exist. -/
theorem wait_rejected_after_release : ∃ q, virtqueue.Reachable q ∧
    (waitForUsed liar q 1 1).1 = .error .invalidUsedIndex ∧ q.free = [] ∧ q.activeHeads 0 = true ∧
      (waitForUsed liar q 1 1).2.free = [0] ∧ (waitForUsed liar q 1 1).2.activeHeads 0 = false := by
  exact System.reachable_of_exec virtqueue smallQueue twoChains _ ⟨_, _, new_smallQueue⟩ (by decide +kernel)

end Mnu.PlugKit.Virtqueue
