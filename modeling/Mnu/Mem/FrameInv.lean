import Mnu.Lib.Chain
import Mnu.Mem.Frame

/-!
# `Mnu.Mem.FrameInv` — every frame is in one place

`Owns a q l` says that the allocator has the frames `q` in its quarantine and the frames `l` on its free list,
that all of them carry their cookie, and that none is there twice. Each operation is described by what it does
to these two lists. `Cursor` says that everything handed out so far lies below the cursor, so that a new frame
is one that nobody has seen.

The rest is counting. What callers hold, together with the two lists, is a permutation of what was ever handed
out (`Inv.parts`), and that has no duplicates.
-/

namespace Mnu.Mem

open Mnu.Lib Mnu.Boot Function

/-- The whole frame is in a usable region. -/
def UsableFrame (memoryMap : List MemoryRegion) (f : Nat) : Prop :=
  ∃ r ∈ memoryMap, r.regionType = .usable ∧ r.start ≤ f ∧ f + 4096 ≤ r.start + r.len

namespace FrameAllocator

variable {a a' : FrameAllocator} {f g stop n phys : Nat} {q l : List Nat}
  {regions : List (MemoryRegion × Nat)}
  {r : MemoryRegion}

/-- The quarantine as a ring. -/
def ring (a : FrameAllocator) : RingBuffer Nat where
  head := a.quarantineHead
  tail := (a.quarantineHead + a.quarantineLen) % frameQuarantineCap
  count := a.quarantineLen
  queue := a.quarantine

/-- The frames in quarantine, the oldest first. -/
def quarantined (a : FrameAllocator) : List Nat := a.ring.toList frameQuarantineCap

/-- The free list as it stands in memory. -/
def Listed (a : FrameAllocator) (l : List Nat) : Prop := Chain (fun f => (a.memory f).1) a.freeListHead l

/-- A frame that the allocator may take back. -/
structure Returnable (a : FrameAllocator) (f : Nat) : Prop where
  aligned : f % 4096 = 0
  nonzero : f ≠ 0
  usable : a.isUsableFrameAddr f = true
  ready : a.physMappingReady = true

/-- A frame that the allocator has back. -/
structure Free (a : FrameAllocator) (f : Nat) : Prop extends Returnable a f where
  cookie : (a.memory f).2 = a.freeCookie f

/-- `q` is quarantined and `l` on the free list. -/
structure Owns (a : FrameAllocator) (q l : List Nat) : Prop where
  sound : a.ring.Sound frameQuarantineCap
  quarantined : a.quarantined = q
  listed : a.Listed l
  free : ∀ f ∈ q ++ l, a.Free f
  nodup : (q ++ l).Nodup

/-- What no operation on freed frames changes. -/
structure Keeps (a a' : FrameAllocator) : Prop where
  map : a'.memoryMap = a.memoryMap
  seed : a'.freeCookieSeed = a.freeCookieSeed
  ready : a'.physMappingReady = a.physMappingReady
  cursor : a'.nextFrame = a.nextFrame

theorem Keeps.trans {a'' : FrameAllocator} (h : Keeps a a') (h' : Keeps a' a'') : Keeps a a'' :=
  ⟨h'.map.trans h.map, h'.seed.trans h.seed, h'.ready.trans h.ready, h'.cursor.trans h.cursor⟩

theorem writeFrameMeta_ready (h : a.physMappingReady = true) (f next : Nat) (cookie : UInt64) :
    a.writeFrameMeta f next cookie = { a with memory := update a.memory f (next, cookie) } := if_pos h

theorem pushFreeList_ready (h : a.physMappingReady = true) (f : Nat) : a.pushFreeList f = { a with
        memory := update a.memory f (a.freeListHead, a.freeCookie f)
        freeListHead := f } := by
  unfold pushFreeList
  rw [writeFrameMeta_ready h]

theorem length_quarantined (a : FrameAllocator) : a.quarantined.length = a.quarantineLen :=
  RingBuffer.length_toList a.ring

theorem Returnable.keeps (h : a.Returnable f) (hk : Keeps a a') : a'.Returnable f where
  aligned := h.aligned
  nonzero := h.nonzero
  usable := by
    unfold isUsableFrameAddr
    rw [hk.map]
    exact h.usable
  ready := hk.ready.trans h.ready

theorem freeCookie_keeps (hk : Keeps a a') (f : Nat) : a'.freeCookie f = a.freeCookie f := by
  unfold freeCookie
  rw [hk.seed]

/-- A free frame stays one when another frame is written to. -/
theorem Free.write {w : Nat × UInt64} (h : a.Free g) (hk : Keeps a a')
    (hmem : a'.memory = update a.memory f w) (hne : g ≠ f) : a'.Free g where
  toReturnable := h.toReturnable.keeps hk
  cookie := by
    rw [hmem, update_of_ne hne, freeCookie_keeps hk]
    exact h.cookie

/-- So does a list of frames. -/
theorem chain_write {memory : Nat → Nat × UInt64} {head : Nat} (w : Nat × UInt64)
    (h : Chain (fun g => (memory g).1) head l) (hf : f ∉ l) :
    Chain (fun g => (update memory f w g).1) head l := by
  apply h.congr
  intro x hx
  have hne : x ≠ f := by
    rintro rfl
    exact hf hx
  rw [update_of_ne hne]

/-- A frame with its cookie is free. -/
theorem Returnable.free {next : Nat} (h : a.Returnable f) (hk : Keeps a a')
    (hmem : a'.memory = update a.memory f (next, a.freeCookie f)) : a'.Free f where
  toReturnable := h.keeps hk
  cookie := by
    rw [hmem, update_self, freeCookie_keeps hk]

/-! ## The quarantine and the free list -/

/-- Removing the oldest frame of the quarantine. -/
theorem Owns.dequeue (h : Owns a (f :: q) l) :
    a.quarantineLen ≠ 0 ∧ a.quarantine a.quarantineHead = f ∧ Owns { a with
        quarantine := update a.quarantine a.quarantineHead 0
        quarantineHead := (a.quarantineHead + 1) % frameQuarantineCap
        quarantineLen := a.quarantineLen - 1 } q l := by
  obtain ⟨r', hd, hrest⟩ := RingBuffer.exists_dequeue h.sound h.quarantined
  have hclear := RingBuffer.toList_dequeue_clear h.sound hd 0
  have hring := h.sound.dequeue hd
  have hlen : a.quarantineLen ≠ 0 := by
    rw [← length_quarantined, h.quarantined]
    exact Nat.succ_ne_zero q.length
  unfold RingBuffer.dequeue at hd
  rw [if_neg (show ¬ a.ring.count = 0 from hlen)] at hd
  obtain ⟨hfirst, rfl⟩ := Prod.mk.inj (Option.some.inj hd)
  refine ⟨hlen, hfirst, ⟨hring.head_lt, hring.count_le, rfl⟩, hclear.trans hrest, h.listed, ?_, ?_⟩
  · intro x hx
    obtain ⟨⟨h1, h2, h3, h4⟩, h5⟩ := h.free x (List.mem_cons_of_mem f hx)
    exact ⟨⟨h1, h2, h3, h4⟩, h5⟩
  · exact (List.nodup_cons.mp h.nodup).2

/-- A frame goes to the front of the free list. -/
theorem Owns.pushFreeList (h : Owns a q l) (hf : a.Returnable f) (hnew : f ∉ q ++ l) :
    Owns (a.pushFreeList f) q (f :: l) ∧ Keeps a (a.pushFreeList f) := by
  rw [pushFreeList_ready hf.ready]
  have hkeeps : Keeps a { a with
      memory := update a.memory f (a.freeListHead, a.freeCookie f), freeListHead := f } :=
    ⟨rfl, rfl, rfl, rfl⟩
  refine ⟨⟨h.sound, h.quarantined, ?_, ?_, ?_⟩, hkeeps⟩
  · apply Chain.cons hf.nonzero
    dsimp only
    rw [update_self]
    exact chain_write _ h.listed (fun hmem => hnew (List.mem_append_right q hmem))
  · intro x hx
    by_cases hxf : x = f
    · subst hxf
      exact hf.free hkeeps rfl
    · have hx' : x ∈ f :: (q ++ l) := List.perm_middle.mem_iff.mp hx
      have hxo : x ∈ q ++ l := (List.mem_cons.mp hx').resolve_left hxf
      exact (h.free x hxo).write hkeeps rfl hxf
  · exact List.nodup_middle.mpr (List.nodup_cons.mpr ⟨hnew, h.nodup⟩)

/-- **The oldest frame of the quarantine goes to the front of the free list.** -/
theorem Owns.release (h : Owns a (f :: q) l) :
    Owns a.releaseQuarantineOldest q (f :: l) ∧ Keeps a a.releaseQuarantineOldest := by
  obtain ⟨hlen, hfirst, hrest⟩ := h.dequeue
  obtain ⟨h1, h2, h3, h4⟩ := (h.free f List.mem_cons_self).toReturnable
  have hpush := hrest.pushFreeList ⟨h1, h2, h3, h4⟩ (List.nodup_cons.mp h.nodup).1
  unfold releaseQuarantineOldest
  rw [if_neg hlen]
  dsimp only
  rw [hfirst]
  obtain ⟨k1, k2, k3, k4⟩ := hpush.2
  exact ⟨hpush.1, k1, k2, k3, k4⟩

/-- With room in the ring, a frame that comes back is the last of the quarantine. -/
theorem Owns.insert (h : Owns a q l) (hroom : a.quarantineLen < frameQuarantineCap) (hf : a.Returnable f)
    (hnew : f ∉ q ++ l) : Owns (a.quarantineInsert f) (q ++ [f]) l ∧ Keeps a (a.quarantineInsert f) := by
  have heq : a.quarantineInsert f = { a with
        quarantine := update a.quarantine ((a.quarantineHead + a.quarantineLen) % frameQuarantineCap) f
        quarantineLen := a.quarantineLen + 1
        memory := update a.memory f (0, a.freeCookie f) } := by
    unfold quarantineInsert writeFrameMeta
    exact if_pos hf.ready
  have hmem : (a.quarantineInsert f).memory = update a.memory f (0, a.freeCookie f) := by
    rw [heq]
  have hkeeps : Keeps a (a.quarantineInsert f) := by
    rw [heq]
    exact ⟨rfl, rfl, rfl, rfl⟩
  refine ⟨⟨?_, ?_, ?_, ?_, ?_⟩, hkeeps⟩
  · rw [heq]
    exact ⟨h.sound.head_lt, hroom, rfl⟩
  · rw [heq, ← h.quarantined]
    exact RingBuffer.toList_enqueue h.sound hroom
  · unfold Listed
    rw [hmem, show (a.quarantineInsert f).freeListHead = a.freeListHead by rw [heq]]
    exact chain_write _ h.listed (fun hl => hnew (List.mem_append_right q hl))
  · intro x hx
    by_cases hxf : x = f
    · subst hxf
      exact hf.free hkeeps hmem
    · rw [List.append_assoc] at hx
      have hx' : x ∈ f :: (q ++ l) := List.perm_middle.mem_iff.mp hx
      have hxo : x ∈ q ++ l := (List.mem_cons.mp hx').resolve_left hxf
      exact (h.free x hxo).write hkeeps hmem hxf
  · rw [List.append_assoc]
    exact List.nodup_middle.mpr (List.nodup_cons.mpr ⟨hnew, h.nodup⟩)

/-- **A frame that comes back is added to what the allocator owns.** A full quarantine makes room first. -/
theorem Owns.quarantinePush (h : Owns a q l) (hf : a.Returnable f) (hnew : f ∉ q ++ l) :
    Keeps a (a.quarantinePush f) ∧ ∃ q' l', Owns (a.quarantinePush f) q' l' ∧
      (q' ++ l').Perm (f :: (q ++ l)) := by
  unfold FrameAllocator.quarantinePush
  rw [if_neg (by decide)]
  split
  · rename_i hfull
    cases q with
    | nil =>
      rw [← length_quarantined, h.quarantined] at hfull
      exact absurd hfull (by decide)
    | cons g q =>
      obtain ⟨hrel, hkeeps⟩ := h.release
      have hroom : a.releaseQuarantineOldest.quarantineLen < frameQuarantineCap := by
        have hle : a.quarantineLen ≤ frameQuarantineCap := h.sound.count_le
        rw [← length_quarantined, h.quarantined] at hle
        rw [← length_quarantined, hrel.quarantined]
        exact hle
      have hperm : (q ++ g :: l).Perm (g :: q ++ l) := List.perm_middle
      obtain ⟨hins, hkeeps'⟩ := hrel.insert hroom (hf.keeps hkeeps) (fun hmem => hnew (hperm.mem_iff.mp hmem))
      refine ⟨hkeeps.trans hkeeps', _, _, hins, ?_⟩
      rw [List.append_assoc]
      exact List.perm_middle.trans (hperm.cons f)
  · rename_i hroom
    obtain ⟨hins, hkeeps⟩ := h.insert (Nat.not_le.mp hroom) hf hnew
    refine ⟨hkeeps, _, _, hins, ?_⟩
    rw [List.append_assoc]
    exact List.perm_middle

/-- What a free does. -/
theorem deallocateFrame_cases (a : FrameAllocator) (f : Nat) : a.deallocateFrame f = (a, false) ∨
      (a.deallocateFrame f = (a.quarantinePush f, true) ∧ f % 4096 = 0 ∧ a.isUsableFrameAddr f = true ∧
        a.physMappingReady = true) := by
  unfold deallocateFrame
  split
  · exact .inl rfl
  rename_i haligned
  split
  · exact .inl rfl
  rename_i husable
  split
  · exact .inl rfl
  rename_i hready
  have hfacts : f % 4096 = 0 ∧ a.isUsableFrameAddr f = true ∧ a.physMappingReady = true :=
    ⟨by simpa using haligned, by simpa using husable, by simpa using hready⟩
  split
  · split
    · exact .inl rfl
    · exact .inr ⟨rfl, hfacts⟩
  · exact .inr ⟨rfl, hfacts⟩

/-- **A frame that the allocator has back cannot be freed again.** -/
theorem Free.deallocateFrame (h : a.Free f) : a.deallocateFrame f = (a, false) := by
  unfold FrameAllocator.deallocateFrame readFrameMeta
  rw [if_neg (by simp [h.aligned]), if_neg (by simp [h.usable]), if_neg (by simp [h.ready]), if_pos h.ready]
  exact if_pos h.cookie

/-! ## Taking a frame -/

theorem Owns.pop_nil (h : Owns a q []) : a.popFreeList = (a, none) := by
  unfold popFreeList
  exact if_pos (h.listed.head_eq_zero.mpr rfl)

/-- The head of the free list passes every check, and so does the frame behind it. -/
theorem Owns.pop_cons (h : Owns a q (f :: l)) : ∃ a', a.popFreeList = (a', some f) ∧
    Owns a' q l ∧ Keeps a a' := by
  have hmem : f ∈ q ++ f :: l := List.mem_append_right q List.mem_cons_self
  have hfree := h.free f hmem
  have hnodup := List.nodup_cons.mp (List.nodup_middle.mp h.nodup)
  have hsplit : a.freeListHead = f ∧ Chain (fun f => (a.memory f).1) (a.memory f).1 l := by
    have hlisted := h.listed
    unfold Listed at hlisted
    generalize hhead : a.freeListHead = head at hlisted
    cases hlisted with
    | cons _ htail => exact ⟨rfl, htail⟩
  obtain ⟨hhead, htail⟩ := hsplit
  -- the next entry is trusted, or the list ends
  have hnext : (if (a.memory f).1 ≠ 0 ∧ (a.memory f).1 % 4096 = 0 ∧ a.isUsableFrameAddr (a.memory f).1 then
      (a.memory f).1 else 0) = (a.memory f).1 := by
    split
    · rfl
    rename_i hbad
    generalize (a.memory f).1 = next at htail hbad ⊢
    cases htail with
    | nil => rfl
    | @cons _ l' hne _ =>
      have hg := h.free next (List.mem_append_right q (List.mem_cons_of_mem f List.mem_cons_self))
      exact absurd ⟨hne, hg.aligned, hg.usable⟩ hbad
  have hpop : a.popFreeList =
      ({ a with freeListHead := (a.memory f).1, memory := update a.memory f (0, 0) }, some f) := by
    unfold popFreeList readFrameMeta
    dsimp only
    rw [hhead, if_neg hfree.nonzero, if_neg (by simp [hfree.aligned, hfree.usable]), if_pos hfree.ready]
    dsimp only
    rw [if_pos hfree.cookie, hnext]
    unfold writeFrameMeta
    rw [if_pos hfree.ready]
  have hkeeps : Keeps a { a with freeListHead := (a.memory f).1, memory := update a.memory f (0, 0) } :=
    ⟨rfl, rfl, rfl, rfl⟩
  refine ⟨_, hpop, ⟨h.sound, h.quarantined, ?_, ?_, hnodup.2⟩, hkeeps⟩
  · exact chain_write _ htail (fun hl => hnodup.1 (List.mem_append_right q hl))
  · intro x hx
    have hne : x ≠ f := by
      rintro rfl
      exact hnodup.1 hx
    have hx' : x ∈ q ++ f :: l := List.perm_middle.mem_iff.mpr (List.mem_cons_of_mem f hx)
    exact (h.free x hx').write hkeeps rfl hne

/-- **An allocation takes a frame that came back, if there is one**, and otherwise asks the cursor. -/
theorem Owns.allocateFrame (h : Owns a q l) : (q ++ l = [] ∧ a.allocateFrame = a.bump) ∨
      ∃ a' f q' l', a.allocateFrame = (a', some f) ∧ Owns a' q' l' ∧ Keeps a a' ∧
        (f :: (q' ++ l')).Perm (q ++ l) := by
  have hempty : a.quarantineLen = 0 ↔ q = [] := by
    rw [← length_quarantined, h.quarantined]
    exact List.length_eq_zero_iff
  unfold FrameAllocator.allocateFrame
  dsimp only
  cases l with
  | cons f l =>
    have hhead : ¬ (a.freeListHead = 0 ∧ a.quarantineLen ≠ 0) := by
      intro hc
      have := h.listed.head_eq_zero.mp hc.1
      cases this
    obtain ⟨a', hpop, howns, hkeeps⟩ := h.pop_cons
    rw [if_neg hhead, hpop]
    exact .inr ⟨a', f, q, l, rfl, howns, hkeeps, List.perm_middle.symm⟩
  | nil =>
    have hhead : a.freeListHead = 0 := h.listed.head_eq_zero.mpr rfl
    cases q with
    | nil =>
      have hlen : a.quarantineLen = 0 := hempty.mpr rfl
      rw [if_neg (fun hc => hc.2 hlen), h.pop_nil]
      exact .inl ⟨rfl, rfl⟩
    | cons f q =>
      have hlen : a.quarantineLen ≠ 0 := fun hc => nomatch hempty.mp hc
      obtain ⟨hrel, hkeeps⟩ := h.release
      obtain ⟨a', hpop, howns, hkeeps'⟩ := hrel.pop_cons
      rw [if_pos ⟨hhead, hlen⟩, hpop]
      exact .inr ⟨a', f, q, [], rfl, howns, hkeeps.trans hkeeps', List.Perm.refl _⟩

/-! ## The cursor -/

/-- The cursor has nothing to do with the frames that came back. -/
theorem Owns.atCursor (h : Owns a q l) (i next : Nat) :
    Owns { a with nextRegion := i, nextFrame := next } q l := by
  refine ⟨h.sound, h.quarantined, h.listed, fun g hg => ?_, h.nodup⟩
  obtain ⟨⟨h1, h2, h3, h4⟩, h5⟩ := h.free g hg
  exact ⟨⟨h1, h2, h3, h4⟩, h5⟩

/-- Everything handed out is usable memory below the cursor. -/
structure Cursor (a : FrameAllocator) (issued : List Nat) : Prop where
  low : 0x100000 ≤ a.nextFrame * 4096
  high : a.nextFrame * 4096 + 4096 ≤ wordBound
  frame : ∀ f ∈ issued, f % 4096 = 0 ∧ 0x100000 ≤ f ∧ f + 4096 ≤ a.nextFrame * 4096
  usable : ∀ f ∈ issued, UsableFrame a.memoryMap f

theorem Cursor.keeps {issued : List Nat} (h : Cursor a issued) (hk : Keeps a a') : Cursor a' issued := by
  refine ⟨?_, ?_, ?_, ?_⟩
  · rw [hk.cursor]
    exact h.low
  · rw [hk.cursor]
    exact h.high
  · rw [hk.cursor]
    exact h.frame
  · rw [hk.map]
    exact h.usable

/-- The rounded bounds of a region are inside it, and leave room at the end of the address space. -/
theorem region_bounds (hstart : alignUp r.start ≤ f) (hlt : f < stop)
    (hend : stop ≤ regionEnd r) : r.start ≤ f ∧ stop ≤ r.start + r.len ∧ stop + 4096 ≤ wordBound := by
  unfold regionEnd alignUp pageFloor saturatingAdd wordBound at *
  omega

theorem max_alignUp_aligned {start minPhys : Nat} (h : minPhys % 4096 = 0) :
    max (alignUp start) minPhys % 4096 = 0 := by
  unfold alignUp pageFloor
  omega

/-- A frame that the scan finds. -/
theorem bumpScan_some {minPhys nextRegion nextRegion' : Nat}
    (h : bumpScan minPhys regions nextRegion = (nextRegion', some f)) :
    ∃ p ∈ regions, p.1.regionType = .usable ∧ f = max (alignUp p.1.start) minPhys ∧ f < regionEnd p.1 := by
  induction regions generalizing nextRegion with
  | nil => cases h
  | cons p rest ih =>
    obtain ⟨region, index⟩ := p
    unfold bumpScan at h
    split at h
    · exact List.exists_mem_cons_of_exists (ih h)
    rename_i hskip
    split at h
    · exact List.exists_mem_cons_of_exists (ih h)
    split at h
    · exact List.exists_mem_cons_of_exists (ih h)
    · rename_i hbelow
      cases h
      rw [not_or, not_not] at hskip
      exact ⟨_, List.mem_cons_self, hskip.1, rfl, Nat.not_le.mp hbelow⟩

/-- What the loop of a reservation finds. -/
theorem reserveScan_some {minPhys bytes index : Nat}
    (h : reserveScan minPhys bytes regions = some (index, phys, stop)) :
    ∃ p ∈ regions, p.1.regionType = .usable ∧ phys = max (alignUp p.1.start) minPhys ∧ stop = phys + bytes ∧
      stop < wordBound ∧ stop ≤ regionEnd p.1 := by
  induction regions with
  | nil => cases h
  | cons p rest ih =>
    obtain ⟨region, i⟩ := p
    unfold reserveScan at h
    split at h
    · exact List.exists_mem_cons_of_exists (ih h)
    rename_i hskip
    split at h
    · exact List.exists_mem_cons_of_exists (ih h)
    dsimp only at h
    split at h
    · cases h
    rename_i hadd
    split at h
    · exact List.exists_mem_cons_of_exists (ih h)
    · rename_i hfits
      cases h
      rw [not_or, not_not] at hskip
      obtain ⟨hlt, hstop⟩ := checkedAdd_eq_some.mp hadd
      exact ⟨_, List.mem_cons_self, hskip.1, rfl, by omega, by omega, Nat.not_lt.mp hfits⟩

theorem mem_of_mem_drop_zipIdx {regions : List MemoryRegion} {p : MemoryRegion × Nat}
    (h : p ∈ regions.zipIdx.drop n) : p.1 ∈ regions :=
  List.fst_mem_of_mem_zipIdx (List.mem_of_mem_drop h)

theorem mem_framesFrom : g ∈ framesFrom phys n ↔ ∃ i < n, g = phys + 4096 * i := by
  unfold framesFrom
  simp only [List.mem_map, List.mem_range]
  exact ⟨fun ⟨i, hi, h⟩ => ⟨i, hi, h.symm⟩, fun ⟨i, hi, h⟩ => ⟨i, hi, h.symm⟩⟩

theorem nodup_framesFrom (phys n : Nat) : (framesFrom phys n).Nodup := by
  apply List.Nodup.map _ List.nodup_range
  intro i j hij
  have hij' : phys + 4096 * i = phys + 4096 * j := hij
  omega

section Advance

variable {issued : List Nat}

theorem Cursor.minPhys (h : Cursor a issued) : a.minPhys = a.nextFrame * 4096 := by
  have := h.high
  unfold FrameAllocator.minPhys
  omega

/-- **What the cursor moves over is new**: `n` frames of one region, at or above the cursor. -/
theorem Cursor.advance (h : Cursor a issued) (i : Nat) (hr : r ∈ a.memoryMap)
    (husable : r.regionType = .usable) (hn : 0 < n) (hphys : f = max (alignUp r.start) a.minPhys)
    (hend : f + n * 4096 ≤ regionEnd r) : (∀ g ∈ framesFrom f n, g ∉ issued) ∧
      Cursor { a with nextRegion := i, nextFrame := f / 4096 + n } (framesFrom f n ++ issued) := by
  have hmin := h.minPhys
  have hlow := h.low
  have haligned : f % 4096 = 0 := by
    rw [hphys]
    apply max_alignUp_aligned
    rw [hmin]
    exact Nat.mul_mod_left _ _
  have hstart : alignUp r.start ≤ f := by
    rw [hphys]
    exact Nat.le_max_left _ _
  obtain ⟨hin, hout, hroom⟩ := region_bounds hstart (by omega) hend
  have hnext : (f / 4096 + n) * 4096 = f + n * 4096 := by omega
  have hpast : a.nextFrame * 4096 ≤ f := by
    rw [hphys, hmin]
    exact Nat.le_max_right _ _
  have hbase : 0x100000 ≤ f := Nat.le_trans hlow hpast
  refine ⟨?_, ?_, ?_, ?_, ?_⟩
  · intro g hg hissued
    obtain ⟨j, _, rfl⟩ := mem_framesFrom.mp hg
    have := (h.frame _ hissued).2.2
    omega
  · dsimp only
    rw [hnext]
    exact Nat.le_add_right_of_le hbase
  · dsimp only
    rw [hnext]
    exact hroom
  · intro g hg
    dsimp only
    rw [hnext]
    rcases List.mem_append.mp hg with hg | hg
    · obtain ⟨j, hj, rfl⟩ := mem_framesFrom.mp hg
      exact ⟨by omega, Nat.le_add_right_of_le hbase, by omega⟩
    · obtain ⟨hg1, hg2, hg3⟩ := h.frame g hg
      exact ⟨hg1, hg2, by omega⟩
  · intro g hg
    rcases List.mem_append.mp hg with hg | hg
    · obtain ⟨j, hj, rfl⟩ := mem_framesFrom.mp hg
      exact ⟨r, hr, husable, by omega, by omega⟩
    · exact h.usable g hg

/-- What the cursor hands out for one frame. -/
theorem Cursor.bump (h : Cursor a issued) : (∃ n, a.bump = ({ a with nextRegion := n }, none)) ∨
      ∃ n f, a.bump = ({ a with nextRegion := n, nextFrame := f / 4096 + 1 }, some f) ∧
        (∀ g ∈ framesFrom f 1, g ∉ issued) ∧
        Cursor { a with nextRegion := n, nextFrame := f / 4096 + 1 } (framesFrom f 1 ++ issued) := by
  unfold FrameAllocator.bump
  split
  · exact .inl ⟨_, rfl⟩
  · rename_i n f hscan
    obtain ⟨p, hp, husable, hphys, hend⟩ := bumpScan_some hscan
    refine .inr ⟨n, f, rfl, ?_⟩
    apply h.advance n (mem_of_mem_drop_zipIdx hp) husable Nat.one_pos hphys
    -- the end of a region is a multiple of the frame size, and so is the frame
    have haligned : f % 4096 = 0 := by
      rw [hphys]
      apply max_alignUp_aligned
      rw [h.minPhys]
      exact Nat.mul_mod_left _ _
    unfold regionEnd pageFloor at hend ⊢
    omega

/-- What it hands out for a reservation. -/
theorem Cursor.reserve (h : Cursor a issued) (n : Nat) : a.reserveContiguousRegion n = (a, none) ∨
      ∃ i f, a.reserveContiguousRegion n = ({ a with nextRegion := i, nextFrame := f / 4096 + n }, some f) ∧
        (∀ g ∈ framesFrom f n, g ∉ issued) ∧
        Cursor { a with nextRegion := i, nextFrame := f / 4096 + n } (framesFrom f n ++ issued) := by
  unfold reserveContiguousRegion
  split
  · exact .inl rfl
  rename_i hn
  dsimp only
  split
  · exact .inl rfl
  · rename_i i f stop hscan
    obtain ⟨p, hp, husable, hphys, hstop, hword, hend⟩ := reserveScan_some hscan
    have hlow := h.low
    have hmin := h.minPhys
    -- a saturated request ends behind the address space, so this one is exact
    have hexact : stop = f + n * 4096 := by
      unfold wordBound at hstop hword
      omega
    have hnext : stop / 4096 = f / 4096 + n := by omega
    rw [hnext]
    refine .inr ⟨i, f, rfl, ?_⟩
    apply h.advance i (mem_of_mem_drop_zipIdx hp) husable (Nat.pos_of_ne_zero hn) hphys
    rw [← hexact]
    exact hend

end Advance

end FrameAllocator

namespace Frame

open FrameAllocator

variable {memoryMap : List MemoryRegion} {s s' : State} {f next n : Nat}

/-! ## Whole runs -/

/-- The invariant of the allocator. -/
structure Inv (memoryMap : List MemoryRegion) (s : State) : Prop where
  map : s.alloc.memoryMap = memoryMap
  parts : ∃ q l, Owns s.alloc q l ∧ (s.held ++ (q ++ l)).Perm s.issued
  nodup : s.issued.Nodup
  cursor : Cursor s.alloc s.issued

theorem Inv.init (h : (system memoryMap).init s) : Inv memoryMap s := by
  obtain ⟨seed, memory, rfl⟩ := h
  refine ⟨rfl, ⟨[], [], ⟨⟨?_, Nat.zero_le _, rfl⟩, rfl, .nil, ?_, List.nodup_nil⟩, List.Perm.refl _⟩,
    List.nodup_nil, ?_, ?_, ?_, ?_⟩
  · show 0 < frameQuarantineCap
    decide
  · intro f hf
    cases hf
  · have hnext : (FrameAllocator.new memoryMap seed memory).nextFrame = 256 := rfl
    dsimp only
    omega
  · have hnext : (FrameAllocator.new memoryMap seed memory).nextFrame = 256 := rfl
    unfold wordBound
    dsimp only
    omega
  · intro f hf
    cases hf
  · intro f hf
    cases hf

/-- The cursor hands out frames that nobody has seen. -/
theorem Inv.fresh (h : Inv memoryMap s) {phys i : Nat} (hnew : ∀ g ∈ framesFrom phys n, g ∉ s.issued)
    (hcursor : Cursor { s.alloc with nextRegion := i, nextFrame := next } (framesFrom phys n ++ s.issued)) :
    Inv memoryMap (s.give { s.alloc with nextRegion := i, nextFrame := next } (framesFrom phys n)) := by
  obtain ⟨q, l, howns, hperm⟩ := h.parts
  have hfilter : (framesFrom phys n).filter (fun g => g ∉ s.issued) = framesFrom phys n := by
    apply List.filter_eq_self.mpr
    intro g hg
    exact decide_eq_true (hnew g hg)
  unfold State.give
  rw [hfilter]
  refine ⟨h.map, ⟨q, l, howns.atCursor i next, ?_⟩, ?_, hcursor⟩
  · rw [List.append_assoc]
    exact hperm.append_left _
  · apply List.Nodup.append (nodup_framesFrom phys n) h.nodup
    intro g hg hissued
    exact hnew g hg hissued

theorem Inv.allocate (h : Inv memoryMap s) (hs : step s .allocate = some s') : Inv memoryMap s' := by
  obtain ⟨q, l, howns, hperm⟩ := h.parts
  simp only [step] at hs
  rcases howns.allocateFrame with ⟨_, hbump⟩ | ⟨a', f, q', l', halloc, howns', hkeeps, hperm'⟩
  · rw [hbump] at hs
    rcases h.cursor.bump with ⟨n, hnone⟩ | ⟨n, f, hsome, hnew, hcursor⟩
    · rw [hnone] at hs
      cases hs
      refine ⟨h.map, ⟨q, l, howns.atCursor n s.alloc.nextFrame, hperm⟩, h.nodup, ?_⟩
      obtain ⟨h1, h2, h3, h4⟩ := h.cursor
      exact ⟨h1, h2, h3, h4⟩
    · rw [hsome] at hs
      cases hs
      exact h.fresh hnew hcursor
  · -- a frame that came back was handed out before
    rw [halloc] at hs
    cases hs
    have hown : f ∈ q ++ l := hperm'.mem_iff.mp List.mem_cons_self
    have hissued : f ∈ s.issued := hperm.mem_iff.mp (List.mem_append_right s.held hown)
    have hfilter : [f].filter (fun g => g ∉ s.issued) = [] := by
      simp [hissued]
    unfold State.give
    rw [hfilter]
    refine ⟨hkeeps.map.trans h.map, ⟨q', l', howns', ?_⟩, h.nodup, h.cursor.keeps hkeeps⟩
    have hmid : (s.held ++ f :: (q' ++ l')).Perm (f :: (s.held ++ (q' ++ l'))) := List.perm_middle
    exact hmid.symm.trans ((hperm'.append_left s.held).trans hperm)

theorem Inv.reserve (h : Inv memoryMap s) (hs : step s (.reserve n) = some s') : Inv memoryMap s' := by
  simp only [step] at hs
  rcases h.cursor.reserve n with hnone | ⟨i, f, hsome, hnew, hcursor⟩
  · rw [hnone] at hs
    cases hs
    exact h
  · rw [hsome] at hs
    cases hs
    exact h.fresh hnew hcursor

theorem Inv.free (h : Inv memoryMap s) (hs : step s (.free f) = some s') : Inv memoryMap s' := by
  obtain ⟨q, l, howns, hperm⟩ := h.parts
  simp only [step] at hs
  split at hs
  · rename_i hheld
    rcases deallocateFrame_cases s.alloc f with hreject | ⟨haccept, haligned, husable, hready⟩
    · rw [hreject] at hs
      cases hs
      exact h
    · rw [haccept] at hs
      cases hs
      have hissued : f ∈ s.issued := hperm.mem_iff.mp (List.mem_append_left _ hheld)
      have hdisjoint := List.disjoint_of_nodup_append (hperm.nodup_iff.mpr h.nodup)
      have hnonzero : f ≠ 0 := by
        have := (h.cursor.frame f hissued).2.1
        omega
      obtain ⟨hkeeps, q', l', howns', hperm'⟩ :=
        howns.quarantinePush ⟨haligned, hnonzero, husable, hready⟩ (fun hown => hdisjoint hheld hown)
      refine ⟨hkeeps.map.trans h.map, ⟨q', l', howns', ?_⟩, h.nodup, h.cursor.keeps hkeeps⟩
      have hback : (s.held.erase f ++ f :: (q ++ l)).Perm (f :: s.held.erase f ++ (q ++ l)) :=
        List.perm_middle
      have hall : (f :: s.held.erase f ++ (q ++ l)).Perm (s.held ++ (q ++ l)) :=
        (List.perm_cons_erase hheld).symm.append_right _
      exact (hperm'.append_left _).trans (hback.trans (hall.trans hperm))
  · cases hs

/-- A holder cannot reach the frames that the allocator has back. -/
theorem Inv.overwrite (h : Inv memoryMap s) {cookie : UInt64}
    (hs : step s (.overwrite f next cookie) = some s') : Inv memoryMap s' := by
  obtain ⟨q, l, howns, hperm⟩ := h.parts
  simp only [step] at hs
  split at hs
  · rename_i hheld
    cases hs
    have hout : f ∉ q ++ l := List.disjoint_of_nodup_append (hperm.nodup_iff.mpr h.nodup) hheld
    refine ⟨h.map, ⟨q, l, ⟨howns.sound, howns.quarantined, ?_, ?_, howns.nodup⟩, hperm⟩, h.nodup, ?_⟩
    · exact chain_write _ howns.listed (fun hl => hout (List.mem_append_right q hl))
    · intro g hg
      have hne : g ≠ f := by
        rintro rfl
        exact hout hg
      exact (howns.free g hg).write ⟨rfl, rfl, rfl, rfl⟩ rfl hne
    · exact h.cursor.keeps ⟨rfl, rfl, rfl, rfl⟩
  · cases hs

theorem Inv.setPhysOffset (h : Inv memoryMap s) (hs : step s .setPhysOffset = some s') :
    Inv memoryMap s' := by
  obtain ⟨q, l, howns, hperm⟩ := h.parts
  cases hs
  refine ⟨h.map, ⟨q, l, ⟨howns.sound, howns.quarantined, howns.listed, ?_, howns.nodup⟩, hperm⟩, h.nodup, ?_⟩
  · intro g hg
    obtain ⟨⟨h1, h2, h3, _⟩, h5⟩ := howns.free g hg
    exact ⟨⟨h1, h2, h3, rfl⟩, h5⟩
  · obtain ⟨h1, h2, h3, h4⟩ := h.cursor
    exact ⟨h1, h2, h3, h4⟩

theorem Inv.reachable (h : (system memoryMap).Reachable s) : Inv memoryMap s := by
  apply System.Reach.invariant (fun _ h0 => Inv.init h0) _ h
  intro s l s' hinv _ hs
  cases l with
  | setPhysOffset => exact hinv.setPhysOffset hs
  | allocate => exact hinv.allocate hs
  | reserve n => exact hinv.reserve hs
  | free f => exact hinv.free hs
  | overwrite f next cookie => exact hinv.overwrite hs

/-! ## The four places -/

/-- Where an issued frame is. -/
inductive Place where
  | held
  | quarantine
  | freeList
  | fresh

/-- Where a frame is. -/
def State.At (s : State) (f : Nat) : Place → Prop
  | .held => f ∈ s.held
  | .quarantine => f ∈ s.alloc.quarantined
  | .freeList => ∃ l, s.alloc.Listed l ∧ f ∈ l
  | .fresh => f ∉ s.issued

/-- **Every frame is in exactly one place** after any sequence of allocations, reservations, frees by holders
    and writes by holders. Two frames that are held do not overlap, every frame handed out is usable memory at
    or above 1 MiB, and a frame in quarantine or on the free list cannot be freed again. -/
theorem every_frame_in_one_place (h : (system memoryMap).Reachable s) :
    (∀ f, ∃! p, s.At f p) ∧ s.held.Pairwise (fun f g => f + 4096 ≤ g ∨ g + 4096 ≤ f) ∧
      (∀ f ∈ s.issued, UsableFrame memoryMap f ∧ 0x100000 ≤ f) ∧
      ∀ f, s.At f .quarantine ∨ s.At f .freeList → s.alloc.deallocateFrame f = (s.alloc, false) := by
  have hinv := Inv.reachable h
  obtain ⟨q, l, howns, hperm⟩ := hinv.parts
  have hnodup := hperm.nodup_iff.mpr hinv.nodup
  have hdisjoint := List.disjoint_of_nodup_append hnodup
  have hdisjoint' := List.disjoint_of_nodup_append howns.nodup
  have hq : ∀ f, s.At f .quarantine ↔ f ∈ q := by
    intro f
    show f ∈ s.alloc.quarantined ↔ f ∈ q
    rw [howns.quarantined]
  have hl : ∀ f, s.At f .freeList ↔ f ∈ l := by
    intro f
    constructor
    · rintro ⟨l', hlisted, hf⟩
      rw [howns.listed.unique hlisted]
      exact hf
    · intro hf
      exact ⟨l, howns.listed, hf⟩
  have hissued : ∀ f, f ∈ s.issued ↔ f ∈ s.held ∨ f ∈ q ∨ f ∈ l := by
    intro f
    rw [← hperm.mem_iff, List.mem_append, List.mem_append]
  refine ⟨?_, ?_, ?_, ?_⟩
  · intro f
    by_cases hf : f ∈ s.issued
    · rcases (hissued f).mp hf with hheld | hmem | hmem
      · refine ⟨.held, hheld, ?_⟩
        intro p hp
        cases p with
        | held => rfl
        | quarantine => exact absurd (List.mem_append_left l ((hq f).mp hp)) (hdisjoint hheld)
        | freeList => exact absurd (List.mem_append_right q ((hl f).mp hp)) (hdisjoint hheld)
        | fresh => exact absurd hf hp
      · refine ⟨.quarantine, (hq f).mpr hmem, ?_⟩
        intro p hp
        cases p with
        | held => exact absurd (List.mem_append_left l hmem) (hdisjoint hp)
        | quarantine => rfl
        | freeList => exact absurd ((hl f).mp hp) (hdisjoint' hmem)
        | fresh => exact absurd hf hp
      · refine ⟨.freeList, (hl f).mpr hmem, ?_⟩
        intro p hp
        cases p with
        | held => exact absurd (List.mem_append_right q hmem) (hdisjoint hp)
        | quarantine => exact absurd hmem (hdisjoint' ((hq f).mp hp))
        | freeList => rfl
        | fresh => exact absurd hf hp
    · refine ⟨.fresh, hf, ?_⟩
      intro p hp
      cases p with
      | held => exact absurd ((hissued f).mpr (.inl hp)) hf
      | quarantine => exact absurd ((hissued f).mpr (.inr (.inl ((hq f).mp hp)))) hf
      | freeList => exact absurd ((hissued f).mpr (.inr (.inr ((hl f).mp hp)))) hf
      | fresh => rfl
  · have hheld : s.held.Nodup := hnodup.of_append_left
    apply hheld.imp_of_mem
    intro f g hf hg hne
    have h1 := (hinv.cursor.frame f ((hissued f).mpr (.inl hf))).1
    have h2 := (hinv.cursor.frame g ((hissued g).mpr (.inl hg))).1
    omega
  · intro f hf
    refine ⟨?_, (hinv.cursor.frame f hf).2.1⟩
    rw [← hinv.map]
    exact hinv.cursor.usable f hf
  · intro f hf
    apply Free.deallocateFrame
    apply howns.free
    rcases hf with hf | hf
    · exact List.mem_append_left l ((hq f).mp hf)
    · exact List.mem_append_right q ((hl f).mp hf)

/-- One usable region that begins below 1 MiB, and one that is not usable. -/
def smallMap : List MemoryRegion := [⟨0, 0x108000, .usable⟩, ⟨0x108000, 0x1000, .reserved⟩]

/-- Two frames and a reservation of two. The first frame is overwritten, freed, and handed out again. -/
def freeAndReuse : List Label :=
  [.setPhysOffset, .allocate, .allocate, .reserve 2, .overwrite 0x100000 7 9,
    .free 0x100000, .free 0x101000, .allocate]

theorem every_frame_in_one_place_freeAndReuse :
    ∃ s : State, s.held = [0x100000, 0x102000, 0x103000] ∧ s.alloc.quarantined = [0x101000] ∧
      (∀ f, ∃! p, s.At f p) ∧ s.held.Pairwise (fun f g => f + 4096 ≤ g ∨ g + 4096 ≤ f) ∧
      (∀ f ∈ s.issued, UsableFrame smallMap f ∧ 0x100000 ≤ f) ∧
      ∀ f, s.At f .quarantine ∨ s.At f .freeList → s.alloc.deallocateFrame f = (s.alloc, false) := by
  obtain ⟨s, hs, hheld, hfreed⟩ := System.reachable_of_exec (system smallMap)
    ⟨.new smallMap 0 (fun _ => (0, 0)), [], []⟩
    freeAndReuse (fun s => s.held = [0x100000, 0x102000, 0x103000] ∧ s.alloc.quarantined = [0x101000])
    ⟨0, _, rfl⟩ (by decide +kernel)
  exact ⟨s, hheld, hfreed, every_frame_in_one_place hs⟩

end Frame

end Mnu.Mem
