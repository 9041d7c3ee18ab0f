import Mnu.Lib.Run
import Mnu.Mem.SharedPages

/-!
# `Mnu.Mem.SharedMemory` — a shared memory object is an array of bytes

The operations of `shared_memory.rs` over whole runs. `read_at` and `write_at` hold the lock of the object, so
at most one of them runs, and neither a resize nor a population happens meanwhile. Stores through mappings
take no lock: they come between any two bytes of a copy, and they reach every byte of a resident page, those
behind the length too.

Beside the object stands a plain array, `spec`, with the meaning that callers rely on: a resize cuts off or
adds zeros, a store below the length sets a byte, a read returns the bytes as they are when they are copied,
and **a call that returns an error has not happened**. For that a call carries `without`, the array as it is
without the call. `written` marks the positions that were set since they last entered the extent.

A resize is one step. Its coordinator suspends the mappings of the pages that it clears or removes before it
commits, and stores to other pages do not meet it.
-/

namespace Mnu.Mem.SharedMemory

open Mnu.Lib

/-- A running `read_at` (no input) or `write_at`. -/
structure Call where
  offset : Nat
  length : Nat
  input : Option (List UInt8)
  /-- The bytes that are copied. -/
  done : Nat
  /-- The bytes of the current page that are left. -/
  chunk : Nat
  output : List UInt8
  /-- What the array held when the bytes of `output` were read. -/
  expected : List UInt8
  /-- The array without this call. -/
  without : Bytes

/-- The position of the next byte. -/
def Call.current (c : Call) : Nat := c.offset + c.done

/-- A read that has returned. -/
structure Read where
  offset : Nat
  output : List UInt8
  expected : List UInt8

/-- The object, the call on it, and what it should hold. -/
structure State where
  mem : SharedMemory
  call : Option Call
  spec : Bytes
  written : Nat → Bool
  reads : List Read

/-- A call, its next copy, or an operation in between. -/
inductive Label where
  | startRead (offset room : Nat) (ready : Bool)
  | startWrite (offset : Nat) (input : List UInt8) (ready : Bool)
  | copyPage (granted addressed : Bool)
  | copyByte
  | finish
  | store (index offset : Nat) (v : UInt8)
  | populate (index : Nat) (granted : Bool)
  | resize (length : Nat) (prepared : Bool) (revoked : Option NativeError)

/-- An object that nobody has written. -/
def State.start (m : SharedMemory) : State := ⟨m, none, .zeros m.length, fun _ => false, []⟩

/-- Mark a position, if it is below the length. -/
def State.mark (s : State) (i : Nat) : Nat → Bool :=
  fun j => s.written j || (j == i && decide (i < s.mem.length))

/-- `copy` has its next page. The first check of the loop body is the population, the second the address. -/
def State.copyPage (s : State) (c : Call) (granted addressed : Bool) : State :=
  let (mem, result) := s.mem.populate (c.current / pageBytes) granted
  match result, addressed with
  | .ok (), true =>
    let count := min (c.length - c.done) (pageBytes - c.current % pageBytes)
    { s with mem := mem, call := some { c with chunk := count } }
  | _, _ => { s with mem := mem, call := none, spec := c.without }

/-- The volatile read or write of one byte. -/
def State.copyByte (s : State) (c : Call) : State :=
  match c.input with
  | none =>
    { s with call := some { c with
        done := c.done + 1
        chunk := c.chunk - 1
        output := c.output ++ [s.mem.byte c.current]
        expected := c.expected ++ [s.spec.byte c.current] } }
  | some input =>
    let v := input.getD c.done 0
    { s with
      mem := s.mem.poke c.current v
      spec := s.spec.put c.current v
      written := s.mark c.current
      call := some { c with done := c.done + 1, chunk := c.chunk - 1 } }

/-- A store through a mapping. -/
def State.store (s : State) (i : Nat) (v : UInt8) : State :=
  { s with
    mem := s.mem.poke i v
    spec := s.spec.put i v
    written := s.mark i
    call := s.call.map fun c => { c with without := c.without.put i v } }

/-- `resize`, with the bytes it should hold then. -/
def State.resize (s : State) (length : Nat) (prepared : Bool) (revoked : Option NativeError) : State :=
  match s.mem.resize length prepared revoked with
  | (mem, .ok ()) =>
    { s with
      mem := mem
      spec := s.spec.resize length
      written := fun i => s.written i && decide (i < length) }
  | (mem, .error _) => { s with mem := mem }

/-- A page is looked up, a byte is copied, or an operation runs in between. -/
def step (s : State) : Label → Option State
  | .startRead offset room ready =>
    match s.call with
    | some _ => none
    | none =>
      if s.mem.length < offset then some s
      else if !ready then some s
      else some { s with
        call := some ⟨offset, min room (s.mem.length - offset), none, 0, 0, [], [], s.spec⟩ }
  | .startWrite offset input ready =>
    match s.call with
    | some _ => none
    | none =>
      if !s.mem.containsRange offset input.length then some s
      else if !ready then some s
      else some { s with call := some ⟨offset, input.length, some input, 0, 0, [], [], s.spec⟩ }
  | .copyPage granted addressed =>
    match s.call with
    | none => none
    | some c => if c.chunk = 0 ∧ c.done < c.length then some (s.copyPage c granted addressed) else none
  | .copyByte =>
    match s.call with
    | none => none
    | some c => if c.chunk ≠ 0 then some (s.copyByte c) else none
  | .finish =>
    match s.call with
    | none => none
    | some c =>
      if c.chunk = 0 ∧ c.done = c.length then
        some { s with
          call := none
          reads := if c.input.isNone then s.reads ++ [⟨c.offset, c.output, c.expected⟩] else s.reads }
      else none
  | .store index offset v =>
    if offset < pageBytes ∧ (s.mem.pages index).isSome then some (s.store (index * pageBytes + offset) v)
    else none
  | .populate index granted =>
    match s.call with
    | some _ => none
    | none => some { s with mem := (s.mem.populate index granted).1 }
  | .resize length prepared revoked =>
    match s.call with
    | some _ => none
    | none => some (s.resize length prepared revoked)

/-- The runs of an object, from either constructor. -/
def system : System State Label where
  init s := ∃ length maximumPages issued m,
    (new length maximumPages issued = .ok m ∨ newResizable length maximumPages issued = .ok m) ∧ s = .start m
  step := step

/-- A write that has stored a byte gets its next page: it is resident or granted, and it has an address. -/
def State.steady (s : State) : Label → Bool
  | .copyPage granted addressed =>
    match s.call with
    | none => true
    | some c =>
      c.input.isNone || c.done == 0 ||
        (addressed && (granted || (s.mem.pages (c.current / pageBytes)).isSome))
  | _ => true

/-! ## The invariant -/

/-- The progress of a call. -/
structure CallOk (s : State) (c : Call) : Prop where
  inside : c.offset + c.length ≤ s.mem.length
  count : c.done + c.chunk ≤ c.length
  page : c.chunk ≠ 0 → (s.mem.pages (c.current / pageBytes)).isSome ∧
    c.chunk ≤ pageBytes - c.current % pageBytes
  output : c.output = c.expected
  /-- A call that has stored nothing has made no difference. -/
  without : c.input = none ∨ c.done = 0 → c.without = s.spec

/-- The invariant of the object and its call. -/
structure Inv (s : State) : Prop where
  holds : Holds s.mem s.spec
  fresh : ∀ i, s.written i = false → s.spec.byte i = 0
  reads : ∀ r ∈ s.reads, r.output = r.expected
  call : ∀ c, s.call = some c → CallOk s c

variable {s s' : State} {c : Call} {i : Nat} {v : UInt8} {m : SharedMemory} (h : Inv s) (hc : s.call = some c)

theorem Inv.start (h : Holds m (.zeros m.length)) : Inv (.start m) := by
  refine ⟨h, fun _ _ => rfl, ?_, ?_⟩
  · intro r hr
    cases hr
  · intro c hc
    cases hc

/-- What is not marked after a store was not marked before, and is not the position that changed. -/
theorem Inv.fresh_put (h : Inv s) {j : Nat} (hj : s.mark i j = false) : (s.spec.put i v).byte j = 0 := by
  unfold State.mark at hj
  rw [Bool.or_eq_false_iff] at hj
  have hold := h.fresh j hj.1
  show (if j = i ∧ i < s.spec.length then v else s.spec.byte j) = 0
  rw [if_neg, hold]
  rintro ⟨rfl, hlt⟩
  rw [← h.holds.length] at hlt
  simp [hlt] at hj

theorem poke_isSome (index : Nat) : ((m.poke i v).pages index).isSome = (m.pages index).isSome := by
  unfold SharedMemory.poke
  dsimp only
  rw [Function.update_apply]
  split
  · rename_i heq
    rw [heq, Option.isSome_map]
  · rfl

/-! ## The steps -/

/-- A call may start wherever its bytes are inside the extent. -/
theorem Inv.started (h : Inv s) {offset length : Nat} {input : Option (List UInt8)}
    (hin : offset + length ≤ s.mem.length) :
    Inv { s with call := some ⟨offset, length, input, 0, 0, [], [], s.spec⟩ } := by
  refine ⟨h.holds, h.fresh, h.reads, ?_⟩
  intro c hc
  cases hc
  exact ⟨hin, Nat.zero_le _, fun hne => absurd rfl hne, rfl, fun _ => rfl⟩

include h hc

theorem Inv.copyPage {granted addressed : Bool}
    (hok : s.steady (.copyPage granted addressed) = true) (hmore : c.done < c.length) :
    Inv (s.copyPage c granted addressed) := by
  have hcall := h.call c hc
  have hin : c.current / pageBytes < pageCount s.mem.length := by
    apply page_lt_pageCount
    have := hcall.inside
    unfold Call.current
    omega
  have hholds := h.holds.populate (c.current / pageBytes) granted
  have hlength := populate_length s.mem (c.current / pageBytes) granted
  -- if the call gives up here, it has stored nothing
  have hgive : ((s.mem.populate (c.current / pageBytes) granted).2 ≠ .ok () ∨ addressed = false) →
      c.without = s.spec := by
    intro hfail
    apply hcall.without
    simp only [State.steady, hc, Bool.or_eq_true, Bool.and_eq_true, beq_iff_eq,
      Option.isNone_iff_eq_none] at hok
    rcases hok with (hread | hzero) | ⟨haddr, hpage⟩
    · exact .inl hread
    · exact .inr hzero
    · exfalso
      rcases hfail with hfail | hfail
      · rcases populate_cases hin granted with ⟨hres, _⟩ | ⟨_, hgrant, habsent⟩
        · exact hfail hres
        · rw [hgrant, habsent] at hpage
          simp at hpage
      · rw [hfail] at haddr
        cases haddr
  unfold State.copyPage
  generalize hp : s.mem.populate (c.current / pageBytes) granted = p at *
  obtain ⟨mem, result⟩ := p
  dsimp only at hholds hlength hgive ⊢
  split
  · refine ⟨hholds, h.fresh, h.reads, ?_⟩
    intro c' hc'
    cases hc'
    refine ⟨?_, ?_, ?_, hcall.output, ?_⟩
    · show c.offset + c.length ≤ mem.length
      rw [hlength]
      exact hcall.inside
    · show c.done + min (c.length - c.done) _ ≤ c.length
      omega
    · intro _
      refine ⟨?_, Nat.min_le_right _ _⟩
      rcases populate_cases hin granted with ⟨_, hres⟩ | ⟨herr, _, _⟩
      · rw [hp] at hres
        exact hres
      · rw [hp] at herr
        cases herr
    · exact hcall.without
  · rename_i hfail
    have hsame : c.without = s.spec := by
      apply hgive
      cases result with
      | error e => exact .inl nofun
      | ok u =>
        cases addressed with
        | false => exact .inr rfl
        | true => exact absurd rfl (hfail rfl)
    refine ⟨?_, ?_, h.reads, ?_⟩
    · show Holds mem c.without
      rw [hsame]
      exact hholds
    · show ∀ i, s.written i = false → c.without.byte i = 0
      rw [hsame]
      exact h.fresh
    · intro c' hc'
      cases hc'

theorem Inv.copyByte (hchunk : c.chunk ≠ 0) : Inv (s.copyByte c) := by
  have hcall := h.call c hc
  obtain ⟨hres, hleft⟩ := hcall.page hchunk
  have hcount := hcall.count
  have hpos : c.current < s.mem.length := by
    have := hcall.inside
    unfold Call.current
    omega
  -- the next byte of the chunk is on the same page
  have hnext : c.chunk - 1 ≠ 0 → (c.current + 1) / pageBytes = c.current / pageBytes ∧
      c.chunk - 1 ≤ pageBytes - (c.current + 1) % pageBytes := by
    intro hmore
    unfold pageBytes at hleft ⊢
    omega
  unfold State.copyByte
  cases hinput : c.input with
  | none =>
    dsimp only
    refine ⟨h.holds, h.fresh, h.reads, ?_⟩
    intro c' hc'
    cases hc'
    refine ⟨hcall.inside, ?_, ?_, ?_, fun _ => hcall.without (.inl hinput)⟩
    · show c.done + 1 + (c.chunk - 1) ≤ c.length
      omega
    · intro hmore
      obtain ⟨hsame, hle⟩ := hnext hmore
      refine ⟨?_, hle⟩
      show (s.mem.pages ((c.current + 1) / pageBytes)).isSome = true
      rw [hsame]
      exact hres
    · show c.output ++ [s.mem.byte c.current] = c.expected ++ [s.spec.byte c.current]
      rw [hcall.output, h.holds.byte _ hpos]
  | some input =>
    dsimp only
    refine ⟨h.holds.poke hres, fun j hj => h.fresh_put hj, h.reads, ?_⟩
    intro c' hc'
    cases hc'
    refine ⟨hcall.inside, ?_, ?_, hcall.output, ?_⟩
    · show c.done + 1 + (c.chunk - 1) ≤ c.length
      omega
    · intro hmore
      obtain ⟨hsame, hle⟩ := hnext hmore
      refine ⟨?_, hle⟩
      rw [poke_isSome]
      show (s.mem.pages ((c.current + 1) / pageBytes)).isSome = true
      rw [hsame]
      exact hres
    · rintro (hread | hzero)
      · cases hread
      · cases hzero

theorem Inv.finish : Inv { s with
      call := none
      reads := if c.input.isNone then s.reads ++ [⟨c.offset, c.output, c.expected⟩] else s.reads } := by
  refine ⟨h.holds, h.fresh, ?_, ?_⟩
  · intro r hr
    dsimp only at hr
    split at hr
    · rcases List.mem_append.mp hr with hr | hr
      · exact h.reads r hr
      · rw [List.mem_singleton.mp hr]
        exact (h.call c hc).output
    · exact h.reads r hr
  · intro c' hc'
    cases hc'

omit h hc

theorem Inv.store (h : Inv s) (hres : (s.mem.pages (i / pageBytes)).isSome) : Inv (s.store i v) := by
  refine ⟨h.holds.poke hres, fun j hj => h.fresh_put hj, h.reads, ?_⟩
  intro c' hc'
  obtain ⟨c, hc, rfl⟩ := Option.map_eq_some_iff.mp hc'
  have hcall := h.call c hc
  refine ⟨hcall.inside, hcall.count, ?_, hcall.output, ?_⟩
  · intro hne
    refine ⟨?_, (hcall.page hne).2⟩
    show ((s.mem.poke i v).pages (c.current / pageBytes)).isSome = true
    rw [poke_isSome]
    exact (hcall.page hne).1
  · intro hnone
    show c.without.put i v = s.spec.put i v
    rw [hcall.without hnone]

theorem Inv.populate (h : Inv s) (hc : s.call = none) (index : Nat) (granted : Bool) :
    Inv { s with mem := (s.mem.populate index granted).1 } := by
  refine ⟨h.holds.populate index granted, h.fresh, h.reads, ?_⟩
  intro c' hc'
  rw [show s.call = some c' from hc'] at hc
  cases hc

theorem Inv.resize (h : Inv s) (hc : s.call = none) (length : Nat) (prepared : Bool)
    (revoked : Option NativeError) : Inv (s.resize length prepared revoked) := by
  have hnone : ∀ {P : Prop} (c' : Call), s.call = some c' → P := by
    intro P c' hc'
    rw [hc'] at hc
    cases hc
  unfold State.resize
  rcases h.holds.resize length prepared revoked with ⟨error, hres⟩ | ⟨mem, hres, hholds⟩
  · rw [hres]
    exact ⟨h.holds, h.fresh, h.reads, fun c' hc' => hnone c' hc'⟩
  · rw [hres]
    refine ⟨hholds, ?_, h.reads, fun c' hc' => hnone c' hc'⟩
    intro i hi
    rw [Bool.and_eq_false_iff, decide_eq_false_iff_not] at hi
    rcases hi with hi | hi
    · show (if i < length then s.spec.byte i else 0) = 0
      rw [h.fresh i hi, ite_self]
    · exact (s.spec.resize length).tail i (Nat.not_lt.mp hi)

/-- **Every steady step keeps the object equal to the array.** -/
theorem Inv.step {l : Label} (h : Inv s) (hok : s.steady l = true) (hs : step s l = some s') : Inv s' := by
  cases l with simp only [SharedMemory.step] at hs
  | startRead offset room ready =>
    split at hs
    · cases hs
    split at hs
    · cases hs
      exact h
    split at hs
    · cases hs
      exact h
    cases hs
    exact h.started (by omega)
  | startWrite offset input ready =>
    split at hs
    · cases hs
    split at hs
    · cases hs
      exact h
    rename_i hrange
    split at hs
    · cases hs
      exact h
    cases hs
    apply h.started
    simp only [containsRange, Bool.not_eq_true', Bool.not_eq_false, Bool.and_eq_true,
      decide_eq_true_eq] at hrange
    exact hrange.2
  | copyPage granted addressed =>
    split at hs
    · cases hs
    rename_i c hc
    split at hs
    · rename_i hguard
      cases hs
      exact h.copyPage hc hok hguard.2
    · cases hs
  | copyByte =>
    split at hs
    · cases hs
    rename_i c hc
    split at hs
    · rename_i hguard
      cases hs
      exact h.copyByte hc hguard
    · cases hs
  | finish =>
    split at hs
    · cases hs
    rename_i c hc
    split at hs
    · cases hs
      exact h.finish hc
    · cases hs
  | store index offset v =>
    split at hs
    · rename_i hguard
      cases hs
      apply h.store
      have hindex : (index * pageBytes + offset) / pageBytes = index := by
        have := hguard.1
        unfold pageBytes at this ⊢
        omega
      rw [hindex]
      exact hguard.2
    · cases hs
  | populate index granted =>
    split at hs
    · cases hs
    rename_i hc
    cases hs
    exact h.populate hc index granted
  | resize length prepared revoked =>
    split at hs
    · cases hs
    rename_i hc
    cases hs
    exact h.resize hc length prepared revoked

theorem Inv.init (h : system.init s) : Inv s := by
  obtain ⟨length, maximumPages, issued, m, hnew, rfl⟩ := h
  have hholds := new_holds hnew
  apply Inv.start
  have hlength : m.length = length := hholds.length
  rw [hlength]
  exact hholds

/-! ## The object over whole runs -/

/-- **A shared memory object is the array beside it.** In every run in which a write that has stored a byte
    gets the pages it still needs: the bytes are those of the array, every read has returned what the array
    held, and a byte that was not set since it entered the extent is zero. A resize that returns an error
    changes nothing. -/
theorem shared_memory_is_bytes (h : system.Reach (fun s l => s.steady l = true) s) :
    s.mem.length = s.spec.length ∧ (∀ i, i < s.mem.length → s.mem.byte i = s.spec.byte i) ∧
      (∀ r ∈ s.reads, r.output = r.expected) ∧
      (∀ i, i < s.mem.length → s.written i = false → s.mem.byte i = 0) ∧
      ∀ length prepared revoked error, (s.mem.resize length prepared revoked).2 = .error error →
        (s.mem.resize length prepared revoked).1 = s.mem := by
  have hinv : Inv s :=
    System.Reach.invariant (fun _ h0 => Inv.init h0) (fun _ _ _ hi hok hs => hi.step hok hs) h
  refine ⟨hinv.holds.length, hinv.holds.byte, hinv.reads, ?_, ?_⟩
  · intro i hi hfresh
    rw [hinv.holds.byte i hi]
    exact hinv.fresh i hfresh
  · intro length prepared revoked error herr
    rcases hinv.holds.resize length prepared revoked with ⟨_, hres⟩ | ⟨_, hres, _⟩
    · rw [hres]
    · rw [hres] at herr
      cases herr

/-- An object of two pages, for the runs below. -/
def twoPages : SharedMemory := ⟨8192, 4, fun _ => none, 0⟩

/-- A write over a page boundary, a store behind the length after a shrink, a growth over it, and a read. -/
def shrinkAndGrow : List Label :=
  [.startWrite 4095 [1, 2] true, .copyPage true true, .copyByte, .copyPage true true, .copyByte, .finish,
    .resize 4097 true none, .store 1 1 7, .resize 4100 true none,
    .startRead 4095 8 true, .copyPage true true, .copyByte, .copyPage true true,
      .copyByte, .copyByte, .copyByte,
    .copyByte, .finish]

theorem twoPages_init : system.init (.start twoPages) := ⟨8192, 4, true, twoPages, .inl rfl, rfl⟩

theorem shared_memory_is_bytes_shrinkAndGrow :
    ∃ s : State, s.reads.map (fun r => r.output) = [[1, 2, 0, 0, 0]] ∧ s.mem.length = s.spec.length ∧
      (∀ i, i < s.mem.length → s.mem.byte i = s.spec.byte i) ∧ (∀ r ∈ s.reads, r.output = r.expected) ∧
      (∀ i, i < s.mem.length → s.written i = false → s.mem.byte i = 0) ∧
      ∀ length prepared revoked error, (s.mem.resize length prepared revoked).2 = .error error →
        (s.mem.resize length prepared revoked).1 = s.mem := by
  obtain ⟨s, hs, hp⟩ := System.reach_of_exec system State.steady (.start twoPages) shrinkAndGrow
    (fun s => s.reads.map (fun r => r.output) = [[1, 2, 0, 0, 0]]) twoPages_init (by decide +kernel)
  exact ⟨s, hp, shared_memory_is_bytes hs⟩

/-- **A write that fails has stored its first bytes.** No frame is left for the second page of the write: it
    returns an error, and the byte on the first page has changed. -/
theorem failed_write_changes_contents :
    ∃ s : State, system.Reachable s ∧ s.call.isNone ∧ s.spec.byte 4095 = 0 ∧ s.mem.byte 4095 = 1 := by
  exact System.reachable_of_exec system (.start twoPages)
    [.startWrite 4095 [1, 2] true, .copyPage true true, .copyByte, .copyPage false true] _ twoPages_init
    (by decide +kernel)

end Mnu.Mem.SharedMemory
