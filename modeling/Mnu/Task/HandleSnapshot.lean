import Mnu.Lib.Codec
import Mnu.Task.Authority

/-!
# `Mnu.Task.HandleSnapshot` — reading a captured handle table

`HandleSnapshot::read_at` of `src/task/handle_snapshot.rs` (`Mnu.Task.HandleTable` has the capture). The
encoding of a snapshot is a header and a record for each handle. It is never there as a whole: a read makes
the header or one record at a time and copies the part that it needs. `encoding` says what the whole is, field
by field as the wire format of `crates/abi/src/handle_snapshot.rs` lists them, and a read returns a slice of
it (`readAt_eq`).

A read returns the bytes that it puts into the output, or `none` where the source would index its entries out
of bounds. Its slices of a piece and of the output are in bounds by the way `chunk` is taken, since a position
is inside its piece (`piece_within`). Offsets fit in a `usize` of 64 bits.
-/

namespace Mnu.Task.HandleSnapshot

open Mnu.Lib.Codec

variable {ω : Type}

/-- `HEADER_LEN`. -/
def headerLen : Nat := 16

/-- `RECORD_LEN`. -/
def recordLen : Nat := 16

/-- The header that `read_at` puts together: version, number of records and length of a record in an array of
    zeros. -/
def header (entries : List (CapturedHandle ω)) : List UInt8 :=
  put (put (put (.replicate headerLen 0) 0 (le 4 1)) 4 (le 4 entries.length)) 8 (le 4 recordLen)

/-- The record that `read_at` puts together for an entry: handle and rights in an array of zeros. -/
def record (entry : CapturedHandle ω) : List UInt8 :=
  put (put (.replicate recordLen 0) 0 (le 4 entry.handle)) 8 (le 8 entry.rights.bits.toNat)

section Reading

variable (entries : List (CapturedHandle ω))

/-- The header or record at a position, and the position in it. -/
def piece (position : Nat) : Option (List UInt8 × Nat) :=
  if position < headerLen then some (header entries, position)
  else
    let position := position - headerLen
    entries[position / recordLen]?.map fun entry => (record entry, position % recordLen)

theorem length_header : (header entries).length = headerLen := by simp [header, put, headerLen]

theorem length_record (entry : CapturedHandle ω) : (record entry).length = recordLen := by
  simp [record, put, recordLen]

theorem piece_within {position within : Nat} {bytes : List UInt8}
    (h : piece entries position = some (bytes, within)) : within < bytes.length := by
  unfold piece at h
  split at h
  · cases h
    rwa [length_header]
  · obtain ⟨entry, _, hentry⟩ := Option.map_eq_some_iff.mp h
    cases hentry
    rw [length_record]
    exact Nat.mod_lt _ (by decide)

/-- The loop of `read_at`. -/
def fill (offset count done : Nat) : Option (List UInt8) :=
  if done < count then
    match _ : piece entries (offset + done) with
    | none => none
    | some (bytes, within) =>
      let chunk := min (bytes.length - within) (count - done)
      (fill offset count (done + chunk)).map ((bytes.drop within).take chunk ++ ·)
  else some []
termination_by count - done
decreasing_by
  have := piece_within entries ‹_›
  omega

/-- `HandleSnapshot::read_at` into an output of `len` bytes. -/
def readAt (offset len : Nat) : Option (List UInt8) :=
  let length := headerLen + entries.length * recordLen
  fill entries offset (min len (length - offset)) 0

/-- A `HandleInfo` record of the wire format: the handle, a zero word and the rights. -/
def handleInfo (entry : CapturedHandle ω) : List UInt8 :=
  le 4 entry.handle ++ le 4 0 ++ le 8 entry.rights.bits.toNat

/-- **The full encoding** by the wire format: version 1, the number of records, the length of a record and a
    zero word, then the records. -/
def encoding : List UInt8 :=
  le 4 1 ++ le 4 entries.length ++ le 4 16 ++ le 4 0 ++ entries.flatMap handleInfo

/-- The header of a read is that of the wire format. -/
theorem header_eq : header entries = le 4 1 ++ le 4 entries.length ++ le 4 16 ++ le 4 0 := rfl

/-- A record of a read is that of the wire format. -/
theorem record_eq (entry : CapturedHandle ω) : record entry = handleInfo entry := rfl

theorem encoding_eq : encoding entries = header entries ++ (entries.map record).flatten := by
  rw [encoding, header_eq, List.flatMap, List.map_congr_left fun entry _ => record_eq entry]

theorem length_encoding : (encoding entries).length = headerLen + entries.length * recordLen := by
  simp [encoding_eq, length_header, length_record, List.length_flatten, Function.comp_def]

/-- The record at a position of the records. -/
theorem record_at {p : Nat} (h : p < entries.length * recordLen) :
    ∃ entry, entries[p / recordLen]? = some entry ∧
      (record entry).drop (p % recordLen) <+: (entries.map record).flatten.drop p := by
  induction entries generalizing p with
  | nil => simp at h
  | cons entry entries ih =>
    rw [List.map_cons, List.flatten_cons]
    by_cases hp : p < recordLen
    · refine ⟨entry, by rw [Nat.div_eq_of_lt hp]; rfl, ?_⟩
      rw [Nat.mod_eq_of_lt hp, List.drop_append_of_le_length (by rw [length_record]; exact hp.le)]
      exact List.prefix_append _ _
    · obtain ⟨k, rfl⟩ := Nat.exists_eq_add_of_le (Nat.le_of_not_lt hp)
      obtain ⟨found, hfound, hpart⟩ := ih (p := k) (by rw [List.length_cons, Nat.succ_mul] at h; omega)
      refine ⟨found, ?_, ?_⟩
      · rw [Nat.add_div_left k (by decide), List.getElem?_cons_succ, hfound]
      · rwa [Nat.add_mod_left, ← List.drop_drop, List.drop_left' (length_record entry)]

/-- What a round of the loop copies from is there at this position of the encoding. -/
theorem piece_at (position : Nat) (h : position < (encoding entries).length) : ∃ bytes within,
    piece entries position = some (bytes, within) ∧
      bytes.drop within <+: (encoding entries).drop position := by
  rw [length_encoding] at h
  rw [encoding_eq]
  unfold piece
  split
  · rename_i hheader
    refine ⟨_, _, rfl, ?_⟩
    rw [List.drop_append_of_le_length (by rw [length_header]; exact hheader.le)]
    exact List.prefix_append _ _
  · rename_i hheader
    obtain ⟨k, rfl⟩ := Nat.exists_eq_add_of_le (Nat.le_of_not_lt hheader)
    obtain ⟨entry, hentry, hpart⟩ := record_at entries (p := k) (by omega)
    refine ⟨record entry, k % recordLen, ?_, ?_⟩
    · dsimp only
      rw [Nat.add_sub_cancel_left, hentry, Option.map_some]
    · rwa [← List.drop_drop, List.drop_left' (length_header entries)]

/-- **The loop** fills in what is left of the slice. -/
theorem fill_eq {offset count done : Nat} (hcount : count ≤ (encoding entries).length - offset) :
    fill entries offset count done =
      some (((encoding entries).drop (offset + done)).take (count - done)) := by
  fun_induction fill entries offset count done with
  | case1 done hlt hnone =>
    obtain ⟨_, _, hsome, _⟩ := piece_at entries (offset + done) (by omega)
    cases hnone.symm.trans hsome
  | case2 done hlt bytes within hpiece chunk ih =>
    obtain ⟨_, _, hsome, rest, hrest⟩ := piece_at entries (offset + done) (by omega)
    cases hpiece.symm.trans hsome
    have hchunk : ((encoding entries).drop (offset + done)).take chunk = (bytes.drop within).take chunk := by
      rw [← hrest, List.take_append_of_le_length (by rw [List.length_drop]; exact Nat.min_le_left _ _)]
    have hsplit : count - done = chunk + (count - (done + chunk)) := by omega
    rw [ih, Option.map_some, hsplit, List.take_add, hchunk, List.drop_drop, Nat.add_assoc]
  | case3 done hge => simp [Nat.sub_eq_zero_of_le (Nat.le_of_not_lt hge)]

/-- **A read returns its slice of the encoding.** -/
theorem readAt_eq (offset len : Nat) :
    readAt entries offset len = some (((encoding entries).drop offset).take len) := by
  unfold readAt
  rw [← length_encoding, fill_eq entries (Nat.min_le_right _ _), Nat.add_zero, Nat.sub_zero]
  refine congrArg some (List.take_eq_take_iff.mpr ?_)
  rw [List.length_drop]
  omega

/-- Reads of these lengths, each from where the last one ended. -/
def reads : List Nat → Nat → Option (List UInt8)
  | [], _ => some []
  | len :: rest, offset =>
    match readAt entries offset len with
    | none => none
    | some bytes => (reads rest (offset + bytes.length)).map (bytes ++ ·)

/-- **A read returns its slice of the encoding**, and reads in a row put it together again. -/
theorem snapshot_reads (offset : Nat) :
    (∀ len, readAt entries offset len = some (((encoding entries).drop offset).take len)) ∧
      ∀ lens : List Nat, reads entries lens offset =
        some (((encoding entries).drop offset).take lens.sum) := by
  refine ⟨readAt_eq entries offset, fun lens => ?_⟩
  induction lens generalizing offset with
  | nil => simp [reads]
  | cons len rest ih =>
    rw [reads, readAt_eq]
    dsimp only
    have hnext : (encoding entries).drop (offset + min len ((encoding entries).length - offset)) =
        (encoding entries).drop (offset + len) := List.drop_eq_drop_iff.mpr (by omega)
    rw [ih, Option.map_some, List.sum_cons, List.take_add, List.drop_drop, List.length_take, List.length_drop,
      hnext]

end Reading

/-- Two captured handles, the second without the right to be transferred. -/
def twoHandles : List (CapturedHandle Unit) :=
  let rights := HandleRights.write.union .transfer
  [⟨1, rights, some ⟨(), rights⟩⟩, ⟨0x20103, .read, none⟩]

/-- A read across the end of the first record, and a table read in three unequal parts. -/
theorem snapshot_reads_twoHandles :
    readAt twoHandles 24 12 = some [2, 0, 0, 0, 0, 0, 0, 128, 3, 1, 2, 0] ∧
      reads twoHandles [5, 20, 100] 0 = some [1, 0, 0, 0, 2, 0, 0, 0, 16, 0, 0, 0, 0, 0, 0, 0,
        1, 0, 0, 0, 0, 0, 0, 0, 2, 0, 0, 0, 0, 0, 0, 128, 3, 1, 2, 0, 0, 0, 0, 0,
          1, 0, 0, 0, 0, 0, 0, 0] := by
  rw [(snapshot_reads twoHandles 24).1 12, (snapshot_reads twoHandles 0).2 [5, 20, 100]]
  decide

end Mnu.Task.HandleSnapshot
