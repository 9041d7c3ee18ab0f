import Mnu.Lib.RingBuffer
import Mnu.Lib.Word

/-!
# `Mnu.Util.DiagnosticBuffer` — a byte ring against the stream appended to it

`ByteRing<N>` of `src/util/diagnostic_buffer.rs`. Positions are those of the stream of all bytes ever
appended; the ring keeps the last of them and says how many it has dropped. `Retains` relates a ring to the
stream, every append keeps it (`Retains.append`), and what a read returns follows from it (`Retains.read`).
-/

namespace Mnu.Util.DiagnosticBuffer

open Mnu.Lib

/-- Why a cursor is refused. -/
inductive CursorError where
  | ahead
  | exhausted
  deriving DecidableEq

/-- The bytes that were put into the output, and the rest of a `ReadResult`. -/
structure ReadResult where
  bytes : List UInt8
  next : Nat
  dropped : Nat
  deriving DecidableEq

/-- The last bytes of a stream. -/
structure ByteRing where
  data : Nat → UInt8
  start : Nat
  length : Nat
  head : Nat

namespace ByteRing

/-- `new`. -/
def new : ByteRing := ⟨fun _ => 0, 0, 0, 0⟩

/-- `end` -/
def tail (r : ByteRing) : Nat := r.head + r.length

variable (N : Nat)

/-- The retained bytes as a queue, with the next cell to write. -/
def ring (r : ByteRing) : RingBuffer UInt8 := ⟨r.start, (r.start + r.length) % N, r.length, r.data⟩

/-- The result, and the ring after it. -/
def append (r : ByteRing) (bytes : List UInt8) : Except CursorError Unit × ByteRing :=
  match checkedAdd r.tail bytes.length with
  | none => (.error .exhausted, r)
  | some tail =>
    if N ≤ bytes.length then
      (.ok (), ⟨fun i => (bytes.drop (bytes.length - N)).getD i 0, 0, N, tail - N⟩)
    else
      let evict := bytes.length - (N - r.length)
      let r : ByteRing := ⟨r.data, (r.start + evict) % N, r.length - evict, r.head + evict⟩
      let written := bytes.foldl (RingBuffer.enqueue N) (r.ring N)
      (.ok (), { r with data := written.queue, length := r.length + bytes.length })

/-- `len` is the length of the output. -/
def read (r : ByteRing) (cursor len : Nat) : Except CursorError ReadResult :=
  if r.tail < cursor then .error .ahead
  else
    let first := max cursor r.head
    let offset := first - r.head
    let count := min len (r.length - offset)
    .ok ⟨(List.range count).map fun i => r.data ((r.start + offset + i) % N), first + count, r.head - cursor⟩

/-- The ring holds the last bytes of the stream, as many as it has room for. -/
structure Retains (r : ByteRing) (stream : List UInt8) : Prop where
  start_lt : r.start < N
  length_eq : r.length = min N stream.length
  head_eq : r.head = stream.length - r.length
  fits : stream.length < wordBound
  contents : (r.ring N).toList N = stream.drop r.head

/-- What a read of the stream would return, if only its last `N` bytes are kept. -/
def streamRead (stream : List UInt8) (cursor len : Nat) : Except CursorError ReadResult :=
  let oldest := stream.length - min N stream.length
  if stream.length < cursor then .error .ahead
  else
    let bytes := (stream.drop (max cursor oldest)).take len
    .ok ⟨bytes, max cursor oldest + bytes.length, oldest - cursor⟩

variable {N} {r : ByteRing} {stream bytes : List UInt8}

/-- The first `k` bytes of the ring are given up. -/
theorem toList_ring_drop (r : ByteRing) (k head : Nat) :
    (ring N ⟨r.data, (r.start + k) % N, r.length - k, head⟩).toList N = ((r.ring N).toList N).drop k :=
  RingBuffer.toList_drop (r.ring N) k

variable (h : Retains N r stream)
include h

theorem Retains.tail_eq : r.tail = stream.length := by
  have := h.length_eq
  have := h.head_eq
  unfold tail
  omega

/-- As many bytes as the ring has cells: all that was there is dropped. -/
theorem Retains.refill (hlong : N ≤ bytes.length) (hroom : stream.length + bytes.length < wordBound) :
    Retains N ⟨fun i => (bytes.drop (bytes.length - N)).getD i 0, 0, N, stream.length + bytes.length - N⟩
      (stream ++ bytes) := by
  refine ⟨Nat.zero_lt_of_lt h.start_lt, by simp; omega, by simp, by simpa using hroom, ?_⟩
  dsimp only
  rw [Nat.add_sub_assoc hlong, List.drop_length_add_append]
  refine List.ext_getElem (by simp [ring]; omega) fun i hi hi' => ?_
  have hi : i < N := by simpa [ring] using hi
  simp only [RingBuffer.toList, ring, List.getElem_map, List.getElem_range, Nat.zero_add, Nat.mod_eq_of_lt hi]
  rw [List.getD_eq_getElem?_getD, List.getElem?_eq_getElem hi', Option.getD_some]

theorem Retains.append (hroom : stream.length + bytes.length < wordBound) :
    ∃ r', r.append N bytes = (.ok (), r') ∧ Retains N r' (stream ++ bytes) := by
  have hlen := h.length_eq
  have hhead := h.head_eq
  have hstart := h.start_lt
  unfold ByteRing.append
  rw [h.tail_eq, checkedAdd_eq_some.mpr ⟨hroom, rfl⟩]
  dsimp only
  split
  · exact ⟨_, rfl, h.refill ‹_› hroom⟩
  · -- the oldest bytes make room, then the new ones go to the end of the queue
    let evict := bytes.length - (N - r.length)
    let kept : ByteRing := ⟨r.data, (r.start + evict) % N, r.length - evict, r.head + evict⟩
    let written := bytes.foldl (RingBuffer.enqueue N) (kept.ring N)
    have hsound : (kept.ring N).Sound N := ⟨Nat.mod_lt _ (by omega), by show r.length - evict ≤ N; omega, rfl⟩
    obtain ⟨hlist, hhead', hcount⟩ := RingBuffer.toList_foldl_enqueue hsound bytes
      (by show r.length - evict + bytes.length ≤ N; omega)
    refine ⟨_, rfl, hsound.head_lt, ?_, ?_, by simpa using hroom, ?_⟩
    · show r.length - evict + bytes.length = _
      rw [List.length_append]
      omega
    · show r.head + evict = _ - (r.length - evict + bytes.length)
      rw [List.length_append]
      omega
    · have hsame :
        (ring N { kept with data := written.queue, length := kept.length + bytes.length }).toList N =
          written.toList N := by
        unfold RingBuffer.toList
        rw [hhead', hcount]
        rfl
      refine hsame.trans (hlist.trans ?_)
      show _ = (stream ++ bytes).drop (r.head + evict)
      rw [toList_ring_drop, h.contents, List.drop_drop, List.drop_append_of_le_length (by omega)]

theorem Retains.refused (hfull : wordBound ≤ stream.length + bytes.length) :
    r.append N bytes = (.error .exhausted, r) := by
  rw [ByteRing.append, h.tail_eq, checkedAdd_eq_none.mpr hfull]

theorem Retains.read (cursor len : Nat) : r.read N cursor len = streamRead N stream cursor len := by
  unfold ByteRing.read streamRead
  rw [h.tail_eq, ← h.length_eq, ← h.head_eq]
  dsimp only
  split
  · rfl
  · have hcontents : (List.range (r.length - (max cursor r.head - r.head))).map
        (fun i => r.data ((r.start + (max cursor r.head - r.head) + i) % N)) =
          stream.drop (max cursor r.head) := by
      have hdrop := toList_ring_drop (N := N) r (max cursor r.head - r.head) 0
      rw [h.contents, List.drop_drop, Nat.add_sub_cancel' (Nat.le_max_right _ _)] at hdrop
      rw [← hdrop]
      simp [RingBuffer.toList, ring, Nat.mod_add_mod]
    rw [← hcontents, ← List.map_take, List.take_range, List.length_map, List.length_range]

omit h

/-- The ring after an append, and the stream with what was accepted. -/
def note (N : Nat) (s : ByteRing × List UInt8) (bytes : List UInt8) : ByteRing × List UInt8 :=
  match s.1.append N bytes with
  | (.ok _, r) => (r, s.2 ++ bytes)
  | (.error _, r) => (r, s.2)

/-- Many appends, and the stream. -/
def notes (N : Nat) (appends : List (List UInt8)) : ByteRing × List UInt8 := appends.foldl (note N) (new, [])

/-- **The ring is the stream**, but for the bytes it had no room for. -/
theorem diagnostic_ring_is_stream (hN : 0 < N) (appends : List (List UInt8)) :
    Retains N (notes N appends).1 (notes N appends).2 ∧
      (∀ cursor len, (notes N appends).1.read N cursor len = streamRead N (notes N appends).2 cursor len) ∧
      ∀ bytes, if (notes N appends).2.length + bytes.length < wordBound
        then ((notes N appends).1.append N bytes).1 = .ok ()
        else (notes N appends).1.append N bytes = (.error .exhausted, (notes N appends).1) := by
  have hretains : Retains N (notes N appends).1 (notes N appends).2 := by
    refine List.foldlRecOn (motive := fun s => Retains N s.1 s.2) appends (note N) ?_ ?_
    · exact ⟨hN, by simp [new], rfl, by decide, rfl⟩
    · intro s h bytes _
      by_cases hroom : s.2.length + bytes.length < wordBound
      · obtain ⟨r', hr', h'⟩ := h.append hroom
        rw [note, hr']
        exact h'
      · rw [note, h.refused (Nat.le_of_not_lt hroom)]
        exact h
  refine ⟨hretains, hretains.read, fun bytes => ?_⟩
  split
  · rename_i hroom
    obtain ⟨r', hr', _⟩ := hretains.append hroom
    rw [hr']
  · rename_i hfull
    exact hretains.refused (Nat.le_of_not_lt hfull)

theorem diagnostic_ring_is_stream_three :
    0 < 3 ∧ Retains 3 (notes 3 [[1, 2], [3, 4]]).1 [1, 2, 3, 4] :=
  ⟨by decide, (diagnostic_ring_is_stream (N := 3) (by decide) [[1, 2], [3, 4]]).1⟩

end ByteRing

end Mnu.Util.DiagnosticBuffer
