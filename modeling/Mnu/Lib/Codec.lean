import Mathlib.Tactic

/-!
# `Mnu.Lib.Codec` — little-endian words in a list of bytes

Writing and reading words is inverse both ways: a word comes back from its bytes (`getWord_here`), and a word
that was read has the bytes it was read from (`le_getWord_append`).
-/

namespace Mnu.Lib.Codec

/-- The lowest `n` bytes of a word, the lowest first. -/
def le : Nat → Nat → List UInt8
  | 0, _ => []
  | n + 1, v => UInt8.ofNat v :: le n (v / 256)

/-- The number of little-endian bytes. -/
def ofLe : List UInt8 → Nat
  | [] => 0
  | b :: bs => b.toNat + 256 * ofLe bs

/-- Some bytes from an offset on. -/
def slice (input : List UInt8) (offset n : Nat) : List UInt8 := (input.drop offset).take n

/-- The word of `n` bytes at `offset`. -/
def getWord (n : Nat) (input : List UInt8) (offset : Nat) : BitVec (8 * n) := .ofNat (8 * n)
    (ofLe (slice input offset n))

@[simp] theorem length_le (n v : Nat) : (le n v).length = n := by
  induction n generalizing v with
  | zero => rfl
  | succ n ih => simp [le, ih]

/-- Numbers survive the bytes. -/
theorem ofLe_le {n v : Nat} (h : v < 256 ^ n) : ofLe (le n v) = v := by
  induction n generalizing v with
  | zero =>
    have hv : v = 0 := by simpa using h
    rw [hv]
    rfl
  | succ n ih =>
    have hdiv : v / 256 < 256 ^ n := Nat.div_lt_of_lt_mul (by rwa [← Nat.pow_succ'])
    simp only [le, ofLe, ih hdiv, UInt8.toNat_ofNat']
    exact Nat.mod_add_div v 256

/-- Bytes survive the number. -/
theorem le_ofLe (bs : List UInt8) : le bs.length (ofLe bs) = bs := by
  induction bs with
  | nil => rfl
  | cons b bs ih =>
    have hb := b.toNat_lt
    have hdiv : (b.toNat + 256 * ofLe bs) / 256 = ofLe bs := by omega
    simp only [List.length_cons, le, ofLe, hdiv, ih, List.cons.injEq, and_true]
    apply UInt8.toNat_inj.mp
    rw [UInt8.toNat_ofNat']
    omega

theorem ofLe_lt (bs : List UInt8) : ofLe bs < 256 ^ bs.length := by
  induction bs with
  | nil => exact Nat.one_pos
  | cons b bs ih =>
    have hb := b.toNat_lt
    rw [ofLe, List.length_cons, Nat.pow_succ']
    omega

variable {k n offset : Nat} {input rest : List UInt8}

/-- The bytes at `offset` are replaced. -/
def put (output : List UInt8) (offset : Nat) (bytes : List UInt8) : List UInt8 :=
  output.take offset ++ bytes ++ output.drop (offset + bytes.length)

theorem put_zeros {output : List UInt8} : put output 0 (.replicate (n + k) 0) =
    .replicate n 0 ++ (.replicate k 0 ++ output.drop (n + k)) := by
  rw [put, List.take_zero, List.nil_append, Nat.zero_add, List.length_replicate,
    ← List.replicate_append_replicate, List.append_assoc]

/-- A write replaces what was there. -/
theorem put_append {before old new : List UInt8} (hlen : old.length = new.length) :
    put (before ++ (old ++ rest)) before.length new = before ++ (new ++ rest) := by
  rw [put, List.take_left, ← List.drop_drop, List.drop_left, ← hlen, List.drop_left, List.append_assoc]

/-! ## Reading -/

@[simp] theorem slice_skip {v : Nat} (h : k ≤ offset) :
    slice (le k v ++ rest) offset n = slice rest (offset - k) n := by
  rw [slice, List.drop_append, List.drop_eq_nil_of_le (by simpa using h), length_le]
  rfl

@[simp] theorem getWord_skip {v : Nat} (h : k ≤ offset) :
    getWord n (le k v ++ rest) offset = getWord n rest (offset - k) := by
  rw [getWord, slice_skip h, getWord]

@[simp] theorem getWord_here (v : BitVec (8 * n)) : getWord n (le n v.toNat ++ rest) 0 = v := by
  have hlt : v.toNat < 256 ^ n := by
    rw [show 256 = 2 ^ 8 from rfl, ← Nat.pow_mul]
    exact v.isLt
  rw [getWord, slice, List.drop_zero, List.take_left' (length_le _ _), ofLe_le hlt, BitVec.ofNat_toNat,
    BitVec.setWidth_eq]

/-- What is read can be written back. -/
theorem le_getWord_append {stop : Nat} (hstop : offset + n = stop) (h : stop ≤ input.length) :
    le n (getWord n input offset).toNat ++ input.drop stop = input.drop offset := by
  subst hstop
  have hlen : (slice input offset n).length = n := by
    simp only [slice, List.length_take, List.length_drop]
    omega
  have hlt := ofLe_lt (slice input offset n)
  have hle := le_ofLe (slice input offset n)
  rw [hlen] at hlt hle
  rw [getWord, BitVec.toNat_ofNat, Nat.pow_mul, Nat.mod_eq_of_lt hlt, hle, slice, ← List.drop_drop,
    List.take_append_drop]

end Mnu.Lib.Codec
