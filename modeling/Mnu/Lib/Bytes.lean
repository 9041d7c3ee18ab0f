import Mathlib.Tactic

/-!
# `Mnu.Lib.Bytes` — a plain array of bytes that can be resized

The abstract view of a storage object: a length, and a byte at every position. Resizing cuts off or adds
zeros. The bytes at and above the length are zero (`Bytes.tail`), so that a growth has nothing left to decide.
-/

namespace Mnu.Lib

/-- Bytes with a length; beyond it they are zero. -/
structure Bytes where
  length : Nat
  byte : Nat → UInt8
  tail : ∀ i, length ≤ i → byte i = 0

namespace Bytes

variable {b : Bytes} {i j n : Nat} {v : UInt8}

/-- `n` zeros. -/
def zeros (n : Nat) : Bytes := ⟨n, fun _ => 0, fun _ _ => rfl⟩

/-- Cut off at `n`, or extend to it with zeros. -/
def resize (b : Bytes) (n : Nat) : Bytes where
  length := n
  byte i := if i < n then b.byte i else 0
  tail _ hi := if_neg (Nat.not_lt.mpr hi)

/-- Put a byte at a position below the length. -/
def put (b : Bytes) (i : Nat) (v : UInt8) : Bytes where
  length := b.length
  byte j := if j = i ∧ i < b.length then v else b.byte j
  tail j hj := by
    rw [if_neg (by omega)]
    exact b.tail j hj

theorem byte_resize_old (h : i < n) : (b.resize n).byte i = b.byte i := if_pos h

theorem byte_put_self (h : i < b.length) : (b.put i v).byte i = v := if_pos ⟨rfl, h⟩

theorem byte_put_ne (h : j ≠ i) : (b.put i v).byte j = b.byte j := if_neg fun hc => h hc.1

end Bytes

end Mnu.Lib
