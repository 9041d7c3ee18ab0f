import Mathlib.Tactic

/-!
# `Mnu.Mem.Pte` — the entries of a user page table

The bits of a leaf entry that the kernel looks at, with the rules of `residency.rs` and `cow_access.rs` on
them, and the flags that `protect_user_page_if_mapped` writes. Three bits belong to software: a leaf may be
shared and copied on the first write (`copyOnWrite`), such a leaf may be barred from that (`writeDisabled`),
and a leaf may own a frame of memory (`ramLeaf`). A leaf that is not present still owns its frame.
-/

namespace Mnu.Mem

/-- A page table entry. -/
structure Entry where
  addr : Nat
  flags : BitVec 64
  deriving DecidableEq

/-- No mapping. -/
def Entry.unused : Entry := ⟨0, 0⟩

namespace Pte

/-- `PageTableFlags::PRESENT`. -/
def present : BitVec 64 := 0x1

/-- `PageTableFlags::WRITABLE`. -/
def writable : BitVec 64 := 0x2

/-- `PageTableFlags::USER_ACCESSIBLE`. -/
def userAccessible : BitVec 64 := 0x4

/-- `PageTableFlags::ACCESSED | PageTableFlags::DIRTY`. -/
def accessedDirty : BitVec 64 := 0x60

/-- `PageTableFlags::HUGE_PAGE`. -/
def hugePage : BitVec 64 := 0x80

/-- `COPY_ON_WRITE`. -/
def copyOnWrite : BitVec 64 := 0x200

/-- `WRITE_DISABLED`. -/
def writeDisabled : BitVec 64 := 0x400

/-- `RAM_LEAF`. -/
def ramLeaf : BitVec 64 := 0x800

/-- `PageTableFlags::NO_EXECUTE`. -/
def noExecute : BitVec 64 := 0x8000000000000000

/-- `PageTableFlags::contains`. -/
def contains (flags bits : BitVec 64) : Bool := flags &&& bits = bits

/-- `is_resident`. -/
def isResident (flags : BitVec 64) : Bool :=
  flags &&& (ramLeaf ||| userAccessible) = ramLeaf ||| userAccessible

/-- `with_write_access`. -/
def withWriteAccess (flags : BitVec 64) (allowed : Bool) : BitVec 64 :=
  if flags &&& copyOnWrite ≠ 0 ∧ allowed = false then flags ||| writeDisabled else flags &&& ~~~writeDisabled

/-- The flags that `protect_user_page_if_mapped` leaves, when there is no copy to make. -/
def protectFlags (flags : BitVec 64) (isPresent isWritable isExecutable : Bool) : BitVec 64 :=
  let flags := flags &&& ~~~(present ||| writable ||| noExecute)
  let flags := flags ||| userAccessible
  let flags :=
    if isPresent then
      let flags := flags ||| present
      let flags := if isWritable then flags ||| writable else flags
      if isExecutable then flags else flags ||| noExecute
    else flags ||| noExecute
  withWriteAccess flags isWritable

end Pte

end Mnu.Mem
