import Mathlib.Logic.Function.Basic
import Mathlib.Tactic

/-!
# Basic — machine words, constants, faults

The words of `constants.h` and of the C types the code uses.  `unsigned char`, `unsigned short` and
`unsigned long` are bit vectors of their width; a `double` is its bit pattern, since this part of the
code stores weights and compares them with one constant and never computes with them.  `size_t` values that
count pages, slots and bits are natural numbers, with `% 2 ^ 64` written where the C arithmetic can
reach it.

`PAGE_SIZE` is `sysconf(_SC_PAGESIZE)`, so it is a parameter `P` of every function that reads it.
-/

namespace Goedb

/-- `unsigned char`. -/
abbrev Uchar := BitVec 8

/-- `unsigned short`. -/
abbrev Ushort := BitVec 16

/-- `unsigned long`. -/
abbrev Ulong := BitVec 64

/-- `double`, as its bit pattern. -/
abbrev Double := BitVec 64

/-- Membership of a word in a list is decided by its equality. -/
instance : LawfulBEq Ulong := inferInstance

/-- `UNINITIALIZED_LONG`: the null value of ids and pointers between records. -/
def uninitializedLong : Ulong := 0xFFFFFFFFFFFFF666#64

/-- `UNINITIALIZED_WEIGHT`, the double `0x1.FFFFFFFFFF666p-1`.  It is a normal number other than
zero, so C's `==` against it is equality of the bit patterns. -/
def uninitializedWeight : Double := 0x3FEFFFFFFFFFF666#64

/-- The double `1.0`. -/
def doubleOne : Double := 0x3FF0000000000000#64

/-- `SLOT_SIZE`. -/
def slotSize : ℕ := 16

/-- `CHAR_BIT`. -/
def charBit : ℕ := 8

/-- `SLOTS_PER_PAGE`. -/
def slotsPerPage (P : ℕ) : ℕ := P / slotSize

/-- `MAX_PAGE_NO`, that is `LONG_MAX / PAGE_SIZE`. -/
def maxPageNo (P : ℕ) : ℕ := (2 ^ 63 - 1) / P

/-- What `sysconf(_SC_PAGESIZE)` may return: a power of two from 4 KiB to 1 GiB. -/
def IsPageSize (P : ℕ) : Prop := ∃ k, 12 ≤ k ∧ k ≤ 30 ∧ P = 2 ^ k

/-- Why a run of the code stops without a result. -/
inductive Fault where
  /-- `exit(EXIT_FAILURE)`, after the message.  Messages are shortened: most leave out the values that
  `printf` puts into them, with the words around these, and the newline at the end. -/
  | exit (msg : String)
  /-- The code dereferences a null or freed pointer, or leaves the bounds of an array: C gives the run
  no meaning. -/
  | undefined
  /-- A loop was not finished within the fuel it was given. -/
  | diverge
  deriving DecidableEq, Repr

/-- `file_type`, without its end marker `invalid_ft`. -/
inductive FileType where
  | node
  | relationship
  deriving DecidableEq, Repr

/-- The number behind a `file_type`. -/
def FileType.toNat : FileType → ℕ
  | .node => 0
  | .relationship => 1

/-- `file_kind`, without its end marker `invalid`. -/
inductive FileKind where
  | catalogue
  | header
  | records
  deriving DecidableEq, Repr

/-- The bytes of one page; only the offsets below `PAGE_SIZE` exist in the C code. -/
abbrev PageData := ℕ → Uchar

/-- A page of zeros. -/
def zeroPage : PageData := fun _ => 0#8

end Goedb
