import Mathlib.Data.List.Basic
import Mathlib.Tactic.Ring

/-!
# Lib — a stream of bytes

A file with a position, as the standard I/O library has it: `seek`, `tell`, reading and writing at the
position, and cutting the file off.  What is read and written comes in items of one size.

A file made of blocks of one size is `bs.flatMap f`, for the bytes `f b` of a block `b`.  Reading,
writing and cutting at the border of a block are `List.take`, `List.drop` and `++` on the blocks
(`read_blocks`, `write_blocks`, `truncate_blocks`).
-/

namespace Lib

variable {α β : Type}

/-- An open file. -/
structure Stream (α : Type) where
  bytes : List α
  pos : ℕ
  deriving DecidableEq, Repr

namespace Stream

/-- `fopen`: the position is at the beginning. -/
def openBytes (bytes : List α) : Stream α := ⟨bytes, 0⟩

/-- `fseek` from the beginning. -/
def seek (s : Stream α) (offset : ℕ) : Stream α := { s with pos := offset }

/-- `fseek` to the end. -/
def seekEnd (s : Stream α) : Stream α := { s with pos := s.bytes.length }

/-- `ftell`. -/
def tell (s : Stream α) : ℕ := s.pos

/-- `fwrite`: over what stands at the position.  A gap before the position is filled with `z`. -/
def write (z : α) (s : Stream α) (data : List α) : Stream α where
  bytes := s.bytes.take s.pos ++ List.replicate (s.pos - s.bytes.length) z ++ data ++
    s.bytes.drop (s.pos + data.length)
  pos := s.pos + data.length

/-- `fread` of `n` items of a size: the number of the items that are there, and what was read. -/
def read (s : Stream α) (size n : ℕ) : ℕ × List α × Stream α :=
  let got := (s.bytes.drop s.pos).take (size * n)
  (got.length / size, got, { s with pos := s.pos + got.length })

/-- `ftruncate`. -/
def truncate (z : α) (s : Stream α) (length : ℕ) : Stream α :=
  { s with bytes := s.bytes.take length ++ List.replicate (length - s.bytes.length) z }

/-! ### Blocks of one size -/

section Blocks

variable {f : β → List α} {size : ℕ} (hf : ∀ b, (f b).length = size)
include hf

theorem length_blocks (bs : List β) : (bs.flatMap f).length = bs.length * size := by
  induction bs with
  | nil => simp
  | cons b bs ih =>
      rw [List.flatMap_cons, List.length_append, ih, hf, List.length_cons, Nat.succ_mul, Nat.add_comm]

theorem take_blocks (bs : List β) : ∀ k, (bs.flatMap f).take (k * size) = (bs.take k).flatMap f := by
  induction bs with
  | nil => simp
  | cons b bs ih =>
      intro k
      cases k with
      | zero => simp
      | succ k =>
          have hk : (k + 1) * size = (f b).length + k * size := by rw [hf]; ring
          rw [List.flatMap_cons, hk, List.take_length_add_append, ih, List.take_succ_cons,
            List.flatMap_cons]

theorem drop_blocks (bs : List β) : ∀ k, (bs.flatMap f).drop (k * size) = (bs.drop k).flatMap f := by
  induction bs with
  | nil => simp
  | cons b bs ih =>
      intro k
      cases k with
      | zero => simp
      | succ k =>
          have hk : (k + 1) * size = (f b).length + k * size := by rw [hf]; ring
          rw [List.flatMap_cons, hk, List.drop_length_add_append, ih, List.drop_succ_cons]

variable {bs : List β}

/-- **Writing whole blocks**, at the border of a block of the file or at its end. -/
theorem write_blocks (z : α) {k : ℕ} (hk : k ≤ bs.length) (new : List β) :
    write z ⟨bs.flatMap f, k * size⟩ (new.flatMap f) =
      ⟨(bs.take k ++ new ++ bs.drop (k + new.length)).flatMap f, (k + new.length) * size⟩ := by
  have hgap : k * size - (bs.flatMap f).length = 0 := by
    rw [length_blocks hf]
    exact Nat.sub_eq_zero_of_le (Nat.mul_le_mul_right size hk)
  have hpos : k * size + (new.flatMap f).length = (k + new.length) * size := by
    rw [length_blocks hf]
    ring
  simp only [write, hgap, hpos, take_blocks hf, drop_blocks hf, List.replicate_zero, List.append_nil,
    List.flatMap_append]

/-- **Reading whole blocks** that are there. -/
theorem read_blocks (hsize : 0 < size) {k n : ℕ} (h : k + n ≤ bs.length) :
    read ⟨bs.flatMap f, k * size⟩ size n =
      (n, ((bs.drop k).take n).flatMap f, ⟨bs.flatMap f, (k + n) * size⟩) := by
  have hn : ((bs.drop k).take n).length = n := by
    rw [List.length_take, List.length_drop]
    omega
  have hgot : ((bs.flatMap f).drop (k * size)).take (size * n) = ((bs.drop k).take n).flatMap f := by
    rw [drop_blocks hf, Nat.mul_comm size n, take_blocks hf]
  simp only [read, hgot, length_blocks hf, hn, Nat.mul_div_cancel n hsize]
  rw [← Nat.add_mul]

/-- Fewer blocks are read where the file ends before. -/
theorem read_short (hsize : 0 < size) {k n : ℕ} (h : bs.length < k + n) (hn : 0 < n) :
    (read ⟨bs.flatMap f, k * size⟩ size n).1 < n := by
  have hgot : ((bs.flatMap f).drop (k * size)).take (size * n) = ((bs.drop k).take n).flatMap f := by
    rw [drop_blocks hf, Nat.mul_comm size n, take_blocks hf]
  simp only [read, hgot, length_blocks hf, Nat.mul_div_cancel _ hsize, List.length_take,
    List.length_drop]
  omega

/-- **Cutting the file off** at the border of a block. -/
theorem truncate_blocks (z : α) (pos : ℕ) {k : ℕ} (hk : k ≤ bs.length) :
    truncate z ⟨bs.flatMap f, pos⟩ (k * size) = ⟨(bs.take k).flatMap f, pos⟩ := by
  have hgap : k * size - (bs.flatMap f).length = 0 := by
    rw [length_blocks hf]
    exact Nat.sub_eq_zero_of_le (Nat.mul_le_mul_right size hk)
  simp only [truncate, hgap, take_blocks hf, List.replicate_zero, List.append_nil]

end Blocks

end Stream

end Lib
