import Mathlib.Tactic

/-!
# Lib — the bits of a byte array

A byte array is a list of bytes, read as one big-endian number: `bitAt ar i` is its bit `i`,
counted from the most significant bit of the first byte, and `false` beyond the end.

The number itself is `bigEndian ar`, whose bits are those of the array (`testBit_bigEndian`).
-/

namespace Lib

/-- The bit `i` of an array of bytes, counted from the most significant bit of the first byte. -/
def bitAt (ar : List (BitVec 8)) (i : ℕ) : Bool := (ar.getD (i / 8) 0#8).getLsbD (7 - i % 8)

@[simp] theorem bitAt_nil (i : ℕ) : bitAt [] i = false := by
  simp [bitAt]

theorem bitAt_cons (b : BitVec 8) (bs : List (BitVec 8)) (i : ℕ) :
    bitAt (b :: bs) i = if i < 8 then b.getLsbD (7 - i) else bitAt bs (i - 8) := by
  unfold bitAt
  split
  · next h => rw [Nat.div_eq_of_lt h, Nat.mod_eq_of_lt h, List.getD_cons_zero]
  · next h =>
    rw [show i / 8 = (i - 8) / 8 + 1 by omega, List.getD_cons_succ,
      show i % 8 = (i - 8) % 8 by omega]

theorem bitAt_append (as bs : List (BitVec 8)) (i : ℕ) :
    bitAt (as ++ bs) i = if i < 8 * as.length then bitAt as i else bitAt bs (i - 8 * as.length) := by
  induction as generalizing i with
  | nil => simp
  | cons a as ih =>
    rw [List.cons_append, bitAt_cons, bitAt_cons, ih, List.length_cons]
    by_cases h : i < 8
    · rw [if_pos h, if_pos h, if_pos (by omega)]
    · rw [if_neg h, if_neg h, Nat.sub_sub, show 8 + 8 * as.length = 8 * (as.length + 1) by omega]
      exact if_congr (by omega) rfl rfl

theorem bitAt_of_length_le {ar : List (BitVec 8)} {i : ℕ} (h : 8 * ar.length ≤ i) :
    bitAt ar i = false := by
  rw [bitAt, List.getD_eq_getElem?_getD, List.getElem?_eq_none (by omega), Option.getD_none,
    BitVec.getLsbD_zero]

theorem bitAt_drop (ar : List (BitVec 8)) (n i : ℕ) : bitAt (ar.drop n) i = bitAt ar (8 * n + i) := by
  unfold bitAt
  rw [List.getD_eq_getElem?_getD, List.getD_eq_getElem?_getD, List.getElem?_drop,
    show (8 * n + i) / 8 = n + i / 8 by omega, show (8 * n + i) % 8 = i % 8 by omega]

theorem bitAt_take (ar : List (BitVec 8)) {n i : ℕ} (h : i < 8 * n) :
    bitAt (ar.take n) i = bitAt ar i := by
  unfold bitAt
  rw [List.getD_eq_getElem?_getD, List.getD_eq_getElem?_getD, List.getElem?_take_of_lt (by omega)]

@[simp] theorem bitAt_replicate_zero (n i : ℕ) : bitAt (List.replicate n 0#8) i = false := by
  induction n generalizing i with
  | zero => exact bitAt_nil i
  | succ n ih => simp [List.replicate_succ, bitAt_cons, ih]

/-- The bits of an array with one byte changed. -/
theorem bitAt_modify (f : BitVec 8 → BitVec 8) {ar : List (BitVec 8)} {n : ℕ} (h : n < ar.length)
    (i : ℕ) :
    bitAt (ar.modify n f) i = if i / 8 = n then (f ar[n]).getLsbD (7 - i % 8) else bitAt ar i := by
  unfold bitAt
  rw [List.getD_eq_getElem?_getD, List.getD_eq_getElem?_getD, List.getElem?_modify]
  by_cases hi : i / 8 = n
  · rw [if_pos hi, hi, List.getElem?_eq_getElem h]
    simp
  · simp [hi, Ne.symm hi]

theorem getLsbD_getElem {ar : List (BitVec 8)} {n : ℕ} (h : n < ar.length) (i : ℕ)
    (hi : i / 8 = n) : (ar[n]).getLsbD (7 - i % 8) = bitAt ar i := by
  rw [bitAt, List.getD_eq_getElem?_getD, hi, List.getElem?_eq_getElem h, Option.getD_some]

/-- Bits that repeat what stands `s` places before them, after `s` zeros, are zeros. -/
theorem eq_shift_iff {f : ℕ → Bool} {lo hi s : ℕ} (hs : 0 < s) :
    (∀ i, lo ≤ i → i < hi → f i = (decide (lo + s ≤ i) && f (i - s))) ↔
      ∀ i, lo ≤ i → i < hi → f i = false := by
  constructor
  · intro h i
    induction i using Nat.strong_induction_on with
    | _ i ih =>
      intro hlo hhi
      rw [h i hlo hhi]
      by_cases hi : lo + s ≤ i
      · rw [ih (i - s) (by omega) (by omega) (by omega), Bool.and_false]
      · rw [decide_eq_false hi, Bool.false_and]
  · intro h i hlo hhi
    rw [h i hlo hhi]
    by_cases hi : lo + s ≤ i
    · rw [h (i - s) (by omega) (by omega), Bool.and_false]
    · rw [decide_eq_false hi, Bool.false_and]

/-- The number that an array of bytes is, the first byte the most significant one. -/
def bigEndian : List (BitVec 8) → ℕ
  | [] => 0
  | b :: bs => 2 ^ (8 * bs.length) * b.toNat + bigEndian bs

theorem bigEndian_lt (ar : List (BitVec 8)) : bigEndian ar < 2 ^ (8 * ar.length) := by
  induction ar with
  | nil => exact Nat.one_pos
  | cons b bs ih =>
    have hb : b.toNat + 1 ≤ 2 ^ 8 := b.isLt
    calc 2 ^ (8 * bs.length) * b.toNat + bigEndian bs
        < 2 ^ (8 * bs.length) * (b.toNat + 1) := by
          rw [Nat.mul_add, Nat.mul_one]
          exact Nat.add_lt_add_left ih _
      _ ≤ 2 ^ (8 * bs.length) * 2 ^ 8 := Nat.mul_le_mul_left _ hb
      _ = 2 ^ (8 * (b :: bs).length) := by rw [← pow_add, List.length_cons, Nat.mul_succ]

theorem testBit_bigEndian (ar : List (BitVec 8)) (j : ℕ) :
    (bigEndian ar).testBit j =
      (decide (j < 8 * ar.length) && bitAt ar (8 * ar.length - 1 - j)) := by
  induction ar with
  | nil => rw [bigEndian, Nat.zero_testBit, bitAt_nil, Bool.and_false]
  | cons b bs ih =>
    rw [bigEndian, Nat.testBit_two_pow_mul_add _ (bigEndian_lt bs), List.length_cons, bitAt_cons]
    by_cases hj : j < 8 * bs.length
    · rw [if_pos hj, ih, if_neg (by omega), decide_eq_true hj,
        decide_eq_true (show j < 8 * (bs.length + 1) by omega),
        show 8 * (bs.length + 1) - 1 - j - 8 = 8 * bs.length - 1 - j by omega]
    · rw [if_neg hj, BitVec.testBit_toNat]
      by_cases hj' : j < 8 * (bs.length + 1)
      · rw [if_pos (by omega), decide_eq_true hj', Bool.true_and,
          show 7 - (8 * (bs.length + 1) - 1 - j) = j - 8 * bs.length by omega]
      · rw [decide_eq_false hj', Bool.false_and, BitVec.getLsbD_of_ge b _ (by omega)]

end Lib
