import Mathlib.Tactic

/-!
# Lib — little-endian words in a byte array

A byte array is a function from offsets to bytes.  `loadWord` and `storeWord` move a 64-bit word
from and to eight consecutive bytes, least significant byte first.  A load sees the last store at
its offset (`loadWord_storeWord`), and no store that leaves its eight bytes alone
(`loadWord_storeWord_of_disjoint`).
-/

namespace Lib

/-- The word in the eight bytes from `off`. -/
def loadWord (d : ℕ → BitVec 8) (off : ℕ) : BitVec 64 :=
  (d off).setWidth 64 ||| (d (off + 1)).setWidth 64 <<< 8 |||
    (d (off + 2)).setWidth 64 <<< 16 ||| (d (off + 3)).setWidth 64 <<< 24 |||
    (d (off + 4)).setWidth 64 <<< 32 ||| (d (off + 5)).setWidth 64 <<< 40 |||
    (d (off + 6)).setWidth 64 <<< 48 ||| (d (off + 7)).setWidth 64 <<< 56

/-- The bytes with a word stored at `off`. -/
def storeWord (d : ℕ → BitVec 8) (off : ℕ) (v : BitVec 64) : ℕ → BitVec 8 := fun i =>
  if off ≤ i ∧ i < off + 8 then v.extractLsb' (8 * (i - off)) 8 else d i

theorem getLsbD_loadWord (d : ℕ → BitVec 8) (off q r : ℕ) (hq : q < 8) (hr : r < 8) :
    (loadWord d off).getLsbD (8 * q + r) = (d (off + q)).getLsbD r := by
  unfold loadWord
  simp only [BitVec.getLsbD_or, BitVec.getLsbD_shiftLeft, BitVec.getLsbD_setWidth]
  interval_cases q <;> interval_cases r <;> simp

/-- A load reads its own eight bytes only. -/
theorem loadWord_congr {d d' : ℕ → BitVec 8} {off : ℕ}
    (h : ∀ i, off ≤ i → i < off + 8 → d i = d' i) : loadWord d off = loadWord d' off := by
  unfold loadWord
  rw [h off (by omega) (by omega), h (off + 1) (by omega) (by omega),
    h (off + 2) (by omega) (by omega), h (off + 3) (by omega) (by omega),
    h (off + 4) (by omega) (by omega), h (off + 5) (by omega) (by omega),
    h (off + 6) (by omega) (by omega), h (off + 7) (by omega) (by omega)]

/-- A load returns the word stored at its offset. -/
@[simp] theorem loadWord_storeWord (d : ℕ → BitVec 8) (off : ℕ) (v : BitVec 64) :
    loadWord (storeWord d off v) off = v := by
  apply BitVec.eq_of_getLsbD_eq
  intro i hi
  have e : i = 8 * (i / 8) + i % 8 := by omega
  have hb : storeWord d off v (off + i / 8) = v.extractLsb' (8 * (i / 8)) 8 := by
    rw [storeWord, if_pos (by omega), Nat.add_sub_cancel_left]
  rw [e, getLsbD_loadWord _ _ _ _ (by omega) (by omega), hb, BitVec.getLsbD_extractLsb']
  simp only [show i % 8 < 8 by omega, decide_true, Bool.true_and]

/-- A load does not see a store to eight other bytes. -/
theorem loadWord_storeWord_of_disjoint {d : ℕ → BitVec 8} {off off' : ℕ} {v : BitVec 64}
    (h : off' + 8 ≤ off ∨ off + 8 ≤ off') :
    loadWord (storeWord d off' v) off = loadWord d off :=
  loadWord_congr fun i h₁ h₂ => if_neg (by omega)

end Lib
