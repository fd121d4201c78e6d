import Goedb.Access.HeaderPage
import Goedb.Lib.Bits

/-!
# Access — what the shifts of `header_page.c` do to the bits

`bitAt` numbers the bits of an array of bytes.  `shift_bit_array` moves them (`shiftBitArray_ok`),
`split_bit_array` copies them into two arrays (`splitBitArray_ok`), and what `write_bits` and
`read_bits` do with the bytes of one page is said bit by bit (`bytesToWrite_ok`,
`pageBit_overwrite`, `bytesRead_ok`).
-/

namespace Goedb

open Lib

theorem getLsbD_ucharMax (j : ℕ) : ucharMax.getLsbD j = decide (j < 8) := by
  by_cases h : j < 8
  · have : ∀ j : Fin 8, ucharMax.getLsbD j = true := by decide
    simp [h, this ⟨j, h⟩]
  · rw [BitVec.getLsbD_of_ge _ _ (by omega)]
    simp [h]

/-- The bytes that hold some bits: the rounding of the code. -/
theorem bytes_eq (n : ℕ) : (n / charBit + if n % charBit ≠ 0 then 1 else 0) = (n + 7) / 8 := by
  have hc : charBit = 8 := rfl
  rw [hc]
  split <;> omega

/-! ### Shifts -/

@[simp] theorem length_shiftRightFrom (k : ℕ) (carry : Uchar) (bs : List Uchar) :
    (shiftRightFrom k carry bs).length = bs.length := by
  induction bs generalizing carry with
  | nil => rfl
  | cons b bs ih => simp [shiftRightFrom, ih]

@[simp] theorem length_shiftLeftFrom (k : ℕ) (bs : List Uchar) :
    (shiftLeftFrom k bs).1.length = bs.length := by
  induction bs with
  | nil => rfl
  | cons b bs ih => simp [shiftLeftFrom, ih]

/-- The bits move `k` places on; the carry fills the places in front. -/
theorem bitAt_shiftRightFrom {k : ℕ} (hk : k ≤ 8) (carry : Uchar) (bs : List Uchar) {i : ℕ}
    (hi : i < 8 * bs.length) :
    bitAt (shiftRightFrom k carry bs) i =
      if i < k then carry.getLsbD (k - 1 - i) else bitAt bs (i - k) := by
  have hc : charBit = 8 := rfl
  induction bs generalizing carry i with
  | nil => simp at hi
  | cons b bs ih =>
    rw [List.length_cons] at hi
    rw [shiftRightFrom, bitAt_cons, hc]
    by_cases h8 : i < 8
    · rw [if_pos h8, BitVec.getLsbD_or, BitVec.getLsbD_shiftLeft, BitVec.getLsbD_ushiftRight]
      by_cases hik : i < k
      · rw [if_pos hik, BitVec.getLsbD_of_ge b _ (by omega), Bool.or_false,
          show 7 - i - (8 - k) = k - 1 - i by omega]
        simp only [show 7 - i < 8 by omega, show ¬ (7 - i < 8 - k) by omega, decide_true,
          decide_false, Bool.not_false, Bool.true_and]
      · rw [if_neg hik, bitAt_cons, if_pos (by omega), show 7 - (i - k) = k + (7 - i) by omega]
        simp only [show 7 - i < 8 - k by omega, decide_true, Bool.not_true, Bool.and_false,
          Bool.false_and, Bool.false_or]
    · rw [if_neg h8, ih _ (by omega)]
      by_cases hik : i - 8 < k
      · rw [if_pos hik, if_neg (by omega), bitAt_cons, if_pos (by omega), BitVec.getLsbD_and,
          BitVec.getLsbD_ushiftRight, getLsbD_ucharMax, show 7 - (i - k) = k - 1 - (i - 8) by omega]
        simp only [show 8 - k + (k - 1 - (i - 8)) < 8 by omega, decide_true, Bool.and_true]
      · rw [if_neg hik, if_neg (by omega), bitAt_cons, if_neg (by omega), Nat.sub_right_comm]

/-- The bits move `k` places to the front; the carry is what leaves the array. -/
theorem bitAt_shiftLeftFrom {k : ℕ} (hk : k ≤ 8) (bs : List Uchar) :
    (∀ i < 8 * bs.length, bitAt (shiftLeftFrom k bs).1 i = bitAt bs (i + k)) ∧
      ∀ j < k, (shiftLeftFrom k bs).2.getLsbD (7 - j) = bitAt bs j := by
  have hc : charBit = 8 := rfl
  induction bs with
  | nil => simp [shiftLeftFrom]
  | cons b bs ih =>
    obtain ⟨ihBits, ihCarry⟩ := ih
    refine ⟨fun i hi => ?_, fun j hj => ?_⟩
    · rw [List.length_cons] at hi
      simp only [shiftLeftFrom]
      rw [bitAt_cons, bitAt_cons, hc]
      by_cases h8 : i < 8
      · rw [if_pos h8, BitVec.getLsbD_or, BitVec.getLsbD_shiftLeft, BitVec.getLsbD_ushiftRight]
        by_cases hik : i + k < 8
        · rw [if_pos hik, BitVec.getLsbD_of_ge _ _ (by omega), Bool.false_or,
            show 7 - (i + k) = 7 - i - k by omega]
          simp only [show 7 - i < 8 by omega, show ¬ (7 - i < k) by omega, decide_true,
            decide_false, Bool.not_false, Bool.true_and]
        · rw [if_neg hik, ← ihCarry _ (by omega), show 8 - k + (7 - i) = 7 - (i + k - 8) by omega]
          simp only [show 7 - i < k by omega, decide_true, Bool.not_true, Bool.and_false,
            Bool.false_and, Bool.or_false]
      · rw [if_neg h8, if_neg (by omega), ihBits _ (by omega), show i + k - 8 = i - 8 + k by omega]
    · simp only [shiftLeftFrom]
      rw [bitAt_cons, if_pos (by omega), BitVec.getLsbD_and, BitVec.getLsbD_shiftLeft,
        getLsbD_ucharMax, hc]
      simp only [show 7 - j < 8 by omega, show ¬ (7 - j < 8 - k) by omega,
        show 7 - j - (8 - k) < 8 by omega, decide_true, decide_false, Bool.not_false, Bool.and_true]

/-- `shift_bit_array` moves every bit of the array by `s` places, and zeros come in. -/
theorem shiftBitArray_ok (ar : List Uchar) (size : ℕ) (s : ℤ) (hlen : (size + 7) / 8 ≤ ar.length)
    (h8 : s.natAbs ≤ 8) (hs : s.natAbs ≤ size) :
    ∃ ar', shiftBitArray ar size s = .ok ar' ∧ ar'.length = ar.length ∧
      ∀ i : ℕ, i < 8 * ((size + 7) / 8) →
        bitAt ar' i = (decide (s ≤ i ∧ i - s < 8 * ((size + 7) / 8 : ℕ)) &&
          bitAt ar (i - s).toNat) := by
  have hc : charBit = 8 := rfl
  have hmod : s.natAbs % 2 ^ 32 = s.natAbs := Nat.mod_eq_of_lt (by omega)
  simp only [shiftBitArray, bytes_eq]
  rw [if_neg (by omega)]
  set m := (size + 7) / 8 with hm
  have htake : (ar.take m).length = m := by rw [List.length_take]; omega
  rcases lt_trichotomy s 0 with hneg | rfl | hpos
  · rw [if_neg (by omega), if_neg (by omega), if_neg (by omega)]
    obtain ⟨hbits, -⟩ := bitAt_shiftLeftFrom h8 (ar.take m)
    refine ⟨_, rfl, ?_, fun i hi => ?_⟩
    · rw [List.length_append, length_shiftLeftFrom, htake, List.length_drop]
      omega
    · rw [bitAt_append, length_shiftLeftFrom, htake, if_pos hi, hbits i (by rwa [htake])]
      by_cases hin : i + s.natAbs < 8 * m
      · rw [bitAt_take _ hin, show ((i : ℤ) - s).toNat = i + s.natAbs by omega]
        simp only [show s ≤ (i : ℤ) ∧ (i : ℤ) - s < 8 * (m : ℤ) by omega, and_self, decide_true,
          Bool.true_and]
      · rw [bitAt_of_length_le (by rw [htake]; omega)]
        simp only [show ¬ (s ≤ (i : ℤ) ∧ (i : ℤ) - s < 8 * (m : ℤ)) by omega, decide_false,
          Bool.false_and]
  · refine ⟨ar, rfl, rfl, fun i hi => ?_⟩
    simp only [Int.sub_zero, Int.toNat_natCast, show (0 : ℤ) ≤ i ∧ (i : ℤ) < 8 * (m : ℤ) by omega,
      and_self, decide_true, Bool.true_and]
  · rw [if_neg (by omega), if_neg (by omega), if_pos hpos]
    refine ⟨_, rfl, ?_, fun i hi => ?_⟩
    · rw [List.length_append, length_shiftRightFrom, htake, List.length_drop]
      omega
    · rw [bitAt_append, length_shiftRightFrom, htake, if_pos hi,
        bitAt_shiftRightFrom h8 _ _ (by rwa [htake])]
      by_cases hin : i < s.natAbs
      · rw [if_pos hin, BitVec.getLsbD_zero]
        simp only [show ¬ (s ≤ (i : ℤ) ∧ (i : ℤ) - s < 8 * (m : ℤ)) by omega, decide_false,
          Bool.false_and]
      · rw [if_neg hin, bitAt_take _ (by omega), show ((i : ℤ) - s).toNat = i - s.natAbs by omega]
        simp only [show s ≤ (i : ℤ) ∧ (i : ℤ) - s < 8 * (m : ℤ) by omega, and_self, decide_true,
          Bool.true_and]

/-! ### The two halves of a range -/

/-- `split_bit_array` keeps the bytes in front, moved as far as the split is off the byte boundary,
and copies the bytes from the split on. -/
theorem splitBitArray_ok (ar : List Uchar) (n : ℕ) (hn : n / 8 < ar.length)
    (h64 : ar.length < 2 ^ 64) :
    ∃ first second, splitBitArray ar (ar.length * 8) n = .ok (first, second) ∧
      first.length = (n + 7) / 8 ∧ second.length = ar.length - n / 8 ∧
      (∀ i < 8 * ((n + 7) / 8), bitAt first i = (decide (n % 8 ≤ i) && bitAt ar (i - n % 8))) ∧
      ∀ i, bitAt second i = (decide (n % 8 ≤ i) && bitAt ar (8 * (n / 8) + i)) := by
  have hc : charBit = 8 := rfl
  have hm : (ar.length * 8 + 7) / 8 = ar.length := by omega
  have hs : ((n % 8 : ℕ) : ℤ).natAbs = n % 8 := Int.natAbs_natCast _
  obtain ⟨ar', hshift, hlen, hbits⟩ := shiftBitArray_ok ar (ar.length * 8)
    (n % 8 : ℕ) (by omega) (by omega) (by omega)
  rw [hm] at hbits
  have hsecond : (ar.length * 8 / 8 + 2 ^ 64 - (n + 7) / 8 +
      if n % 8 ≠ 0 then 1 else 0) % 2 ^ 64 = ar.length - n / 8 := by
    rw [Nat.mul_div_cancel _ (by decide)]
    split <;> omega
  have htake : (ar.drop (n / 8)).take (ar.length - n / 8) = ar.drop (n / 8) :=
    List.take_of_length_le (by rw [List.length_drop])
  have hdrop := List.drop_eq_getElem_cons hn
  simp only [splitBitArray, bytes_eq]
  simp only [hc]
  rw [if_neg (by omega), hsecond, htake, hdrop]
  simp only
  rw [if_neg (by rw [List.length_drop]; omega), hshift]
  refine ⟨_, _, rfl, ?_, ?_, fun i hi => ?_, fun i => ?_⟩
  · rw [List.length_take]
    omega
  · rw [List.length_cons, List.length_drop]
    omega
  · rw [bitAt_take _ hi, hbits i (by omega), show ((i : ℤ) - (n % 8 : ℕ)).toNat = i - n % 8 by omega]
    congr 1
    exact decide_eq_decide.mpr (by omega)
  · rw [← bitAt_drop, hdrop, bitAt_cons, bitAt_cons]
    by_cases h8 : i < 8
    · rw [if_pos h8, if_pos h8, BitVec.getLsbD_and, BitVec.getLsbD_ushiftRight, getLsbD_ucharMax,
        Bool.and_comm]
      congr 1
      exact decide_eq_decide.mpr (by omega)
    · rw [if_neg h8, if_neg h8, decide_eq_true (by omega), Bool.true_and]

/-! ### The bytes of one page -/

/-- What the mask keeps: the bits in front of the range, and those behind it, unless the last byte
counts as a whole one more. -/
theorem bitAt_keepMask {b n : ℕ} (hb : b < 8) {i : ℕ} (hi : i < 8 * ((b + n + 7) / 8)) :
    bitAt (keepMask b n ((b + n + 7) / 8)) i =
      (decide (i < b) || decide (b + n ≤ i ∧ n % 8 + b ≤ 8)) := by
  have hc : charBit = 8 := rfl
  set w := (b + n + 7) / 8 with hw
  have hfirst : ∀ i < 8 * w, bitAt ((List.replicate w 0#8).modify 0
      (· ||| (ucharMax <<< (8 - b)))) i = decide (i < b) := fun i hi => by
    rw [bitAt_modify _ (by rw [List.length_replicate]; omega), bitAt_replicate_zero]
    by_cases h0 : i / 8 = 0
    · rw [if_pos h0, List.getElem_replicate, BitVec.zero_or, BitVec.getLsbD_shiftLeft,
        getLsbD_ucharMax, decide_eq_true (show 7 - i % 8 < 8 by omega), Bool.true_and,
        decide_eq_true (show 7 - i % 8 - (8 - b) < 8 by omega), Bool.and_true, ← decide_not]
      exact decide_eq_decide.mpr (by omega)
    · rw [if_neg h0, decide_eq_false (by omega)]
  simp only [keepMask, hc]
  by_cases hr : (n + b) % 8 ≠ 0
  · rw [if_pos hr, bitAt_modify _ (by rw [List.length_modify, List.length_replicate]; omega)]
    by_cases hlast : i / 8 = w - 1
    · rw [if_pos hlast, BitVec.getLsbD_or, getLsbD_getElem _ _ hlast, hfirst i hi,
        BitVec.getLsbD_ushiftRight, getLsbD_ucharMax]
      congr 1
      exact decide_eq_decide.mpr (by omega)
    · rw [if_neg hlast, hfirst i hi, decide_eq_false (show ¬ (b + n ≤ i ∧ _) by omega), Bool.or_false]
  · rw [if_neg hr, hfirst i hi, decide_eq_false (show ¬ (b + n ≤ i ∧ _) by omega), Bool.or_false]

/-- The data comes to stand at its place in the bytes of the page. -/
theorem bytesToWrite_ok {b n : ℕ} {data : List Uchar} (hb : b < 8) (hn : 0 < n)
    (hdata : (n + 7) / 8 ≤ data.length) :
    ∃ ds, bytesToWrite b n data = .ok (keepMask b n ((b + n + 7) / 8), ds) ∧
      (b + n + 7) / 8 ≤ ds.length ∧
      ∀ i < 8 * ((b + n + 7) / 8), bitAt ds i =
        (decide (b ≤ i ∧ i < b + n) && bitAt data (8 * ((n + 7) / 8) - n + (i - b))) := by
  have hc : charBit = 8 := rfl
  set m := (n + 7) / 8 with hm
  set w := (b + n + 7) / 8 with hw
  set masked := data.modify 0 (· &&& (ucharMax >>> (m * 8 - n))) with hmasked
  have hlen : masked.length = data.length := List.length_modify ..
  -- the bits in front of the value are masked, bytes of zeros are put behind it, and all is shifted
  have hmbit : ∀ i, bitAt masked i = (decide (8 * m - n ≤ i) && bitAt data i) := fun i => by
    rw [hmasked, bitAt_modify _ (by omega)]
    by_cases h0 : i / 8 = 0
    · rw [if_pos h0, BitVec.getLsbD_and, getLsbD_getElem _ _ h0, BitVec.getLsbD_ushiftRight,
        getLsbD_ucharMax, Bool.and_comm]
      congr 1
      exact decide_eq_decide.mpr (by omega)
    · rw [if_neg h0, decide_eq_true (by omega), Bool.true_and]
  set padded := if m < w then masked.take m ++ List.replicate (w - m) 0#8 else masked with hpadded
  have hplen : w ≤ padded.length := by
    rw [hpadded]
    split
    · rw [List.length_append, List.length_take, List.length_replicate]
      omega
    · omega
  have hpbit : ∀ i < 8 * w, bitAt padded i = (decide (i < 8 * m) && bitAt masked i) := fun i hi => by
    rw [hpadded]
    split
    · rw [bitAt_append, List.length_take, min_eq_left (by omega)]
      by_cases him : i < 8 * m
      · rw [if_pos him, bitAt_take _ him, decide_eq_true him, Bool.true_and]
      · rw [if_neg him, bitAt_replicate_zero, decide_eq_false him, Bool.false_and]
    · rw [decide_eq_true (by omega), Bool.true_and]
  set s : ℤ := -((m * 8 : ℕ) - (n : ℤ)) + b with hs
  have hsize : (w * 8 + 7) / 8 = w := by omega
  obtain ⟨ds, hds, hdslen, hbits⟩ := shiftBitArray_ok padded (w * 8) s (by omega) (by omega) (by omega)
  rw [hsize] at hbits
  refine ⟨ds, ?_, by omega, fun i hi => ?_⟩
  · simp only [bytesToWrite, bytes_eq]
    rw [if_neg (by omega)]
    simp only [hc]
    rw [hds]
    rfl
  · rw [hbits i hi]
    by_cases hin : b ≤ i ∧ i < b + n
    · rw [show ((i : ℤ) - s).toNat = 8 * m - n + (i - b) by omega, hpbit _ (by omega), hmbit,
        decide_eq_true hin, decide_eq_true (by omega), decide_eq_true (by omega),
        decide_eq_true (by omega), Bool.true_and, Bool.true_and, Bool.true_and]
    · rw [decide_eq_false hin, Bool.false_and]
      by_cases hsi : s ≤ i ∧ (i : ℤ) - s < 8 * (w : ℤ)
      · rw [hpbit _ (by omega), hmbit]
        by_cases hib : i < b
        · rw [decide_eq_false (p := 8 * m - n ≤ _) (by omega), Bool.false_and, Bool.and_false,
            Bool.and_false]
        · rw [decide_eq_false (p := _ < 8 * m) (by omega), Bool.false_and, Bool.and_false]
      · rw [decide_eq_false hsi, Bool.false_and]

/-- The bytes written over a page: of what was there stays what the mask keeps. -/
theorem pageBit_overwrite (ms : List Uchar) {ds : List Uchar} (h : ms.length ≤ ds.length)
    (page : PageData) (off i : ℕ) :
    pageBit (overwrite page off ms ds) i =
      if 8 * off ≤ i ∧ i < 8 * (off + ms.length) then
        pageBit page i && bitAt ms (i - 8 * off) || bitAt ds (i - 8 * off)
      else pageBit page i := by
  induction ms generalizing ds page off with
  | nil => rw [overwrite.eq_def, if_neg (by simp only [List.length_nil]; omega)]
  | cons m ms ih =>
    cases ds with
    | nil => simp at h
    | cons d ds =>
      rw [List.length_cons, List.length_cons] at h
      rw [overwrite, ih (by omega), pageBit_update, List.length_cons, bitAt_cons, bitAt_cons]
      by_cases hhere : i / 8 = off
      · rw [if_neg (by omega), if_pos hhere, if_pos (by omega), if_pos (by omega), if_pos (by omega),
          BitVec.getLsbD_or, BitVec.getLsbD_and, show 7 - (i - 8 * off) = 7 - i % 8 by omega, pageBit,
          hhere]
      · rw [if_neg hhere]
        by_cases hlater : 8 * (off + 1) ≤ i ∧ i < 8 * (off + 1 + ms.length)
        · rw [if_pos hlater, if_pos (by omega), if_neg (by omega), if_neg (by omega),
            show i - 8 * off - 8 = i - 8 * (off + 1) by omega]
        · rw [if_neg hlater, if_neg (by omega)]

/-- The bits of some bytes of a page. -/
theorem bitAt_map_page (page : PageData) (off n : ℕ) {i : ℕ} (hi : i < 8 * n) :
    bitAt ((List.range n).map fun j => page (off + j)) i = pageBit page (8 * off + i) := by
  rw [bitAt, pageBit, List.getD_eq_getElem?_getD, List.getElem?_map,
    List.getElem?_range (by omega), show (8 * off + i) / 8 = off + i / 8 by omega,
    show (8 * off + i) % 8 = i % 8 by omega]
  rfl

/-- The first byte as `read_bits` masks it: its bits from the range on. -/
theorem getLsbD_firstByte (page : PageData) (off b : ℕ) {i : ℕ} (hi : i < 8) :
    (page off &&& (ucharMax >>> b)).getLsbD (7 - i) =
      (decide (b ≤ i) && pageBit page (8 * off + i)) := by
  rw [BitVec.getLsbD_and, BitVec.getLsbD_ushiftRight, getLsbD_ucharMax, Bool.and_comm, pageBit,
    show (8 * off + i) / 8 = off by omega, show (8 * off + i) % 8 = i by omega]
  congr 1
  exact decide_eq_decide.mpr (by omega)

/-- The bytes read hold the bits of the range behind zeros, but for the first byte of a result that
is as long as the bytes it comes from: that one is not shifted. -/
theorem bytesRead_ok {b n : ℕ} (hb : b < 8) (hn : 0 < n) (page : PageData) (off : ℕ) :
    ∃ r, bytesRead page off b n = .ok r ∧ r.length = (n + 7) / 8 ∧
      ∀ i < 8 * ((n + 7) / 8), bitAt r i =
        if i < 8 ∧ (b + n + 7) / 8 = (n + 7) / 8 then decide (b ≤ i) && pageBit page (8 * off + i)
        else decide (8 * ((n + 7) / 8) - n ≤ i) &&
          pageBit page (8 * off + b + (i - (8 * ((n + 7) / 8) - n))) := by
  have hc : charBit = 8 := rfl
  simp only [bytesRead, bytes_eq]
  simp only [hc]
  set m := (n + 7) / 8 with hm
  set w := (b + n + 7) / 8 with hw
  set s := w * 8 - (n + b) with hs
  set first := page off &&& (ucharMax >>> b) with hfirst
  have hrest : ∀ i < 8 * (w - 1), bitAt (shiftRightFrom s (first &&& (ucharMax >>> (8 - s)))
      ((List.range (w - 1)).map fun j => page (off + (j + 1)))) i =
      (decide (b + s ≤ i + 8) && pageBit page (8 * off + (i + 8 - s))) := fun i hi => by
    rw [bitAt_shiftRightFrom (by omega) _ _ (by simpa using hi)]
    by_cases his : i < s
    · rw [if_pos his, BitVec.getLsbD_and, BitVec.getLsbD_ushiftRight, getLsbD_ucharMax,
        decide_eq_true (show 8 - s + (s - 1 - i) < 8 by omega), Bool.and_true,
        show s - 1 - i = 7 - (i + 8 - s) by omega, hfirst, getLsbD_firstByte _ _ _ (by omega)]
      congr 1
      exact decide_eq_decide.mpr (by omega)
    · have hbit := bitAt_map_page page (off + 1) (w - 1) (show i - s < 8 * (w - 1) by omega)
      simp only [Nat.add_right_comm _ 1] at hbit
      rw [if_neg his, decide_eq_true (show b + s ≤ i + 8 by omega), Bool.true_and]
      simp only [← Nat.add_assoc]
      rw [hbit, show 8 * (off + 1) + (i - s) = 8 * off + (i + 8 - s) by omega]
  rw [if_neg (by omega)]
  refine ⟨_, rfl, ?_, fun i hi => ?_⟩
  · split
    · rw [length_shiftRightFrom, List.length_map, List.length_range]
      omega
    · rw [List.length_cons, length_shiftRightFrom, List.length_map, List.length_range]
      omega
  · split
    · next h =>
      rw [if_neg (by omega), hrest i (by omega)]
      by_cases he : 8 * m - n ≤ i
      · rw [decide_eq_true (by omega), decide_eq_true he,
          show 8 * off + (i + 8 - s) = 8 * off + b + (i - (8 * m - n)) by omega]
      · rw [decide_eq_false (by omega), decide_eq_false he, Bool.false_and, Bool.false_and]
    · next h =>
      rw [bitAt_cons]
      by_cases h8 : i < 8
      · rw [if_pos h8, if_pos ⟨h8, by omega⟩, hfirst, getLsbD_firstByte _ _ _ h8]
      · rw [if_neg h8, if_neg (by omega), hrest _ (by omega), decide_eq_true (by omega),
          decide_eq_true (show 8 * m - n ≤ i by omega),
          show 8 * off + (i - 8 + 8 - s) = 8 * off + b + (i - (8 * m - n)) by omega]

end Goedb
