import Goedb.Access.HeaderBits
import Goedb.Lib.Trace

/-!
# Access — what `shift_bit_array` and `compare_bits` compute

An array of bytes is a number, the first byte its most significant one.  `shift_bit_array` divides this
number by a power of two or multiplies it, as far as the array goes (`shiftBitArray_number`).

`compare_bits` compares a range of bits of an array with the last bits of a mask.  `compareBitsOf` says
which bytes it reads to do so; `compareBits` is what it does to a page (`run_compareBitsOf_page`).  It
reads the byte at which the range begins also when there is no bit to compare, so it reads only bytes
of the range exactly if there is one (`comparesBits_iff`).
-/

namespace Goedb

open Lib

/-! ### Shifts -/

/-- **`shift_bit_array`** divides by a power of two, or multiplies and drops what leaves the array. -/
theorem shiftBitArray_number (ar : List Uchar) (size : ℕ) (k : ℤ) (hlen : ar.length = (size + 7) / 8)
    (h8 : k.natAbs ≤ 8) (hs : k.natAbs ≤ size) :
    ∃ ar', shiftBitArray ar size k = .ok ar' ∧ ar'.length = ar.length ∧
      bigEndian ar' = if 0 ≤ k then bigEndian ar / 2 ^ k.toNat
        else bigEndian ar * 2 ^ (-k).toNat % 2 ^ (8 * ar.length) := by
  obtain ⟨ar', hrun, hlen', hbits⟩ := shiftBitArray_ok ar size k hlen.ge h8 hs
  rw [← hlen] at hbits
  refine ⟨ar', hrun, hlen', Nat.eq_of_testBit_eq fun j => ?_⟩
  rw [testBit_bigEndian, hlen']
  by_cases hk : 0 ≤ k
  · obtain ⟨n, rfl⟩ := Int.eq_ofNat_of_zero_le hk
    rw [if_pos hk, Int.toNat_natCast, Nat.testBit_div_two_pow, testBit_bigEndian]
    by_cases hj : j < 8 * ar.length
    · rw [decide_eq_true hj, Bool.true_and, hbits _ (by omega)]
      by_cases hn : j + n < 8 * ar.length
      · rw [decide_eq_true hn, decide_eq_true (by omega),
          show (((8 * ar.length - 1 - j : ℕ) : ℤ) - n).toNat = 8 * ar.length - 1 - (j + n) by omega]
      · rw [decide_eq_false hn, decide_eq_false (by omega), Bool.false_and, Bool.false_and]
    · rw [decide_eq_false hj, decide_eq_false (show ¬ j + n < 8 * ar.length by omega),
        Bool.false_and, Bool.false_and]
  · rw [if_neg hk, Nat.testBit_mod_two_pow, Nat.testBit_mul_two_pow, testBit_bigEndian]
    by_cases hj : j < 8 * ar.length
    · rw [decide_eq_true hj, Bool.true_and, Bool.true_and, hbits _ (by omega)]
      by_cases hn : (-k).toNat ≤ j
      · rw [decide_eq_true hn, decide_eq_true (by omega), decide_eq_true (by omega), Bool.true_and,
          show (((8 * ar.length - 1 - j : ℕ) : ℤ) - k).toNat =
            8 * ar.length - 1 - (j - (-k).toNat) by omega]
        rfl
      · rw [decide_eq_false hn, decide_eq_false (by omega), Bool.false_and, Bool.false_and]
    · rw [decide_eq_false hj, Bool.false_and, Bool.false_and]

/-- A shift to the left that drops bits. -/
theorem shiftBitArray_number_seven :
    ∃ ar', shiftBitArray [0x12#8, 0x34#8, 0x56#8] 20 (-7) = .ok ar' ∧ ar'.length = 3 ∧
      bigEndian ar' = 0x1A2B00 := by
  obtain ⟨ar', hrun, hlen, hvalue⟩ := shiftBitArray_number [0x12#8, 0x34#8, 0x56#8] 20 (-7)
    (by decide) (by decide) (by decide)
  exact ⟨ar', hrun, hlen, hvalue.trans (by decide)⟩

/-! ### Comparisons -/

/-- An access to an array of bytes. -/
inductive ByteOp : Type → Type where
  | read (i : ℕ) : ByteOp Uchar
  /-- The run stops here. -/
  | stop (f : Fault) : ByteOp Empty

namespace ByteOp

/-- A computation that accesses no array and may stop the run. -/
def lift {α : Type} : Except Fault α → Prog ByteOp α
  | .ok a => pure a
  | .error f => Prog.call (.stop f) Empty.elim

/-- The array behind a pointer. -/
def onArray (ar : List Uchar) : Handler ByteOp Unit Fault := fun _ op s =>
  match op with
  | .read i =>
      match ar[i]? with
      | some b => .ok (b, s)
      | none => .error .undefined
  | .stop f => .error f

/-- The bytes of a page. -/
def onPage (page : PageData) : Handler ByteOp Unit Fault := fun _ op s =>
  match op with
  | .read i => .ok (page i, s)
  | .stop f => .error f

theorem run_perform_read {ar : List Uchar} {i : ℕ} {b : Uchar} (hb : ar[i]? = some b) :
    (Prog.perform (.read i)).run (onArray ar) () = .ok (b, ()) := by
  rw [Prog.run_perform]
  simp only [onArray, hb]

/-- The byte that an access reads. -/
def index : ∀ β, ByteOp β → Option ℕ
  | _, .read i => some i
  | _, .stop _ => none

end ByteOp

/-- `compare_bits`, with its accesses to the array. -/
def compareBitsOf (size : ℕ) (mask : Uchar) (offset nBits : ℕ) : Prog ByteOp Bool :=
  if size < offset + nBits ∨ charBit < nBits then
    ByteOp.lift (.error (.exit "header page - compare bits: Invalid Arguments!"))
  else
    let startByte := offset / charBit
    let bitOffset := offset % charBit
    let mask := mask &&& (ucharMax >>> (charBit - nBits))
    if bitOffset = 0 ∨ bitOffset + nBits ≤ charBit then do
      let shifted ← ByteOp.lift (shiftBitArray [mask] charBit (-((charBit : ℤ) - nBits) + bitOffset))
      let dataMask := (ucharMax <<< (charBit - (nBits + bitOffset))) &&& (ucharMax >>> bitOffset)
      let b ← Prog.perform (.read startByte)
      return (b &&& dataMask) == shifted.headD 0#8
    else do
      let upperMask := ucharMax >>> bitOffset
      let lowerMask := ucharMax <<< (charBit - nBits + charBit - bitOffset)
      let b ← Prog.perform (.read startByte)
      let b' ← Prog.perform (.read (startByte + 1))
      let shifted ← ByteOp.lift (shiftBitArray [b &&& upperMask, b' &&& lowerMask] (2 * charBit)
        ((charBit : ℤ) - bitOffset - nBits))
      return shifted.headD 0#8 == mask

/-- On a page it does what `compareBits` says. -/
theorem run_compareBitsOf_page (page : PageData) (size : ℕ) (mask : Uchar) (offset nBits : ℕ) :
    (compareBitsOf size mask offset nBits).run (ByteOp.onPage page) () =
      (compareBits page size mask offset nBits).map fun r => (r, ()) := by
  have hlift : ∀ {α β : Type} (x : Except Fault α) (f : α → Prog ByteOp β),
      (ByteOp.lift x >>= f).run (ByteOp.onPage page) () =
        x >>= fun a => (f a).run (ByteOp.onPage page) () := by
    intro α β x f
    cases x with
    | ok a => rfl
    | error e => rfl
  rw [compareBitsOf, compareBits]
  dsimp only
  split_ifs
  · rfl
  · rw [hlift]
    cases shiftBitArray [mask &&& (ucharMax >>> (charBit - nBits))] charBit
        (-((charBit : ℤ) - nBits) + (offset % charBit : ℕ)) with
    | error e => rfl
    | ok shifted => rfl
  · change (ByteOp.lift (shiftBitArray [page (offset / charBit) &&& _, page (offset / charBit + 1) &&& _]
      _ _) >>= _).run (ByteOp.onPage page) () = _
    rw [hlift]
    cases shiftBitArray [page (offset / charBit) &&& (ucharMax >>> (offset % charBit)),
        page (offset / charBit + 1) &&&
          (ucharMax <<< (charBit - nBits + charBit - offset % charBit))]
        (2 * charBit) ((charBit : ℤ) - (offset % charBit : ℕ) - nBits) with
    | error e => rfl
    | ok shifted => rfl

/-! ### One byte and two bytes -/

theorem shiftBitArray_one (b : Uchar) {s : ℕ} (hs : s ≤ 8) :
    shiftBitArray [b] charBit (-s) = .ok [b <<< s] := by
  rcases Nat.eq_zero_or_pos s with rfl | hpos
  · rw [BitVec.shiftLeft_zero]
    rfl
  · have hc : charBit = 8 := rfl
    simp only [shiftBitArray, hc, Int.natAbs_neg, Int.natAbs_natCast]
    rw [if_neg (by omega), if_neg (by omega), if_neg (by simp), if_neg (by omega)]
    simp [shiftLeftFrom]

/-- The first byte of two, after a shift to the left. -/
theorem shiftBitArray_two (b b' : Uchar) {s : ℕ} (hs : s ≤ 8) (hpos : 0 < s) :
    ∃ c, shiftBitArray [b, b'] (2 * charBit) (-s) =
      .ok [((b' &&& (ucharMax <<< (8 - s))) >>> (8 - s)) ||| (b <<< s), c] := by
  have hc : charBit = 8 := rfl
  simp only [shiftBitArray, hc, Int.natAbs_neg, Int.natAbs_natCast]
  rw [if_neg (by omega), if_neg (by omega), if_neg (by simp), if_neg (by omega)]
  exact ⟨_, rfl⟩

theorem getLsbD_maskOf (mask : Uchar) {n : ℕ} (hn : n ≤ 8) (j : ℕ) :
    (mask &&& (ucharMax >>> (8 - n))).getLsbD j = (decide (j < n) && mask.getLsbD j) := by
  rw [BitVec.getLsbD_and, BitVec.getLsbD_ushiftRight, getLsbD_ucharMax, Bool.and_comm]
  congr 1
  exact decide_eq_decide.mpr (by omega)

/-- Bytes are equal if their bits are. -/
theorem byte_eq_iff {b c : Uchar} : (b == c) = true ↔ ∀ j < 8, b.getLsbD j = c.getLsbD j := by
  rw [beq_iff_eq]
  exact ⟨fun h j _ => h ▸ rfl, BitVec.eq_of_getLsbD_eq⟩

/-- The bits of a byte that lie in a range. -/
theorem getLsbD_within (b : Uchar) (bo n : ℕ) {j : ℕ} (hj : j < 8) :
    (b &&& ((ucharMax <<< (8 - (n + bo))) &&& (ucharMax >>> bo))).getLsbD j =
      (decide (8 - (n + bo) ≤ j ∧ j < 8 - bo) && b.getLsbD j) := by
  rw [BitVec.getLsbD_and, BitVec.getLsbD_and, BitVec.getLsbD_shiftLeft,
    BitVec.getLsbD_ushiftRight, getLsbD_ucharMax, getLsbD_ucharMax, decide_eq_true hj,
    Bool.true_and, ← decide_not, ← Bool.decide_and, ← Bool.decide_and, Bool.and_comm]
  congr 1
  exact decide_eq_decide.mpr (by omega)

/-- The bits of a mask that was moved to a range. -/
theorem getLsbD_moved (mask : Uchar) {bo n j : ℕ} (h : bo + n ≤ 8) (hj : j < 8) :
    ((mask &&& (ucharMax >>> (8 - n))) <<< (8 - n - bo)).getLsbD j =
      (decide (8 - (n + bo) ≤ j ∧ j < 8 - bo) && mask.getLsbD (j - (8 - n - bo))) := by
  rw [BitVec.getLsbD_shiftLeft, getLsbD_maskOf mask (by omega), decide_eq_true hj, Bool.true_and,
    ← decide_not, ← Bool.and_assoc, ← Bool.decide_and]
  congr 1
  exact decide_eq_decide.mpr (by omega)

/-- A range within one byte. -/
theorem compare_one (b mask : Uchar) {bo n : ℕ} (h : bo + n ≤ 8) :
    ((b &&& ((ucharMax <<< (8 - (n + bo))) &&& (ucharMax >>> bo))) ==
        (mask &&& (ucharMax >>> (8 - n))) <<< (8 - n - bo)) = true ↔
      ∀ i < n, b.getLsbD (7 - (bo + i)) = mask.getLsbD (n - 1 - i) := by
  rw [byte_eq_iff]
  constructor
  · intro hall i hi
    have hj := hall (7 - (bo + i)) (by omega)
    rw [getLsbD_within b bo n (by omega), getLsbD_moved mask h (by omega), decide_eq_true (by omega),
      Bool.true_and, Bool.true_and] at hj
    rw [hj, show 7 - (bo + i) - (8 - n - bo) = n - 1 - i by omega]
  · intro hall j hj
    rw [getLsbD_within b bo n hj, getLsbD_moved mask h hj]
    by_cases hin : 8 - (n + bo) ≤ j ∧ j < 8 - bo
    · have hi := hall (7 - bo - j) (by omega)
      rw [show 7 - (bo + (7 - bo - j)) = j by omega,
        show n - 1 - (7 - bo - j) = j - (8 - n - bo) by omega] at hi
      rw [hi]
    · rw [decide_eq_false hin, Bool.false_and, Bool.false_and]

/-- The bits of a range that ends in the next byte, moved to the right end of a byte. -/
theorem getLsbD_joined (b b' : Uchar) {bo n j : ℕ} (h : 8 < bo + n) (hbo : bo < 8) (hn : n ≤ 8)
    (hj : j < 8) :
    ((((b' &&& (ucharMax <<< (8 - n + 8 - bo))) &&& (ucharMax <<< (8 - (bo + n - 8)))) >>>
        (8 - (bo + n - 8))) ||| ((b &&& (ucharMax >>> bo)) <<< (bo + n - 8))).getLsbD j =
      (decide (j < n) &&
        if bo + n - 8 ≤ j then b.getLsbD (j - (bo + n - 8)) else b'.getLsbD (16 - bo - n + j)) := by
  rw [BitVec.getLsbD_or, BitVec.getLsbD_ushiftRight, BitVec.getLsbD_and, BitVec.getLsbD_and,
    BitVec.getLsbD_shiftLeft, BitVec.getLsbD_shiftLeft, BitVec.getLsbD_shiftLeft,
    BitVec.getLsbD_and, BitVec.getLsbD_ushiftRight, getLsbD_ucharMax, getLsbD_ucharMax,
    getLsbD_ucharMax]
  by_cases hs : bo + n - 8 ≤ j
  · rw [if_pos hs, BitVec.getLsbD_of_ge b' _ (by omega)]
    simp only [Bool.false_and, Bool.false_or]
    rw [decide_eq_true hj, decide_eq_false (show ¬ j < bo + n - 8 by omega), Bool.not_false,
      Bool.true_and, Bool.true_and, Bool.and_comm]
    congr 1
    exact decide_eq_decide.mpr (by omega)
  · rw [if_neg hs, decide_eq_true (show j < bo + n - 8 by omega),
      decide_eq_true (show j < n by omega),
      decide_eq_true (show 8 - (bo + n - 8) + j < 8 by omega),
      decide_eq_false (show ¬ 8 - (bo + n - 8) + j < 8 - n + 8 - bo by omega),
      decide_eq_false (show ¬ 8 - (bo + n - 8) + j < 8 - (bo + n - 8) by omega),
      decide_eq_true (show 8 - (bo + n - 8) + j - (8 - n + 8 - bo) < 8 by omega),
      decide_eq_true (show 8 - (bo + n - 8) + j - (8 - (bo + n - 8)) < 8 by omega),
      show 8 - (bo + n - 8) + j = 16 - bo - n + j by omega]
    simp only [Bool.not_true, Bool.not_false, Bool.and_true, Bool.true_and, Bool.and_false,
      Bool.false_and, Bool.or_false]

/-- A range that ends in the next byte. -/
theorem compare_two (b b' mask : Uchar) {bo n : ℕ} (h : 8 < bo + n) (hbo : bo < 8) (hn : n ≤ 8) :
    ((((b' &&& (ucharMax <<< (8 - n + 8 - bo))) &&& (ucharMax <<< (8 - (bo + n - 8)))) >>>
          (8 - (bo + n - 8))) ||| ((b &&& (ucharMax >>> bo)) <<< (bo + n - 8)) ==
        mask &&& (ucharMax >>> (8 - n))) = true ↔
      ∀ i < n, (if bo + i < 8 then b.getLsbD (7 - (bo + i)) else b'.getLsbD (15 - (bo + i))) =
        mask.getLsbD (n - 1 - i) := by
  rw [byte_eq_iff]
  constructor
  · intro hall i hi
    have hj := hall (n - 1 - i) (by omega)
    rw [getLsbD_joined b b' h hbo hn (by omega), getLsbD_maskOf mask hn,
      decide_eq_true (show n - 1 - i < n by omega), Bool.true_and, Bool.true_and] at hj
    rw [← hj]
    by_cases hlt : bo + i < 8
    · rw [if_pos hlt, if_pos (by omega), show n - 1 - i - (bo + n - 8) = 7 - (bo + i) by omega]
    · rw [if_neg hlt, if_neg (by omega), show 16 - bo - n + (n - 1 - i) = 15 - (bo + i) by omega]
  · intro hall j hj
    rw [getLsbD_joined b b' h hbo hn hj, getLsbD_maskOf mask hn]
    by_cases hjn : j < n
    · have hi := hall (n - 1 - j) (by omega)
      rw [show n - 1 - (n - 1 - j) = j by omega] at hi
      rw [← hi]
      by_cases hlt : bo + (n - 1 - j) < 8
      · rw [if_pos hlt, if_pos (by omega), show 7 - (bo + (n - 1 - j)) = j - (bo + n - 8) by omega]
      · rw [if_neg hlt, if_neg (by omega), show 15 - (bo + (n - 1 - j)) = 16 - bo - n + j by omega]
    · rw [decide_eq_false hjn, Bool.false_and, Bool.false_and]

/-! ### The comparison of a range -/

/-- `compare_bits` returns whether the bits of the range are the last ones of the mask, and reads only
bytes that have one of them. -/
def ComparesBits (ar : List Uchar) (size : ℕ) (mask : Uchar) (offset nBits : ℕ) : Prop :=
  (∃ r, (compareBitsOf size mask offset nBits).run (ByteOp.onArray ar) () = .ok (r, ()) ∧
    (r = true ↔ ∀ i < nBits, bitAt ar (offset + i) = mask.getLsbD (nBits - 1 - i))) ∧
  ∀ k ∈ (compareBitsOf size mask offset nBits).trace ByteOp.index (ByteOp.onArray ar) (),
    ∃ i < nBits, k = (offset + i) / 8

variable {ar : List Uchar} {size offset nBits : ℕ}

theorem bitAt_getElem {k : ℕ} (hk : k < ar.length) {i : ℕ} (hi : i / 8 = k) {b : Uchar}
    (hb : ar[k]? = some b) : bitAt ar i = b.getLsbD (7 - i % 8) := by
  rw [List.getElem?_eq_getElem hk, Option.some.injEq] at hb
  rw [← getLsbD_getElem hk i hi, hb]

/-- What is run and read if the range lies in one byte. -/
theorem compareBitsOf_one (mask : Uchar) (h : offset + nBits ≤ size)
    (hb : offset % 8 + nBits ≤ 8) :
    compareBitsOf size mask offset nBits = Prog.perform (.read (offset / 8)) >>= fun b =>
      pure (b &&& ((ucharMax <<< (8 - (nBits + offset % 8))) &&& (ucharMax >>> (offset % 8))) ==
        (mask &&& (ucharMax >>> (8 - nBits))) <<< (8 - nBits - offset % 8)) := by
  have hc : charBit = 8 := rfl
  have hshift : -((8 : ℤ) - nBits) + (offset % 8 : ℕ) = -((8 - nBits - offset % 8 : ℕ) : ℤ) := by
    omega
  have hrun := shiftBitArray_one (mask &&& (ucharMax >>> (8 - nBits)))
    (show 8 - nBits - offset % 8 ≤ 8 by omega)
  rw [hc, ← hshift] at hrun
  rw [compareBitsOf, hc, if_neg (by omega)]
  dsimp only
  rw [if_pos (.inr hb)]
  push_cast at hrun ⊢
  rw [hrun]
  rfl

/-- What is run and read if the range ends in the next byte. -/
theorem compareBitsOf_two (mask : Uchar) (h : offset + nBits ≤ size) (hn : nBits ≤ 8)
    (hb : 8 < offset % 8 + nBits) :
    compareBitsOf size mask offset nBits = Prog.perform (.read (offset / 8)) >>= fun b =>
      Prog.perform (.read (offset / 8 + 1)) >>= fun b' =>
      pure ((((b' &&& (ucharMax <<< (8 - nBits + 8 - offset % 8))) &&&
        (ucharMax <<< (8 - (offset % 8 + nBits - 8)))) >>> (8 - (offset % 8 + nBits - 8))) |||
        ((b &&& (ucharMax >>> (offset % 8))) <<< (offset % 8 + nBits - 8)) ==
        mask &&& (ucharMax >>> (8 - nBits))) := by
  have hc : charBit = 8 := rfl
  have hshift : (8 : ℤ) - (offset % 8 : ℕ) - nBits = -((offset % 8 + nBits - 8 : ℕ) : ℤ) := by omega
  rw [compareBitsOf, hc, if_neg (by omega)]
  dsimp only
  rw [if_neg (by omega)]
  refine congrArg (Prog.perform _ >>= ·) (funext fun b => ?_)
  refine congrArg (Prog.perform _ >>= ·) (funext fun b' => ?_)
  obtain ⟨c, hrun⟩ := shiftBitArray_two (b &&& (ucharMax >>> (offset % 8)))
    (b' &&& (ucharMax <<< (8 - nBits + 8 - offset % 8)))
    (show offset % 8 + nBits - 8 ≤ 8 by omega) (by omega)
  rw [hc, ← hshift] at hrun
  push_cast at hrun ⊢
  rw [hrun]
  rfl

/-- **`compare_bits` compares a range that has a bit.**  If it has none, the byte at which it begins is
read all the same. -/
theorem comparesBits_iff (ar : List Uchar) (size : ℕ) (mask : Uchar) (offset nBits : ℕ)
    (hn : nBits ≤ 8) (h : offset + nBits ≤ size) (hsize : size ≤ 8 * ar.length) :
    ComparesBits ar size mask offset nBits ↔ 0 < nBits := by
  constructor
  · rintro ⟨-, hreads⟩
    by_contra h0
    obtain rfl : nBits = 0 := by omega
    rw [compareBitsOf_one mask h (by omega)] at hreads
    obtain ⟨i, hi, -⟩ := hreads (offset / 8) (Prog.mem_trace_perform_bind rfl _ ())
    exact Nat.not_lt_zero i hi
  · intro hpos
    have hk : offset / 8 < ar.length := by omega
    obtain ⟨b, hb⟩ : ∃ b, ar[offset / 8]? = some b := ⟨_, List.getElem?_eq_getElem hk⟩
    -- the bits lie in one byte of the array or in two
    by_cases hone : offset % 8 + nBits ≤ 8
    · rw [ComparesBits, compareBitsOf_one mask h hone]
      have hread := ByteOp.run_perform_read hb
      refine ⟨⟨_, ?_, (compare_one b mask hone).trans (forall₂_congr fun i hi => ?_)⟩, fun k hmem => ?_⟩
      · rw [Prog.run_bind_ok _ hread]
        rfl
      · rw [bitAt_getElem hk (by omega) hb, show (offset + i) % 8 = offset % 8 + i by omega]
      · rw [Prog.trace_bind_ok hread, Prog.trace_perform,
          Prog.trace_pure, List.append_nil] at hmem
        obtain rfl : k = offset / 8 := List.mem_singleton.mp hmem
        exact ⟨0, hpos, rfl⟩
    · rw [ComparesBits, compareBitsOf_two mask h hn (by omega)]
      have hk' : offset / 8 + 1 < ar.length := by omega
      obtain ⟨b', hb'⟩ : ∃ b', ar[offset / 8 + 1]? = some b' := ⟨_, List.getElem?_eq_getElem hk'⟩
      have hread := ByteOp.run_perform_read hb
      have hread' := ByteOp.run_perform_read hb'
      have hcompare := compare_two b b' mask (show 8 < offset % 8 + nBits by omega)
        (Nat.mod_lt _ (by decide)) hn
      refine ⟨⟨_, ?_, hcompare.trans (forall₂_congr fun i hi => ?_)⟩, fun k hmem => ?_⟩
      · rw [Prog.run_bind_ok _ hread,
          Prog.run_bind_ok _ hread']
        rfl
      · by_cases hlt : offset % 8 + i < 8
        · rw [if_pos hlt, bitAt_getElem hk (show (offset + i) / 8 = offset / 8 by omega) hb,
            show (offset + i) % 8 = offset % 8 + i by omega]
        · rw [if_neg hlt, bitAt_getElem hk' (show (offset + i) / 8 = offset / 8 + 1 by omega) hb',
            show 7 - (offset + i) % 8 = 15 - (offset % 8 + i) by omega]
      · rw [Prog.trace_bind_ok hread,
          Prog.trace_bind_ok hread', Prog.trace_perform,
          Prog.trace_perform, Prog.trace_pure, List.append_nil] at hmem
        rcases List.mem_append.mp hmem with hmem | hmem
        · obtain rfl : k = offset / 8 := List.mem_singleton.mp hmem
          exact ⟨0, hpos, rfl⟩
        · obtain rfl : k = offset / 8 + 1 := List.mem_singleton.mp hmem
          exact ⟨nBits - 1, by omega, by omega⟩

/-- Six bits that end in the second byte. -/
theorem comparesBits_iff_six :
    ComparesBits [0x0F#8, 0xC0#8] 16 0x3F#8 4 6 ↔ 0 < 6 :=
  comparesBits_iff [0x0F#8, 0xC0#8] 16 0x3F#8 4 6 (by decide) (by decide) (by decide)

/-- An empty range at the end of an array of one byte: the byte behind it is read. -/
theorem not_comparesBits_empty : ¬ ∀ (ar : List Uchar) (size : ℕ) (mask : Uchar) (offset nBits : ℕ),
    nBits ≤ 8 → offset + nBits ≤ size → size ≤ 8 * ar.length →
      ComparesBits ar size mask offset nBits := by
  intro hall
  obtain ⟨⟨r, hr, -⟩, -⟩ := hall [0#8] 8 0#8 8 0 (by decide) (by decide) (by decide)
  exact nomatch hr

end Goedb
