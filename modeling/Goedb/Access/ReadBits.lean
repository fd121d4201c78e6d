import Goedb.Access.WriteBits

/-!
# Access — which bits `read_bits` returns

A read is to return the bits of the range, right-aligned in as few bytes as hold them (`BitsRead`).

The bytes are shifted as they are copied, but not the first one, where the result is as long as the
bytes it comes from: such a read is right when the range ends with a byte, or begins with zeros
(`bitsRead_iff_onPage`).  Over a page boundary the two halves, each in whole bytes, are put one
behind the other: that is right when the range ends with a byte, or the first half is zero and the
lengths agree (`bitsRead_iff_halves`).
-/

namespace Goedb

open Lib

variable {P : ℕ} {db : PhyDatabase} {k : PageKey} {off b n : ℕ} {byteOffset : Ushort}

/-- The bytes hold the bits of the range behind zeros, and no byte is too many. -/
def BitsRead (P : ℕ) (db : PhyDatabase) (k : PageKey) (off b n : ℕ) (r : List Uchar) : Prop :=
  r.length = (n + 7) / 8 ∧ ∀ i < 8 * ((n + 7) / 8), bitAt r i =
    (decide (8 * ((n + 7) / 8) - n ≤ i) &&
      db.bitOf P k.fk k.ft (k.firstBit P + (8 * off + b) + (i - (8 * ((n + 7) / 8) - n))))

/-- A read that stays on its page. -/
theorem run_readBitsOnPage (db : PhyDatabase) (k : PageKey) (off b n : ℕ) (hP : 0 < P) (hb : b < 8)
    (hn : 0 < n) (hfits : 8 * off + b + n ≤ 8 * P) :
    ∃ r, (readBitsOnPage k off b n).run (PhyDatabase.flat P) db = .ok (r, db) ∧
      r.length = (n + 7) / 8 ∧
      ∀ i < 8 * ((n + 7) / 8), bitAt r i =
        if i < 8 ∧ (b + n + 7) / 8 = (n + 7) / 8 then
          decide (b ≤ i) && db.bitOf P k.fk k.ft (k.firstBit P + 8 * off + i)
        else decide (8 * ((n + 7) / 8) - n ≤ i) &&
          db.bitOf P k.fk k.ft (k.firstBit P + (8 * off + b) + (i - (8 * ((n + 7) / 8) - n))) := by
  obtain ⟨r, hr, hlen, hbits⟩ :=
    bytesRead_ok hb hn ((db.file k.fk k.ft).page k.pageNo) off
  refine ⟨r, ?_, hlen, fun i hi => ?_⟩
  · have hlift : (PageOp.lift (bytesRead ((db.file k.fk k.ft).page k.pageNo) off b n)).run
        (PhyDatabase.flat P) db = .ok (r, db) := by
      rw [hr]
      rfl
    exact (Prog.run_bind_ok _ (Prog.run_perform _ _ _) _).trans hlift
  · rw [hbits i hi]
    split
    · rw [PhyDatabase.bitOf_page hP (by omega),
        show k.firstBit P + 8 * off + i - k.firstBit P = 8 * off + i by omega]
    · rw [PhyDatabase.bitOf_page hP (by omega),
        show k.firstBit P + (8 * off + b) + (i - (8 * ((n + 7) / 8) - n)) - k.firstBit P =
          8 * off + b + (i - (8 * ((n + 7) / 8) - n)) by omega]

/-- Where the first bytes are `s` bits short of their place and the others are right, the read is
right when the bits of the first ones are zeros. -/
theorem bitsRead_iff_zeros {r : List Uchar} {hi s : ℕ} (hs : 0 < s)
    (he : 8 * ((n + 7) / 8) - n = b + s) (hhi : b + s ≤ hi) (hhi' : hi ≤ 8 * ((n + 7) / 8))
    (hlen : r.length = (n + 7) / 8)
    (h : ∀ i < 8 * ((n + 7) / 8), bitAt r i =
      if i < hi then decide (b ≤ i) && db.bitOf P k.fk k.ft (k.firstBit P + 8 * off + i)
      else db.bitOf P k.fk k.ft (k.firstBit P + 8 * off + (i - s))) :
    BitsRead P db k off b n r ↔
      ∀ i, b ≤ i → i < hi → db.bitOf P k.fk k.ft (k.firstBit P + 8 * off + i) = false := by
  rw [← eq_shift_iff (f := fun i => db.bitOf P k.fk k.ft (k.firstBit P + 8 * off + i)) hs, BitsRead,
    he]
  have hspec : ∀ i, (decide (b + s ≤ i) && db.bitOf P k.fk k.ft
      (k.firstBit P + (8 * off + b) + (i - (b + s)))) = (decide (b + s ≤ i) &&
        db.bitOf P k.fk k.ft (k.firstBit P + 8 * off + (i - s))) := fun i => by
    by_cases hi : b + s ≤ i
    · rw [show k.firstBit P + (8 * off + b) + (i - (b + s)) =
        k.firstBit P + 8 * off + (i - s) by omega]
    · rw [decide_eq_false hi, Bool.false_and, Bool.false_and]
  constructor
  · rintro ⟨-, hread⟩ i hlo hi
    have e := hread i (by omega)
    rwa [h i (by omega), if_pos hi, decide_eq_true hlo, Bool.true_and, hspec] at e
  · intro hzero
    refine ⟨hlen, fun i hi => ?_⟩
    rw [h i hi, hspec]
    split
    · by_cases hlo : b ≤ i
      · rw [decide_eq_true hlo, Bool.true_and, hzero i hlo (by omega)]
      · rw [decide_eq_false hlo, decide_eq_false (by omega), Bool.false_and, Bool.false_and]
    · rw [decide_eq_true (by omega), Bool.true_and]

/-- The read of one page is right when its first byte needs no shift, or holds nothing. -/
theorem bitsRead_iff_onPage {r : List Uchar} (hlen : r.length = (n + 7) / 8)
    (h : ∀ i < 8 * ((n + 7) / 8), bitAt r i =
      if i < 8 ∧ (b + n + 7) / 8 = (n + 7) / 8 then
        decide (b ≤ i) && db.bitOf P k.fk k.ft (k.firstBit P + 8 * off + i)
      else decide (8 * ((n + 7) / 8) - n ≤ i) &&
        db.bitOf P k.fk k.ft (k.firstBit P + (8 * off + b) + (i - (8 * ((n + 7) / 8) - n)))) :
    BitsRead P db k off b n r ↔
      (n + 7) / 8 < (b + n + 7) / 8 ∨ (b + n) % 8 = 0 ∨
        ∀ i, b ≤ i → i < 8 → db.bitOf P k.fk k.ft (k.firstBit P + 8 * off + i) = false := by
  set m := (n + 7) / 8 with hm
  by_cases hlong : m < (b + n + 7) / 8
  · refine iff_of_true ⟨hlen, fun i hi => ?_⟩ (.inl hlong)
    rw [h i hi, if_neg (by omega)]
  by_cases hend : (b + n) % 8 = 0
  · refine iff_of_true ⟨hlen, fun i hi => ?_⟩ (.inr (.inl hend))
    rw [h i hi]
    split
    · by_cases hib : b ≤ i
      · rw [decide_eq_true hib, decide_eq_true (by omega),
          show k.firstBit P + 8 * off + i = k.firstBit P + (8 * off + b) + (i - (8 * m - n)) by omega]
      · rw [decide_eq_false hib, decide_eq_false (by omega), Bool.false_and, Bool.false_and]
    · rfl
  rw [or_iff_right hlong, or_iff_right hend]
  refine bitsRead_iff_zeros (s := 8 * m - n - b) (by omega) (by omega) (by omega) (by omega) hlen
    fun i hi => ?_
  rw [h i hi]
  by_cases h8 : i < 8
  · rw [if_pos ⟨h8, by omega⟩, if_pos h8]
  · rw [if_neg (by omega), if_neg h8, decide_eq_true (by omega), Bool.true_and,
      show k.firstBit P + (8 * off + b) + (i - (8 * m - n)) =
        k.firstBit P + 8 * off + (i - (8 * m - n - b)) by omega]

/-! ### A range that goes on at the next page -/

/-- Two arrays of whole bytes are put one behind the other. -/
theorem concatBitArrays_bytes {first second : List Uchar} (h₁ : first.length * 8 < 2 ^ 63)
    (h₂ : second.length * 8 < 2 ^ 63) :
    concatBitArrays first second (first.length * 8) (second.length * 8) =
      .ok (first ++ second) := by
  have hc : charBit = 8 := rfl
  have hsize : (first.length * 8 + second.length * 8 + 7) / 8 = first.length + second.length := by
    omega
  have hfirst : (first.length * 8 + 7) / 8 = first.length := by omega
  have hshift : ((first.length + second.length) * 8 : ℕ) - ((first.length * 8 : ℕ) : ℤ) -
      (second.length * 8 : ℕ) = 0 := by push_cast; ring
  simp only [concatBitArrays, bytes_eq, hsize, hfirst]
  simp only [hc, hshift]
  rw [if_neg (by omega), if_neg (by omega), Nat.add_sub_cancel_left, List.take_length]
  simp only [shiftBitArray]
  rw [if_neg (by simp), if_pos trivial]
  simp

theorem run_readBits_fits {fuel : ℕ} (hoff : byteOffset.toNat < P) (hb : b < 8) (hnP : n < P * 8)
    (hfits : 8 * byteOffset.toNat + b + n ≤ 8 * P) :
    (readBits P (fuel + 1) k byteOffset b n).run (PhyDatabase.flat P) db =
      (readBitsOnPage k byteOffset.toNat b n).run (PhyDatabase.flat P) db := by
  have hc : charBit = 8 := rfl
  rw [readBits, hc, if_neg (by omega), ← hc]
  simp only [bytes_eq]
  rw [if_neg (by omega)]

/-- The second half, which begins with its page. -/
theorem run_readBits_start {fuel : ℕ} (hP : 0 < P) (hnP : n < P * 8) :
    (readBits P (fuel + 1) k 0#16 0 n).run (PhyDatabase.flat P) db =
      (readBitsOnPage k 0 0 n).run (PhyDatabase.flat P) db :=
  run_readBits_fits hP (by decide) hnP (by rw [show (0#16 : Ushort).toNat = 0 from rfl]; omega)

/-- The bytes of both pages, with the bits they hold: of the second page, the first byte is the one
that is not shifted. -/
theorem run_readBits_cross (fuel : ℕ) (hoff : byteOffset.toNat < P) (hb : b < 8) (hnP : n < P * 8)
    (hcross : 8 * P < 8 * byteOffset.toNat + b + n) (hnext : db.Pinnable P k.next) :
    ∃ first second : List Uchar, first.length = P - byteOffset.toNat ∧
      second.length = (n - bitsHere P byteOffset.toNat b + 7) / 8 ∧
      (readBits P (fuel + 2) k byteOffset b n).run (PhyDatabase.flat P) db =
        (PageOp.lift (concatBitArrays first second (first.length * 8) (second.length * 8))).run
          (PhyDatabase.flat P) db ∧
      ∀ i < 8 * (first.length + second.length), bitAt (first ++ second) i =
        if i < 8 * (P - byteOffset.toNat) + 8 then
          decide (b ≤ i) && db.bitOf P k.fk k.ft (k.firstBit P + 8 * byteOffset.toNat + i)
        else db.bitOf P k.fk k.ft (k.firstBit P + 8 * byteOffset.toNat +
          (i - (8 * second.length - (n - bitsHere P byteOffset.toNat b)))) := by
  have hP : 0 < P := by omega
  have hc : charBit = 8 := rfl
  have hfirstBit : k.next.firstBit P = k.firstBit P + 8 * P := PageKey.firstBit_next
  have hhere : bitsHere P byteOffset.toNat b = (P - byteOffset.toNat) * 8 - b := rfl
  set here := bitsHere P byteOffset.toNat b
  -- the next page is read first; both parts are padded to whole bytes
  obtain ⟨second, hsecond, hlen₂, hbits₂⟩ := run_readBitsOnPage db k.next 0 0 (n - here) hP
    (by decide) (by omega) (by omega)
  obtain ⟨first, hfirst, hlen₁, hbits₁⟩ := run_readBitsOnPage db k byteOffset.toNat b here hP hb
    (by omega) (by omega)
  have hread₁ : BitsRead P db k byteOffset.toNat b here first :=
    (bitsRead_iff_onPage hlen₁ hbits₁).mpr (.inr (.inl (by omega)))
  have hlen : (here + 7) / 8 = P - byteOffset.toNat := by omega
  have hunpin : PhyDatabase.flat P _ (.unpinPage k.next) db = .ok ((), db) := by
    simp only [PhyDatabase.flat]
    rw [hnext.checkBounds]
    rfl
  refine ⟨first, second, by omega, hlen₂, ?_, fun i hi => ?_⟩
  · rw [readBits, hc, if_neg (by omega), ← hc]
    simp only [bytes_eq]
    rw [if_pos (by omega)]
    refine (Prog.run_bind_ok _ ((Prog.run_perform _ _ _).trans hnext) _).trans ?_
    refine (Prog.run_bind_ok _ ((run_readBits_start hP (by omega)).trans hsecond) _).trans ?_
    refine (Prog.run_bind_ok _ ((Prog.run_perform _ _ _).trans hunpin) _).trans ?_
    refine (Prog.run_bind_ok _ hfirst _).trans ?_
    rw [hlen₁, hlen₂]
    rfl
  · rw [bitAt_append, hlen₁, hlen]
    by_cases h₁ : i < 8 * (P - byteOffset.toNat)
    · rw [if_pos h₁, if_pos (by omega), hread₁.2 i (by omega), hlen]
      by_cases hib : b ≤ i
      · rw [decide_eq_true hib, decide_eq_true (by omega),
          show k.firstBit P + (8 * byteOffset.toNat + b) + (i - (8 * (P - byteOffset.toNat) - here)) =
            k.firstBit P + 8 * byteOffset.toNat + i by omega]
      · rw [decide_eq_false hib, decide_eq_false (by omega), Bool.false_and, Bool.false_and]
    · rw [if_neg h₁, hbits₂ _ (by omega), hfirstBit, ← hlen₂]
      by_cases h₂ : i < 8 * (P - byteOffset.toNat) + 8
      · rw [if_pos (by omega), if_pos h₂, decide_eq_true (by omega), decide_eq_true (by omega),
          show k.firstBit P + 8 * P + 8 * 0 + (i - 8 * (P - byteOffset.toNat)) =
            k.firstBit P + 8 * byteOffset.toNat + i by omega]
        rfl
      · rw [if_neg (by omega), if_neg h₂, decide_eq_true (by omega), Bool.true_and,
          show k.firstBit P + 8 * P + (8 * 0 + 0) +
              (i - 8 * (P - byteOffset.toNat) - (8 * second.length - (n - here))) =
            k.firstBit P + 8 * byteOffset.toNat + (i - (8 * second.length - (n - here))) by omega]
        rfl

/-- The read of two pages is right when its range ends with a byte, or when it begins with zeros up
to the second byte of the second page and the bytes of the halves are as many as those of the
whole. -/
theorem bitsRead_iff_halves {r : List Uchar} (hb : b < 8) (hoff : off < P)
    (hcross : 8 * P < 8 * off + b + n)
    (hlen : r.length = P - off + (n - bitsHere P off b + 7) / 8)
    (h : ∀ i < 8 * r.length, bitAt r i =
      if i < 8 * (P - off) + 8 then
        decide (b ≤ i) && db.bitOf P k.fk k.ft (k.firstBit P + 8 * off + i)
      else db.bitOf P k.fk k.ft (k.firstBit P + 8 * off +
        (i - (8 * ((n - bitsHere P off b + 7) / 8) - (n - bitsHere P off b))))) :
    BitsRead P db k off b n r ↔ (b + n) % 8 = 0 ∨ b < (b + n) % 8 ∧
      ∀ i, b ≤ i → i < 8 * (P - off) + 8 →
        db.bitOf P k.fk k.ft (k.firstBit P + 8 * off + i) = false := by
  have hhere : bitsHere P off b = (P - off) * 8 - b := rfl
  set here := bitsHere P off b
  by_cases hend : (b + n) % 8 = 0
  · refine iff_of_true ⟨by omega, fun i hi => ?_⟩ (.inl hend)
    rw [h i (by omega)]
    split
    · by_cases hib : b ≤ i
      · rw [decide_eq_true hib, decide_eq_true (by omega), show k.firstBit P + 8 * off + i =
          k.firstBit P + (8 * off + b) + (i - (8 * ((n + 7) / 8) - n)) by omega]
      · rw [decide_eq_false hib, decide_eq_false (by omega), Bool.false_and, Bool.false_and]
    · rw [decide_eq_true (by omega), Bool.true_and, show k.firstBit P + 8 * off +
        (i - (8 * ((n - here + 7) / 8) - (n - here))) =
          k.firstBit P + (8 * off + b) + (i - (8 * ((n + 7) / 8) - n)) by omega]
  rw [or_iff_right hend]
  by_cases hshort : b < (b + n) % 8
  · rw [and_iff_right hshort]
    refine bitsRead_iff_zeros (s := 8 * ((n - here + 7) / 8) - (n - here)) (by omega) (by omega)
      (by omega) (by omega) (by omega) fun i hi => h i (by omega)
  · refine iff_of_false (fun hread => ?_) fun hz => hshort hz.1
    have := hread.1
    omega

/-! ### When the right bits are read -/

/-- The range ends with a byte, or what comes before the second byte is zero: on one page this
concerns the first byte, and a result that is shorter than the bytes it comes from is right as it
is; on two pages, the first page and the first byte of the second. -/
def ReadsWell (P : ℕ) (db : PhyDatabase) (k : PageKey) (off b n : ℕ) : Prop :=
  if 8 * off + b + n ≤ 8 * P then
    (n + 7) / 8 < (b + n + 7) / 8 ∨ (b + n) % 8 = 0 ∨
      ∀ i, b ≤ i → i < 8 → db.bitOf P k.fk k.ft (k.firstBit P + 8 * off + i) = false
  else
    -- `concat_bit_arrays` takes at most `LONG_MAX` bits of each half
    (P - off) * 8 < 2 ^ 63 ∧ (n - bitsHere P off b + 7) / 8 * 8 < 2 ^ 63 ∧
      ((b + n) % 8 = 0 ∨ b < (b + n) % 8 ∧ ∀ i, b ≤ i → i < 8 * (P - off) + 8 →
        db.bitOf P k.fk k.ft (k.firstBit P + 8 * off + i) = false)

/-- `read_bits` returns the bits of the range, right-aligned, exactly when no byte had to be shifted
that is not. -/
theorem readBits_read_iff {fuel : ℕ} (hoff : byteOffset.toNat < P) (hb : b < 8) (hn : 0 < n)
    (hnP : n < P * 8) (hnext : 8 * P < 8 * byteOffset.toNat + b + n → db.Pinnable P k.next) :
    (∃ r, (readBits P (fuel + 2) k byteOffset b n).run (PhyDatabase.flat P) db = .ok (r, db) ∧
        BitsRead P db k byteOffset.toNat b n r) ↔ ReadsWell P db k byteOffset.toNat b n := by
  have hP : 0 < P := by omega
  rw [ReadsWell]
  by_cases hfits : 8 * byteOffset.toNat + b + n ≤ 8 * P
  · rw [if_pos hfits]
    obtain ⟨r, hrun, hlen, hbits⟩ := run_readBitsOnPage db k byteOffset.toNat b n hP hb hn hfits
    rw [run_readBits_fits hoff hb hnP hfits, hrun, ← bitsRead_iff_onPage hlen hbits]
    constructor
    · rintro ⟨r', e, hr⟩
      cases e
      exact hr
    · exact fun hr => ⟨r, rfl, hr⟩
  · rw [if_neg hfits]
    obtain ⟨first, second, hlen₁, hlen₂, hrun, hbits⟩ :=
      run_readBits_cross fuel hoff hb hnP (by omega) (hnext (by omega))
    rw [hlen₂] at hbits
    have hread := bitsRead_iff_halves hb hoff (by omega)
      (show (first ++ second).length = _ by rw [List.length_append, hlen₁, hlen₂])
      (fun i hi => hbits i (by rwa [List.length_append, hlen₂] at hi))
    rw [hrun, ← hread, ← hlen₁, ← hlen₂]
    by_cases hlong : first.length * 8 < 2 ^ 63 ∧ second.length * 8 < 2 ^ 63
    · rw [and_iff_right hlong.1, and_iff_right hlong.2, concatBitArrays_bytes hlong.1 hlong.2]
      constructor
      · rintro ⟨r, e, hr⟩
        cases e
        exact hr
      · exact fun hr => ⟨_, rfl, hr⟩
    · refine iff_of_false ?_ fun h => hlong ⟨h.1, h.2.1⟩
      rintro ⟨r, e, -⟩
      rw [concatBitArrays, if_pos (by omega)] at e
      cases e

theorem readBits_read_iff_crossing :
    ∃ r, (readBits 4096 2 ⟨.header, .node, 0⟩ 4095 2 14).run (PhyDatabase.flat 4096) (setPages 2) =
        .ok (r, setPages 2) ∧ BitsRead 4096 (setPages 2) ⟨.header, .node, 0⟩ 4095 2 14 r :=
  (readBits_read_iff (by decide) (by decide) (by decide) (by decide) (by intro _; rfl)).mpr (by
    rw [ReadsWell, if_neg (by decide)]
    exact ⟨by decide, by decide, .inl (by decide)⟩)

/-- The first six bits of a page, all set, are returned as its first byte. -/
theorem readBits_first_byte :
    ¬ ∃ r, (readBits 4096 2 ⟨.header, .node, 0⟩ 0 0 6).run (PhyDatabase.flat 4096) (setPages 1) =
        .ok (r, setPages 1) ∧ BitsRead 4096 (setPages 1) ⟨.header, .node, 0⟩ 0 0 6 r := by
  rintro ⟨r, hrun, -, hbits⟩
  cases hrun
  exact absurd (hbits 0 (by decide)) (by decide)

end Goedb
