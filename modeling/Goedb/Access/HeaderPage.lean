import Goedb.Cache.Pages

/-!
# Access — bits of header pages

`header_page.c`: the bits of a page are numbered from the most significant bit of its first byte.
`compareBits` tests a few of them against a mask; `writeBits` overwrites a range of them and
`readBits` copies one out, both going on at the next page where the range leaves the page.

A C array of bytes is a list; an access beyond its end is `Fault.undefined`.

The records of the heap file take one bit or four.  For those, `compareBits_ones` says when the
bits are found set, and `run_writeBits` which bits of which pages a write changes.
-/

namespace Goedb

open Lib

/-- `UCHAR_MAX`. -/
def ucharMax : Uchar := 0xFF#8

/-- The loop of `shift_bit_array` to the right, from the first byte on. -/
def shiftRightFrom (k : ℕ) : Uchar → List Uchar → List Uchar
  | _, [] => []
  | carry, b :: bs =>
      ((carry <<< (charBit - k)) ||| (b >>> k)) ::
        shiftRightFrom k (b &&& (ucharMax >>> (charBit - k))) bs

/-- The loop of `shift_bit_array` to the left, from the last byte on, with the carry it ends with. -/
def shiftLeftFrom (k : ℕ) : List Uchar → List Uchar × Uchar
  | [] => ([], 0#8)
  | b :: bs =>
      let (shifted, carry) := shiftLeftFrom k bs
      (((carry >>> (charBit - k)) ||| (b <<< k)) :: shifted, b &&& (ucharMax <<< (charBit - k)))

/-- `shift_bit_array`: to the left for a negative number of bits, to the right for a positive. -/
def shiftBitArray (ar : List Uchar) (size : ℕ) (nBits : ℤ) : Except Fault (List Uchar) :=
  let nBytes := size / charBit + if size % charBit ≠ 0 then 1 else 0
  if nBits.natAbs % 2 ^ 32 > size ∨ nBits.natAbs > charBit then
    .error (.exit "page - shift bit array: Invalid Arguments!")
  else if nBits = 0 then .ok ar
  else if ar.length < nBytes then .error .undefined
  else if 0 < nBits then
    .ok (shiftRightFrom nBits.natAbs 0#8 (ar.take nBytes) ++ ar.drop nBytes)
  else .ok ((shiftLeftFrom nBits.natAbs (ar.take nBytes)).1 ++ ar.drop nBytes)

/-- `compare_bits`. -/
def compareBits (ar : PageData) (size : ℕ) (mask : Uchar) (offset nBits : ℕ) :
    Except Fault Bool := do
  if size < offset + nBits ∨ charBit < nBits then
    .error (.exit "header page - compare bits: Invalid Arguments!")
  else
    let startByte := offset / charBit
    let bitOffset := offset % charBit
    let mask := mask &&& (ucharMax >>> (charBit - nBits))
    if bitOffset = 0 ∨ bitOffset + nBits ≤ charBit then
      let shifted ← shiftBitArray [mask] charBit (-((charBit : ℤ) - nBits) + bitOffset)
      let dataMask := (ucharMax <<< (charBit - (nBits + bitOffset))) &&& (ucharMax >>> bitOffset)
      return (ar startByte &&& dataMask) == shifted.headD 0#8
    else
      let upperMask := ucharMax >>> bitOffset
      let lowerMask := ucharMax <<< (charBit - nBits + charBit - bitOffset)
      let shifted ← shiftBitArray [ar startByte &&& upperMask, ar (startByte + 1) &&& lowerMask]
        (2 * charBit) ((charBit : ℤ) - bitOffset - nBits)
      return shifted.headD 0#8 == mask

/-- `split_bit_array`. -/
def splitBitArray (ar : List Uchar) (size splitAtBit : ℕ) :
    Except Fault (List Uchar × List Uchar) := do
  let partialByte := if splitAtBit % charBit ≠ 0 then 1 else 0
  if size < splitAtBit / charBit + partialByte then
    .error (.exit "page - split bit array: Invalid Arguments!")
  else
    let firstSize := splitAtBit / charBit + partialByte
    let secondSize := (size / charBit + 2 ^ 64 - firstSize + partialByte) % 2 ^ 64
    match (ar.drop (splitAtBit / charBit)).take secondSize with
    | [] => .error .undefined
    | b :: bs =>
        if bs.length + 1 < secondSize then .error .undefined
        else
          let second := (b &&& (ucharMax >>> (splitAtBit % charBit))) :: bs
          let ar ← shiftBitArray ar size (splitAtBit % charBit : ℕ)
          return (ar.take firstSize, second)

/-- A run of the code stops. -/
def PageOp.abort {α : Type} (f : Fault) : Prog PageOp α :=
  Prog.call (.stop f) Empty.elim

/-- A computation of the code that may stop the run. -/
def PageOp.lift {α : Type} : Except Fault α → Prog PageOp α
  | .ok a => pure a
  | .error f => PageOp.abort f

/-- The mask of `write_bits` that keeps what the page holds outside of the range. -/
def keepMask (bitOffset nBits nBytesWrite : ℕ) : List Uchar :=
  let mask := List.replicate nBytesWrite 0#8
  let mask := mask.modify 0 (· ||| (ucharMax <<< (charBit - bitOffset)))
  if (nBits + bitOffset) % charBit ≠ 0 then
    mask.modify (nBytesWrite - 1) (· ||| (ucharMax >>> (nBits % charBit + bitOffset)))
  else mask

/-- The bytes of the page with the masked data written over them, from `off` on. -/
def overwrite (page : PageData) (off : ℕ) : List Uchar → List Uchar → PageData
  | m :: ms, d :: ds =>
      overwrite (Function.update page off ((page off &&& m) ||| d)) (off + 1) ms ds
  | _, _ => page

/-- The mask and the shifted data of `write_bits`, for the bytes of one page. -/
def bytesToWrite (bitOffset nBits : ℕ) (data : List Uchar) :
    Except Fault (List Uchar × List Uchar) := do
  let nBytesWrite := (bitOffset + nBits) / charBit +
    if (bitOffset + nBits) % charBit ≠ 0 then 1 else 0
  let nBytesData := nBits / charBit + if nBits % charBit ≠ 0 then 1 else 0
  if data.length < nBytesData then .error .undefined
  else
    let data := data.modify 0 (· &&& (ucharMax >>> (nBytesData * charBit - nBits)))
    let shiftedData :=
      if nBytesData < nBytesWrite then
        data.take nBytesData ++ List.replicate (nBytesWrite - nBytesData) 0#8
      else data
    let shiftedData ← shiftBitArray shiftedData (nBytesWrite * charBit)
      (-((nBytesData * charBit : ℕ) - (nBits : ℤ)) + bitOffset)
    return (keepMask bitOffset nBits nBytesWrite, shiftedData)

/-- The part of `write_bits` that stays on its page. -/
def writeBitsOnPage (k : PageKey) (byteOffset bitOffset nBits : ℕ) (data : List Uchar) :
    Prog PageOp Unit := do
  let (mask, shiftedData) ← PageOp.lift (bytesToWrite bitOffset nBits data)
  let page ← Prog.perform (.getData k)
  Prog.perform (.putData k (overwrite page byteOffset mask shiftedData))

/-- `write_bits`.  Each page takes at least one bit of the range, which bounds the recursion. -/
def writeBits (P : ℕ) : (fuel : ℕ) → (k : PageKey) → (byteOffset : Ushort) →
    (bitOffset nBits : ℕ) → (data : List Uchar) → Prog PageOp Unit
  | 0, _, _, _, _, _ => PageOp.abort .diverge
  | fuel + 1, k, byteOffset, bitOffset, nBits, data => do
      if charBit - 1 < bitOffset ∨ P - 1 < byteOffset.toNat ∨ P * charBit - 1 < nBits ∨
          nBits < 1 then
        PageOp.abort (.exit "header page - write bits: Invalid Arguments!")
      else
        let nBytesWrite := (bitOffset + nBits) / charBit +
          if (bitOffset + nBits) % charBit ≠ 0 then 1 else 0
        let nBytesData := nBits / charBit + if nBits % charBit ≠ 0 then 1 else 0
        if P < byteOffset.toNat + nBytesWrite then
          let bitsToPageBoundary := (P - byteOffset.toNat) * charBit - bitOffset
          let nBitsSplitWrite := nBits - bitsToPageBoundary
          let (first, second) ← PageOp.lift <|
            splitBitArray data (nBytesData * charBit) nBitsSplitWrite
          let next : PageKey := { k with pageNo := k.pageNo + 1 }
          Prog.perform (.pinPage next)
          writeBits P fuel next 0#16 0 nBitsSplitWrite second
          Prog.perform (.unpinPage next)
          writeBitsOnPage k byteOffset.toNat bitOffset bitsToPageBoundary first
        else writeBitsOnPage k byteOffset.toNat bitOffset nBits data

/-- `concat_bit_arrays`. -/
def concatBitArrays (first second : List Uchar) (nBitsFst nBitsSnd : ℕ) :
    Except Fault (List Uchar) := do
  if 2 ^ 63 - 1 < nBitsFst ∨ 2 ^ 63 - 1 < nBitsSnd then
    .error (.exit "page - concat bit arrays: Invalid Arguemnts!")
  else
    let resultSize := (nBitsFst + nBitsSnd) / charBit +
      if (nBitsFst + nBitsSnd) % charBit ≠ 0 then 1 else 0
    let firstSize := nBitsFst / charBit + if nBitsFst % charBit ≠ 0 then 1 else 0
    if first.length < firstSize ∨ second.length < resultSize - firstSize then .error .undefined
    else
      let first := first.take firstSize ++ List.replicate (resultSize - firstSize) 0#8
      let first ← shiftBitArray first nBitsFst
        ((resultSize * charBit : ℕ) - (nBitsFst : ℤ) - nBitsSnd)
      if nBitsFst % charBit ≠ 0 then
        match second with
        | [] => .error .undefined
        | b :: _ =>
            -- a shift by the width of an `int` or more
            if 32 ≤ nBitsSnd then .error .undefined
            else
              let seam := fun x => (x &&& (ucharMax <<< nBitsSnd)) ||| (b &&& (ucharMax >>> nBitsSnd))
              return (first.modify (firstSize - 1) seam).take firstSize ++
                second.take (resultSize - firstSize)
      else return first.take firstSize ++ second.take (resultSize - firstSize)

/-- The bytes that `read_bits` makes of one page.  Its loop is the one of `shift_bit_array`, over the
bytes behind the first. -/
def bytesRead (page : PageData) (byteOffset bitOffset nBits : ℕ) : Except Fault (List Uchar) :=
  let nBytesResult := nBits / charBit + if nBits % charBit ≠ 0 then 1 else 0
  let nBytesRead := (bitOffset + nBits) / charBit +
    if (bitOffset + nBits) % charBit ≠ 0 then 1 else 0
  -- `result[0]` of an array without bytes
  if nBytesResult = 0 then .error .undefined
  else
    let shift := nBytesRead * charBit - (nBits + bitOffset)
    let first := page byteOffset &&& (ucharMax >>> bitOffset)
    let rest := shiftRightFrom shift (first &&& (ucharMax >>> (charBit - shift)))
      ((List.range (nBytesRead - 1)).map fun i => page (byteOffset + (i + 1)))
    .ok (if nBytesResult < nBytesRead then rest else first :: rest)

/-- The part of `read_bits` that stays on its page. -/
def readBitsOnPage (k : PageKey) (byteOffset bitOffset nBits : ℕ) : Prog PageOp (List Uchar) := do
  let page ← Prog.perform (.getData k)
  PageOp.lift (bytesRead page byteOffset bitOffset nBits)

/-- `read_bits`. -/
def readBits (P : ℕ) : (fuel : ℕ) → (k : PageKey) → (byteOffset : Ushort) →
    (bitOffset nBits : ℕ) → Prog PageOp (List Uchar)
  | 0, _, _, _, _ => PageOp.abort .diverge
  | fuel + 1, k, byteOffset, bitOffset, nBits => do
      if charBit - 1 < bitOffset ∨ P - 1 < byteOffset.toNat ∨ P * charBit - 1 < nBits then
        PageOp.abort (.exit "header page - read bits: Invalid Arguments!")
      else
        let nBytesRead := (bitOffset + nBits) / charBit +
          if (bitOffset + nBits) % charBit ≠ 0 then 1 else 0
        if P < byteOffset.toNat + nBytesRead then
          let bitsToPageBoundary := (P - byteOffset.toNat) * charBit - bitOffset
          let nBitsSplitRead := nBits - bitsToPageBoundary
          let next : PageKey := { k with pageNo := k.pageNo + 1 }
          Prog.perform (.pinPage next)
          let second ← readBits P fuel next 0#16 0 nBitsSplitRead
          Prog.perform (.unpinPage next)
          let result ← readBitsOnPage k byteOffset.toNat bitOffset bitsToPageBoundary
          let nBytesResult := bitsToPageBoundary / charBit +
            if bitsToPageBoundary % charBit ≠ 0 then 1 else 0
          let nBytesSecond := nBitsSplitRead / charBit +
            if nBitsSplitRead % charBit ≠ 0 then 1 else 0
          PageOp.lift (concatBitArrays result second (nBytesResult * charBit)
            (nBytesSecond * charBit))
        else readBitsOnPage k byteOffset.toNat bitOffset nBits

/-! ### The bits of one record -/

/-- The bit `i` of a page, counted from the most significant bit of the first byte. -/
def pageBit (page : PageData) (i : ℕ) : Bool := (page (i / 8)).getLsbD (7 - i % 8)

theorem compareBits_one_byte : ∀ b : Fin 8, ∀ x : Uchar,
    compareBits (fun _ => x) 32768 ucharMax b 1 = .ok (x.getLsbD (7 - b)) := by
  decide

theorem compareBits_four_byte : ∀ b : Fin 8, b.val % 4 = 0 → ∀ x : Uchar,
    compareBits (fun _ => x) 32768 ucharMax b 4 =
      .ok ((List.range 4).all fun i => x.getLsbD (7 - (b + i))) := by
  decide

theorem compareBits_in_byte (ar : PageData) (mask : Uchar) {offset nBits : ℕ}
    (h : offset + nBits ≤ 32768) (hb : offset % 8 + nBits ≤ 8) :
    compareBits ar 32768 mask offset nBits =
      compareBits (fun _ => ar (offset / 8)) 32768 mask (offset % 8) nBits := by
  have hc : charBit = 8 := rfl
  have e : offset % 8 % charBit = offset % charBit := Nat.mod_mod _ _
  have hb' : offset % charBit + nBits ≤ charBit := hb
  unfold compareBits
  rw [if_neg (by omega), if_pos (.inr hb'), if_neg (by omega), e, if_pos (.inr hb')]
  rfl

/-- The bits of a node, or of an aligned relationship, compared with ones. -/
theorem compareBits_ones (ar : PageData) {offset nBits : ℕ} (h : offset + nBits ≤ 32768)
    (hn : nBits = 1 ∨ nBits = 4 ∧ offset % 4 = 0) :
    compareBits ar 32768 ucharMax offset nBits =
      .ok ((List.range nBits).all fun i => pageBit ar (offset + i)) := by
  have hlt : offset % 8 < 8 := Nat.mod_lt _ (by decide)
  rw [compareBits_in_byte ar ucharMax h (by omega)]
  have hbit : ∀ i, offset % 8 + i < 8 →
      pageBit ar (offset + i) = (ar (offset / 8)).getLsbD (7 - (offset % 8 + i)) := fun i hi => by
    rw [pageBit, show (offset + i) / 8 = offset / 8 by omega,
      show (offset + i) % 8 = offset % 8 + i by omega]
  rcases hn with rfl | ⟨rfl, h4⟩
  · rw [compareBits_one_byte ⟨offset % 8, hlt⟩ (ar (offset / 8))]
    simpa [List.range_succ] using (hbit 0 (by omega)).symm
  · rw [compareBits_four_byte ⟨offset % 8, hlt⟩ (by simp only; omega) (ar (offset / 8))]
    have h0 := hbit 0 (by omega)
    rw [Nat.add_zero, Nat.add_zero] at h0
    simp [List.range_succ, h0, hbit 1 (by omega), hbit 2 (by omega), hbit 3 (by omega)]

/-- The byte `write_bits` is given for a record. -/
def fill (used : Bool) : Uchar := if used then ucharMax else 0#8

/-- The byte with the bits from `lo` to `hi` set, counted from the most significant one. -/
def rangeByte (lo hi : ℕ) : Uchar := (ucharMax >>> lo) &&& (ucharMax <<< (8 - hi))

theorem getLsbD_rangeByte : ∀ lo hi : Fin 9, ∀ j : Fin 8,
    (rangeByte lo hi).getLsbD (7 - j) = decide (lo.val ≤ j.val ∧ j.val < hi.val) := by
  decide

/-- A range within one byte. -/
theorem bytesToWrite_one : ∀ n : Fin 5, 0 < n.val → ∀ b : Fin 8, b.val + n.val ≤ 8 →
    ∀ used : Bool, bytesToWrite b n [fill used] =
      .ok ([~~~ rangeByte b (b + n)], [fill used &&& rangeByte b (b + n)]) := by
  decide

/-- Four bits that end in the next byte: of that byte nothing is kept. -/
theorem bytesToWrite_two : ∀ b : Fin 8, 4 < b.val → ∀ used : Bool,
    bytesToWrite b 4 [fill used] = .ok ([~~~ rangeByte b 8, 0#8],
      [fill used &&& rangeByte b 8, fill used &&& rangeByte 0 (b - 4)]) := by
  decide

/-- Four bits that end on the next page. -/
theorem splitBitArray_fill : ∀ b : Fin 8, 4 < b.val → ∀ used : Bool,
    splitBitArray [fill used] 8 (b - 4) =
      .ok ([fill used >>> (b.val - 4)], [fill used >>> (b.val - 4)]) ∧
    bytesToWrite b (8 - b) [fill used >>> (b.val - 4)] =
      .ok ([~~~ rangeByte b 8], [fill used &&& rangeByte b 8]) ∧
    bytesToWrite 0 (b - 4) [fill used >>> (b.val - 4)] =
      .ok ([~~~ rangeByte 0 (b - 4)], [fill used &&& rangeByte 0 (b - 4)]) := by
  decide

theorem getLsbD_fill (used : Bool) {j : ℕ} (hj : j < 8) : (fill used).getLsbD j = used := by
  have : ∀ (used : Bool) (j : Fin 8), (fill used).getLsbD j = used := by decide
  exact this used ⟨j, hj⟩

/-- A byte written over: the bits in the range become `used`, the others stay. -/
theorem getLsbD_written (x : Uchar) (used : Bool) {lo hi j : ℕ} (hlo : lo ≤ 8) (hhi : hi ≤ 8)
    (hj : j < 8) :
    ((x &&& ~~~ rangeByte lo hi) ||| (fill used &&& rangeByte lo hi)).getLsbD (7 - j) =
      if lo ≤ j ∧ j < hi then used else x.getLsbD (7 - j) := by
  have h := getLsbD_rangeByte ⟨lo, by omega⟩ ⟨hi, by omega⟩ ⟨j, hj⟩
  have h7 : 7 - j < 8 := by omega
  simp only [BitVec.getLsbD_or, BitVec.getLsbD_and, BitVec.getLsbD_not, h7, decide_true,
    Bool.true_and, getLsbD_fill used h7, h]
  split <;> rename_i hr <;> simp [hr]

theorem pageBit_update (page : PageData) (off : ℕ) (x : Uchar) (i : ℕ) :
    pageBit (Function.update page off x) i =
      if i / 8 = off then x.getLsbD (7 - i % 8) else pageBit page i := by
  unfold pageBit
  by_cases h : i / 8 = off
  · rw [h, Function.update_self, if_pos rfl]
  · rw [Function.update_of_ne h, if_neg h]

theorem pageBit_overwrite_one (page : PageData) (off : ℕ) (used : Bool) {lo hi : ℕ} (hlo : lo ≤ 8)
    (hhi : hi ≤ 8) (i : ℕ) :
    pageBit (overwrite page off [~~~ rangeByte lo hi] [fill used &&& rangeByte lo hi]) i =
      if i / 8 = off ∧ lo ≤ i % 8 ∧ i % 8 < hi then used else pageBit page i := by
  simp only [overwrite, pageBit_update]
  by_cases h : i / 8 = off
  · rw [if_pos h, getLsbD_written _ _ hlo hhi (Nat.mod_lt _ (by decide))]
    simp only [h, true_and]
    split
    · rfl
    · rw [pageBit, h]
  · rw [if_neg h, if_neg (by simp [h])]

theorem pageBit_overwrite_two (page : PageData) (off : ℕ) (used : Bool) {lo hi : ℕ} (hlo : lo ≤ 8)
    (hhi : hi ≤ 8) (i : ℕ) :
    pageBit (overwrite page off [~~~ rangeByte lo 8, 0#8]
      [fill used &&& rangeByte lo 8, fill used &&& rangeByte 0 hi]) i =
      if i / 8 = off ∧ lo ≤ i % 8 ∨ i / 8 = off + 1 ∧ i % 8 < hi then used
      else if i / 8 = off + 1 then false
      else pageBit page i := by
  have hmod : i % 8 < 8 := Nat.mod_lt _ (by decide)
  have hone := pageBit_overwrite_one page off used hlo le_rfl i
  simp only [overwrite] at hone ⊢
  rw [pageBit_update]
  by_cases h : i / 8 = off + 1
  · have hb := getLsbD_rangeByte ⟨0, by omega⟩ ⟨hi, by omega⟩ ⟨i % 8, hmod⟩
    simp only [Nat.zero_le, true_and] at hb
    rw [if_pos h, BitVec.and_zero, BitVec.zero_or, BitVec.getLsbD_and,
      getLsbD_fill used (by omega), hb]
    have hne : ¬ (i / 8 = off) := by omega
    by_cases hi' : i % 8 < hi <;> simp [h, hi']
  · rw [if_neg h, hone]
    simp [h, hmod]

end Goedb
