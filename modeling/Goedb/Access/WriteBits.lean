import Goedb.Access.HeaderBits

/-!
# Access — which bits `write_bits` writes

`bitOf` numbers the bits of a file on from page to page, so that a range that goes on at the next
page is one range.  A write is to set the bits of the range to the value bits and to leave every
other bit alone (`BitsWritten`).

On one page the mask of the last byte is taken from `n_bits % 8 + bit_offset` where the range ends
at that sum modulo 8: when the sum is above 8, the bits behind the range are cleared
(`run_writeBitsOnPage_bits`).  Over a page boundary the data is split at the number of bits of the
*second* part, counted from the front (`SplitsWell` says when that comes to the same).
-/

namespace Goedb

open Lib

/-- The first bit of a page, in the file. -/
def PageKey.firstBit (P : ℕ) (k : PageKey) : ℕ := 8 * P * k.pageNo

namespace PhyDatabase

variable {P : ℕ} {db : PhyDatabase} {k : PageKey}

/-- The bit `x` of a file, counted on from page to page. -/
def bitOf (P : ℕ) (db : PhyDatabase) (fk : FileKind) (ft : FileType) (x : ℕ) : Bool :=
  pageBit ((db.file fk ft).page (x / (8 * P))) (x % (8 * P))

theorem div_page_iff (hP : 0 < P) (x : ℕ) :
    x / (8 * P) = k.pageNo ↔ k.firstBit P ≤ x ∧ x < k.firstBit P + 8 * P := by
  rw [Nat.div_eq_iff (by omega), Nat.mul_comm k.pageNo, PageKey.firstBit]
  omega

theorem bitOf_page {x : ℕ} (hP : 0 < P) (hx : k.firstBit P ≤ x ∧ x < k.firstBit P + 8 * P) :
    db.bitOf P k.fk k.ft x = pageBit ((db.file k.fk k.ft).page k.pageNo) (x - k.firstBit P) := by
  have hd := (div_page_iff hP x).mpr hx
  have := Nat.div_add_mod x (8 * P)
  rw [bitOf, hd, PageKey.firstBit, ← hd, show x % (8 * P) = x - 8 * P * (x / (8 * P)) by omega]

/-- The other pages of the file stay. -/
theorem page_file_setPage_self (h : db.InFile k) (data : PageData) (n : ℕ) :
    ((db.setPage k data).file k.fk k.ft).page n =
      if n = k.pageNo then data else (db.file k.fk k.ft).page n := by
  obtain ⟨fk, ft, p⟩ := k
  simp only [InFile] at h
  cases fk <;> simp only [setPage, file] at h ⊢ <;> simp [DiskFile.page_setPage h]

theorem bitOf_setPage (hP : 0 < P) (h : db.InFile k) (data : PageData) (x : ℕ) :
    (db.setPage k data).bitOf P k.fk k.ft x =
      if k.firstBit P ≤ x ∧ x < k.firstBit P + 8 * P then pageBit data (x - k.firstBit P)
      else db.bitOf P k.fk k.ft x := by
  by_cases hx : k.firstBit P ≤ x ∧ x < k.firstBit P + 8 * P
  · rw [if_pos hx, bitOf_page hP hx, page_file_setPage_self h, if_pos rfl]
  · rw [if_neg hx, bitOf, page_file_setPage_self h, if_neg (mt (div_page_iff hP x).mp hx), bitOf]

end PhyDatabase

variable {P : ℕ} {db : PhyDatabase} {k : PageKey}

/-- The bit `i` of the `n` value bits that stand right-aligned in some bytes. -/
def valueBit (data : List Uchar) (n i : ℕ) : Bool := bitAt data (8 * ((n + 7) / 8) - n + i)

theorem run_writeBitsOnPage {off b n : ℕ} {data ms ds : List Uchar}
    (h : bytesToWrite b n data = .ok (ms, ds)) :
    (writeBitsOnPage k off b n data).run (PhyDatabase.flat P) db =
      .ok ((), db.setPage k (overwrite ((db.file k.fk k.ft).page k.pageNo) off ms ds)) := by
  rw [writeBitsOnPage, h]
  rfl

/-- A write that stays on its page: the range takes the value bits, and where the mask of the last
byte counts too far the bits behind the range are cleared. -/
theorem run_writeBitsOnPage_bits (off b n : ℕ) (data : List Uchar) (hP : 0 < P) (hk : db.InFile k)
    (hb : b < 8) (hn : 0 < n) (hfits : 8 * off + b + n ≤ 8 * P) (hdata : (n + 7) / 8 ≤ data.length) :
    ∃ page, (writeBitsOnPage k off b n data).run (PhyDatabase.flat P) db =
        .ok ((), db.setPage k page) ∧
      ∀ x, (db.setPage k page).bitOf P k.fk k.ft x =
        let start := k.firstBit P + (8 * off + b)
        if start ≤ x ∧ x < start + n then valueBit data n (x - start)
        else if 8 < n % 8 + b ∧ start + n ≤ x ∧
            x < k.firstBit P + 8 * (off + (b + n + 7) / 8) then false
        else db.bitOf P k.fk k.ft x := by
  obtain ⟨ds, hds, hlen, hbits⟩ := bytesToWrite_ok hb hn hdata
  refine ⟨_, run_writeBitsOnPage hds, fun x => ?_⟩
  set w := (b + n + 7) / 8 with hw
  have hmask : (keepMask b n w).length = w := by
    rw [keepMask]
    split <;> simp
  rw [PhyDatabase.bitOf_setPage hP hk]
  simp only
  set base := k.firstBit P with hbase
  by_cases hpage : base ≤ x ∧ x < base + 8 * P
  · rw [if_pos hpage, pageBit_overwrite _ (by omega), hmask, ← PhyDatabase.bitOf_page hP hpage]
    by_cases hin : 8 * off ≤ x - base ∧ x - base < 8 * (off + w)
    · rw [if_pos hin, bitAt_keepMask hb (by omega), hbits _ (by omega)]
      by_cases hrange : base + (8 * off + b) ≤ x ∧ x < base + (8 * off + b) + n
      · rw [if_pos hrange, decide_eq_false (by omega), decide_eq_false (by omega),
          decide_eq_true (by omega), Bool.or_false, Bool.and_false, Bool.false_or, Bool.true_and,
          valueBit, show x - base - 8 * off - b = x - (base + (8 * off + b)) by omega]
      · rw [if_neg hrange, decide_eq_false (p := b ≤ _ ∧ _) (by omega), Bool.false_and,
          Bool.or_false]
        by_cases hlost : 8 < n % 8 + b ∧ base + (8 * off + b) + n ≤ x ∧ x < base + 8 * (off + w)
        · rw [if_pos hlost, decide_eq_false (by omega), decide_eq_false (by omega), Bool.or_false,
            Bool.and_false]
        · rw [if_neg hlost, ← Bool.decide_or, decide_eq_true (by omega), Bool.and_true]
    · rw [if_neg hin, if_neg (by omega), if_neg (by omega)]
  · rw [if_neg hpage, if_neg (by omega), if_neg (by omega)]

variable {off b n : ℕ} {byteOffset : Ushort} {data : List Uchar}

/-- The arguments that `write_bits` takes, when the range stays on the page. -/
theorem run_writeBits_fits {fuel : ℕ} (hoff : byteOffset.toNat < P) (hb : b < 8) (hn : 0 < n)
    (hnP : n < P * 8) (hfits : 8 * byteOffset.toNat + b + n ≤ 8 * P) :
    (writeBits P (fuel + 1) k byteOffset b n data).run (PhyDatabase.flat P) db =
      (writeBitsOnPage k byteOffset.toNat b n data).run (PhyDatabase.flat P) db := by
  have hc : charBit = 8 := rfl
  rw [writeBits, hc, if_neg (by omega), ← hc]
  simp only [bytes_eq]
  rw [if_neg (by omega)]

/-- The second half, which begins with its page. -/
theorem run_writeBits_start {fuel : ℕ} (hP : 0 < P) (hn : 0 < n) (hnP : n < P * 8) :
    (writeBits P (fuel + 1) k 0#16 0 n data).run (PhyDatabase.flat P) db =
      (writeBitsOnPage k 0 0 n data).run (PhyDatabase.flat P) db :=
  run_writeBits_fits hP (by decide) hn hnP (by rw [show (0#16 : Ushort).toNat = 0 from rfl]; omega)

theorem run_writeBitsOnPage_short (hdata : data.length < (n + 7) / 8) :
    (writeBitsOnPage k off b n data).run (PhyDatabase.flat P) db = .error .undefined := by
  have h : bytesToWrite b n data = .error .undefined := by
    simp only [bytesToWrite, bytes_eq]
    rw [if_pos hdata]
  rw [writeBitsOnPage, h]
  rfl

/-! ### A range that goes on at the next page -/

/-- The page behind a page. -/
def PageKey.next (k : PageKey) : PageKey := { k with pageNo := k.pageNo + 1 }

theorem PageKey.firstBit_next : k.next.firstBit P = k.firstBit P + 8 * P := Nat.mul_succ _ _

/-- `pin_page` takes the page. -/
def PhyDatabase.Pinnable (P : ℕ) (db : PhyDatabase) (k : PageKey) : Prop :=
  PhyDatabase.flat P _ (.pinPage k) db = .ok ((), db)

theorem PhyDatabase.Pinnable.checkBounds (h : db.Pinnable P k) : db.checkBounds P k = .ok () := by
  simp only [PhyDatabase.Pinnable, PhyDatabase.flat] at h
  split at h
  · cases h
  · match e : db.checkBounds P k with
    | .ok () => rfl
    | .error f => rw [e] at h; cases h

theorem PhyDatabase.Pinnable.inFile (h : db.Pinnable P k) : db.InFile k := by
  have hc := h.checkBounds
  by_contra hin
  obtain ⟨e, he⟩ := PhyDatabase.checkBounds_error (P := P) hin
  rw [he] at hc
  cases hc

/-- The bits of the range on its first page. -/
def bitsHere (P off b : ℕ) : ℕ := (P - off) * 8 - b

/-- The two halves of `write_bits`, the second first. -/
def writeHalves (P fuel : ℕ) (k : PageKey) (off b n : ℕ) (first second : List Uchar) :
    Prog PageOp Unit := do
  Prog.perform (.pinPage k.next)
  writeBits P fuel k.next 0#16 0 (n - bitsHere P off b) second
  Prog.perform (.unpinPage k.next)
  writeBitsOnPage k off b (bitsHere P off b) first

theorem writeBits_cross {fuel : ℕ} {first second : List Uchar} (hoff : byteOffset.toNat < P)
    (hb : b < 8) (hn : 0 < n) (hnP : n < P * 8) (hcross : 8 * P < 8 * byteOffset.toNat + b + n)
    (hsplit : splitBitArray data ((n + 7) / 8 * 8) (n - bitsHere P byteOffset.toNat b) =
      .ok (first, second)) :
    (writeBits P (fuel + 1) k byteOffset b n data).run (PhyDatabase.flat P) db =
      (writeHalves P fuel k byteOffset.toNat b n first second).run (PhyDatabase.flat P) db := by
  have hc : charBit = 8 := rfl
  rw [writeBits, hc, if_neg (by omega), ← hc]
  simp only [bytes_eq]
  rw [if_pos (by omega)]
  have hlift : (PageOp.lift (splitBitArray data ((n + 7) / 8 * 8)
      (n - bitsHere P byteOffset.toNat b))).run (PhyDatabase.flat P) db =
        .ok ((first, second), db) := by
    rw [hsplit]
    rfl
  exact (Prog.run_bind_ok _ hlift _).trans rfl

/-- Halves that are long enough are written one behind the other. -/
theorem run_writeHalves (fuel : ℕ) (first second : List Uchar) (hk : db.InFile k) (hoff : off < P)
    (hb : b < 8) (hnP : n < P * 8) (hcross : 8 * P < 8 * off + b + n)
    (hnext : db.Pinnable P k.next) (hfirst : P - off ≤ first.length)
    (hsecond : (n - bitsHere P off b + 7) / 8 ≤ second.length) :
    ∃ db', (writeHalves P (fuel + 1) k off b n first second).run (PhyDatabase.flat P) db =
        .ok ((), db') ∧
      ∀ x, db'.bitOf P k.fk k.ft x =
        let start := k.firstBit P + (8 * off + b)
        if start ≤ x ∧ x < start + bitsHere P off b then
          valueBit first (bitsHere P off b) (x - start)
        else if start + bitsHere P off b ≤ x ∧ x < start + n then
          valueBit second (n - bitsHere P off b) (x - start - bitsHere P off b)
        else db.bitOf P k.fk k.ft x := by
  have hP : 0 < P := by omega
  set here := bitsHere P off b with hhere
  have hhere' : here = (P - off) * 8 - b := hhere
  have hfirstBit : k.next.firstBit P = k.firstBit P + 8 * P := PageKey.firstBit_next
  -- the second half is written first, to a page that the first half does not touch
  obtain ⟨page₂, hrun₂, hbits₂⟩ := run_writeBitsOnPage_bits 0 0 (n - here) second
    hP hnext.inFile (by decide) (by omega) (by omega) hsecond
  have hk₂ : (db.setPage k.next page₂).InFile k := by
    rw [PhyDatabase.InFile, PhyDatabase.numPages_file_setPage]
    exact hk
  obtain ⟨page₁, hrun₁, hbits₁⟩ := run_writeBitsOnPage_bits off b here first hP hk₂ hb (by omega)
    (by omega) (by omega)
  have hunpin : PhyDatabase.flat P _ (.unpinPage k.next) (db.setPage k.next page₂) =
      .ok ((), db.setPage k.next page₂) := by
    have hc := hnext.checkBounds
    simp only [PhyDatabase.flat, PhyDatabase.checkBounds, PhyDatabase.numPages_file_setPage] at hc ⊢
    rw [hc]
    rfl
  refine ⟨(db.setPage k.next page₂).setPage k page₁, ?_, fun x => ?_⟩
  · rw [writeHalves]
    refine (Prog.run_bind_ok _ ((Prog.run_perform _ _ _).trans hnext) _).trans ?_
    refine (Prog.run_bind_ok _ ((run_writeBits_start hP (by omega) (by omega)).trans hrun₂) _).trans
      ?_
    refine (Prog.run_bind_ok _ ((Prog.run_perform _ _ _).trans hunpin) _).trans ?_
    exact hrun₁
  · have hsame : (db.setPage k.next page₂).bitOf P k.fk k.ft x =
      (db.setPage k.next page₂).bitOf P k.next.fk k.next.ft x := rfl
    rw [hbits₁, hsame, hbits₂]
    simp only
    by_cases h₁ : k.firstBit P + (8 * off + b) ≤ x ∧ x < k.firstBit P + (8 * off + b) + here
    · rw [if_pos h₁, if_pos h₁]
    · rw [if_neg h₁, if_neg h₁, if_neg (by omega)]
      by_cases h₂ : k.firstBit P + (8 * off + b) + here ≤ x ∧
          x < k.firstBit P + (8 * off + b) + n
      · rw [if_pos h₂, if_pos (by omega)]
        congr 1
        omega
      · rw [if_neg h₂, if_neg (by omega), if_neg (by omega)]
        rfl

/-- Halves that are written were long enough. -/
theorem writeHalves_long {fuel : ℕ} {first second : List Uchar} {db' : PhyDatabase} (hoff : off < P)
    (hb : b < 8) (hnP : n < P * 8) (hcross : 8 * P < 8 * off + b + n)
    (h : (writeHalves P (fuel + 1) k off b n first second).run (PhyDatabase.flat P) db =
      .ok ((), db')) :
    P - off ≤ first.length ∧ (n - bitsHere P off b + 7) / 8 ≤ second.length := by
  have hhere : bitsHere P off b = (P - off) * 8 - b := rfl
  obtain ⟨_, db₁, -, h⟩ := Prog.run_bind_inv _ h
  obtain ⟨_, db₂, hsecond, h⟩ := Prog.run_bind_inv _ h
  obtain ⟨_, db₃, -, hfirst⟩ := Prog.run_bind_inv _ h
  rw [run_writeBits_start (by omega) (by omega) (by omega)] at hsecond
  constructor
  · by_contra hlt
    rw [run_writeBitsOnPage_short (by omega)] at hfirst
    cases hfirst
  · by_contra hlt
    rw [run_writeBitsOnPage_short (by omega)] at hsecond
    cases hsecond

/-! ### When the right bits are written -/

/-- The range holds the value bits, and every other bit of the file is as before. -/
def BitsWritten (P : ℕ) (db db' : PhyDatabase) (k : PageKey) (off b n : ℕ) (data : List Uchar) :
    Prop :=
  ∀ x, db'.bitOf P k.fk k.ft x =
    let start := k.firstBit P + (8 * off + b)
    if start ≤ x ∧ x < start + n then valueBit data n (x - start) else db.bitOf P k.fk k.ft x

/-- The mask keeps the bits behind the range in its last byte, or there is nothing to keep. -/
def TailKept (P : ℕ) (db : PhyDatabase) (k : PageKey) (off b n : ℕ) : Prop :=
  n % 8 + b ≤ 8 ∨
    ∀ x, k.firstBit P + (8 * off + b + n) ≤ x → x < k.firstBit P + 8 * (off + (b + n + 7) / 8) →
      db.bitOf P k.fk k.ft x = false

/-- The data split at the number of bits of the second half, counted from the front: both halves are
long enough, and the bits that come to stand in the range are those of the value. -/
def SplitsWell (P off b n : ℕ) (data : List Uchar) : Prop :=
  let here := bitsHere P off b
  let rest := n - here
  P - off ≤ (rest + 7) / 8 ∧ (rest + 7) / 8 ≤ (n + 7) / 8 - rest / 8 ∧
    (∀ i < here, valueBit data n i = (decide (rest % 8 ≤ b + i) && bitAt data (b + i - rest % 8))) ∧
    ∀ i < rest, valueBit data n (here + i) =
      (decide (rest % 8 ≤ 8 * ((rest + 7) / 8) - rest + i) &&
        bitAt data (8 * (rest / 8) + (8 * ((rest + 7) / 8) - rest + i)))

theorem bitsWritten_iff_tailKept {db' : PhyDatabase}
    (h : ∀ x, db'.bitOf P k.fk k.ft x =
      let start := k.firstBit P + (8 * off + b)
      if start ≤ x ∧ x < start + n then valueBit data n (x - start)
      else if 8 < n % 8 + b ∧ start + n ≤ x ∧
          x < k.firstBit P + 8 * (off + (b + n + 7) / 8) then false
      else db.bitOf P k.fk k.ft x) :
    BitsWritten P db db' k off b n data ↔ TailKept P db k off b n := by
  simp only at h
  constructor
  · intro hw
    rw [TailKept, or_iff_not_imp_left]
    intro hsum x hlo hhi
    have hx := hw x
    simp only at hx
    rwa [h, if_neg (by omega), if_pos (by omega), if_neg (by omega), eq_comm] at hx
  · intro ht x
    rw [h]
    simp only
    by_cases hin : k.firstBit P + (8 * off + b) ≤ x ∧ x < k.firstBit P + (8 * off + b) + n
    · rw [if_pos hin, if_pos hin]
    · rw [if_neg hin, if_neg hin]
      split
      · next hlost =>
        rcases ht with hsum | ht
        · omega
        · exact (ht x (by omega) (by omega)).symm
      · rfl

/-- A write over a page boundary writes the value bits when the split of the data comes out
right. -/
theorem bitsWritten_iff_splitsWell {first second : List Uchar} {db' : PhyDatabase} (hb : b < 8)
    (hoff : off < P) (hcross : 8 * P < 8 * off + b + n)
    (hlong : P - off ≤ (n - bitsHere P off b + 7) / 8)
    (hlong₂ : (n - bitsHere P off b + 7) / 8 ≤ (n + 7) / 8 - (n - bitsHere P off b) / 8)
    (hfirst : ∀ i < 8 * ((n - bitsHere P off b + 7) / 8), bitAt first i =
      (decide ((n - bitsHere P off b) % 8 ≤ i) && bitAt data (i - (n - bitsHere P off b) % 8)))
    (hsecond : ∀ i, bitAt second i = (decide ((n - bitsHere P off b) % 8 ≤ i) &&
      bitAt data (8 * ((n - bitsHere P off b) / 8) + i)))
    (h : ∀ x, db'.bitOf P k.fk k.ft x =
      let start := k.firstBit P + (8 * off + b)
      if start ≤ x ∧ x < start + bitsHere P off b then
        valueBit first (bitsHere P off b) (x - start)
      else if start + bitsHere P off b ≤ x ∧ x < start + n then
        valueBit second (n - bitsHere P off b) (x - start - bitsHere P off b)
      else db.bitOf P k.fk k.ft x) :
    BitsWritten P db db' k off b n data ↔ SplitsWell P off b n data := by
  have hhere : bitsHere P off b = (P - off) * 8 - b := rfl
  simp only at h
  set here := bitsHere P off b
  set rest := n - here with hrest
  -- the bits that either half takes for its value
  have hone : ∀ i < here, valueBit first here i =
      (decide (rest % 8 ≤ b + i) && bitAt data (b + i - rest % 8)) := fun i hi => by
    rw [valueBit, show 8 * ((here + 7) / 8) - here + i = b + i by omega, hfirst _ (by omega)]
  have htwo : ∀ i < rest, valueBit second rest i =
      (decide (rest % 8 ≤ 8 * ((rest + 7) / 8) - rest + i) &&
        bitAt data (8 * (rest / 8) + (8 * ((rest + 7) / 8) - rest + i))) := fun i _ => by
    rw [valueBit, hsecond]
  constructor
  · intro hw
    refine ⟨hlong, hlong₂, fun i hi => ?_, fun i hi => ?_⟩
    · have hx := hw (k.firstBit P + (8 * off + b) + i)
      simp only at hx
      rw [h, if_pos (by omega), if_pos (by omega), Nat.add_sub_cancel_left, hone i hi] at hx
      exact hx.symm
    · have hx := hw (k.firstBit P + (8 * off + b) + (here + i))
      simp only at hx
      rw [h, if_neg (by omega), if_pos (by omega), if_pos (by omega), Nat.add_sub_cancel_left,
        Nat.add_sub_cancel_left, htwo i hi] at hx
      exact hx.symm
  · rintro ⟨-, -, h₁, h₂⟩ x
    rw [h]
    simp only
    by_cases hin : k.firstBit P + (8 * off + b) ≤ x ∧ x < k.firstBit P + (8 * off + b) + here
    · rw [if_pos hin, if_pos (by omega), hone _ (by omega), ← h₁ _ (by omega)]
    · rw [if_neg hin]
      by_cases hin₂ : k.firstBit P + (8 * off + b) + here ≤ x ∧
          x < k.firstBit P + (8 * off + b) + n
      · rw [if_pos hin₂, if_pos (by omega), htwo _ (by omega), ← h₂ _ (by omega)]
        congr 1
        omega
      · rw [if_neg hin₂, if_neg (by omega)]

/-- `write_bits` sets the bits of the range to the value bits and leaves the others alone exactly
when its last byte is masked rightly, on one page, or its data is split rightly, on two. -/
theorem writeBits_written_iff {fuel : ℕ} (hoff : byteOffset.toNat < P) (hb : b < 8) (hn : 0 < n)
    (hnP : n < P * 8) (h64 : n < 2 ^ 64)
    (hdata : data.length = (n + 7) / 8) (hk : db.InFile k)
    (hnext : 8 * P < 8 * byteOffset.toNat + b + n → db.Pinnable P k.next) :
    (∃ db', (writeBits P (fuel + 2) k byteOffset b n data).run (PhyDatabase.flat P) db =
          .ok ((), db') ∧
        BitsWritten P db db' k byteOffset.toNat b n data) ↔
      if 8 * byteOffset.toNat + b + n ≤ 8 * P then TailKept P db k byteOffset.toNat b n
      else SplitsWell P byteOffset.toNat b n data := by
  have hP : 0 < P := by omega
  by_cases hfits : 8 * byteOffset.toNat + b + n ≤ 8 * P
  · rw [if_pos hfits]
    obtain ⟨page, hrun, hbits⟩ :=
      run_writeBitsOnPage_bits byteOffset.toNat b n data hP hk hb hn hfits hdata.ge
    rw [run_writeBits_fits hoff hb hn hnP hfits, hrun, ← bitsWritten_iff_tailKept hbits]
    constructor
    · rintro ⟨db', e, hw⟩
      cases e
      exact hw
    · exact fun hw => ⟨_, rfl, hw⟩
  · rw [if_neg hfits]
    have hhere : bitsHere P byteOffset.toNat b = (P - byteOffset.toNat) * 8 - b := rfl
    obtain ⟨first, second, hsplit, hlen₁, hlen₂, hfirst, hsecond⟩ :=
      splitBitArray_ok data (n - bitsHere P byteOffset.toNat b) (by omega) (by omega)
    rw [hdata] at hsplit
    rw [writeBits_cross hoff hb hn hnP (by omega) hsplit]
    have hwrite := fun hl₁ hl₂ => run_writeHalves fuel first second hk hoff hb hnP (by omega)
      (hnext (by omega)) hl₁ hl₂
    constructor
    · rintro ⟨db', hrun, hw⟩
      obtain ⟨hl₁, hl₂⟩ := writeHalves_long hoff hb hnP (by omega) hrun
      obtain ⟨db'', hrun', hbits⟩ := hwrite hl₁ hl₂
      rw [hrun'] at hrun
      cases hrun
      exact (bitsWritten_iff_splitsWell hb hoff (by omega) (by omega) (by omega) hfirst hsecond
        hbits).mp hw
    · intro hsplits
      have hl₁ := hsplits.1
      have hl₂ := hsplits.2.1
      obtain ⟨db', hrun, hbits⟩ := hwrite (by omega) (by omega)
      exact ⟨db', hrun, (bitsWritten_iff_splitsWell hb hoff (by omega) hl₁ hl₂ hfirst hsecond
        hbits).mpr hsplits⟩

/-- Header pages with every bit set. -/
def setPages (n : ℕ) : PhyDatabase :=
  ⟨⟨[]⟩, fun _ => ⟨List.replicate n fun _ => ucharMax⟩, fun _ => ⟨[]⟩, fun _ => 0⟩

theorem writeBits_written_iff_crossing :
    ∃ db', (writeBits 4096 2 ⟨.header, .node, 0⟩ 4095 4 12 [0x0F#8, 0x05#8]).run
        (PhyDatabase.flat 4096) (setPages 2) = .ok ((), db') ∧
      BitsWritten 4096 (setPages 2) db' ⟨.header, .node, 0⟩ 4095 4 12 [0x0F#8, 0x05#8] :=
  (writeBits_written_iff (by decide) (by decide) (by decide) (by decide) (by decide) rfl
    (by decide) (by intro _; rfl)).mpr (by
      rw [if_neg (by decide)]
      refine ⟨by decide, by decide, by decide, by decide⟩)

/-- Two ones written at the last bit of a byte: the other bits of the next byte are lost. -/
theorem writeBits_clears_behind :
    ¬ ∃ db', (writeBits 4096 2 ⟨.header, .node, 0⟩ 0 7 2 [0x03#8]).run
        (PhyDatabase.flat 4096) (setPages 1) = .ok ((), db') ∧
      BitsWritten 4096 (setPages 1) db' ⟨.header, .node, 0⟩ 0 7 2 [0x03#8] := by
  rintro ⟨db', hrun, hw⟩
  cases hrun
  exact absurd (hw 9) (by decide)

end Goedb
