import Goedb.Io.PhysicalDatabase
import Goedb.Lib.Program

/-!
# Io — accounting of slots and header bits

Over every run of `create`, `allocatePages`, `close` and `openFiles` of one database:

* the catalogue's entry is the number of slots of the record file;
* the bits of the header file are the slots and the remaining header bits, so no unsigned
  subtraction wraps;
* `openFiles` accepts what `close` left, and counts the remaining bits as they were.

`Accounts` is the invariant that carries this: it also bounds the record files by `MAX_PAGE_NO` and
the remaining bits by one page.  `allocatePages_spec` is the step lemma, `Session.run_keeps` the run
lemma.
-/

namespace Goedb

open Lib

namespace PhyDatabase

/-- The number of slots of the record file of `ft`. -/
def numSlots (P : ℕ) (db : PhyDatabase) (ft : FileType) : ℕ :=
  (db.records ft).numPages * slotsPerPage P

/-- The catalogue and the header of every file type account for every slot. -/
def Balanced (P : ℕ) (db : PhyDatabase) : Prop :=
  ∀ ft, (entryOf (db.catalogue.page 0) ft).toNat = db.numSlots P ft ∧
    (db.header ft).numPages * P * charBit = db.numSlots P ft + db.remainingHeaderBits ft

/-- The invariant of a database that is open. -/
structure Accounts (P : ℕ) (db : PhyDatabase) : Prop where
  balanced : db.Balanced P
  catalogue : db.catalogue.numPages = 1
  header_pos : ∀ ft, 0 < (db.header ft).numPages
  records_lt : ∀ ft, (db.records ft).numPages < maxPageNo P
  remaining_le : ∀ ft, db.remainingHeaderBits ft ≤ P * charBit
  remaining_lt : ∀ ft, (db.records ft).numPages ≠ 0 → db.remainingHeaderBits ft < P * charBit

/-- The header of an empty record file is a page of zeros. -/
def EmptyIsZero (db : PhyDatabase) : Prop :=
  ∀ ft, (db.records ft).numPages = 0 → (db.header ft).page 0 = zeroPage

/-- The same of the bytes that a page has. -/
def EmptyHeader (P : ℕ) (db : PhyDatabase) : Prop :=
  ∀ ft, (db.records ft).numPages = 0 → ∀ i < P, (db.header ft).page 0 i = 0#8

theorem EmptyIsZero.emptyHeader {P : ℕ} {db : PhyDatabase} (h : db.EmptyIsZero) :
    db.EmptyHeader P := by
  intro ft h0 i _
  rw [h ft h0]
  rfl

end PhyDatabase

/-! ### Arithmetic of page sizes -/

theorem IsPageSize.bounds {P : ℕ} (h : IsPageSize P) :
    ∃ S, P = 16 * S ∧ slotsPerPage P = S ∧ 256 ≤ S ∧ P ≤ 2 ^ 30 := by
  obtain ⟨k, h₁, h₂, rfl⟩ := h
  have e : 2 ^ k = 16 * 2 ^ (k - 4) := by
    rw [show (16 : ℕ) = 2 ^ 4 by norm_num, ← pow_add]
    congr 1
    omega
  refine ⟨2 ^ (k - 4), e, ?_, ?_, Nat.pow_le_pow_right (by decide) h₂⟩
  · rw [slotsPerPage, slotSize, e, Nat.mul_div_cancel_left _ (by decide)]
  · calc 256 = 2 ^ 8 := by norm_num
      _ ≤ 2 ^ (k - 4) := Nat.pow_le_pow_right (by decide) (by omega)

theorem IsPageSize.two_pow_le_maxPageNo {P : ℕ} (h : IsPageSize P) : 2 ^ 32 ≤ maxPageNo P := by
  obtain ⟨S, e, -, hS, hP⟩ := h.bounds
  rw [maxPageNo, Nat.le_div_iff_mul_le (by omega)]
  calc 2 ^ 32 * P ≤ 2 ^ 32 * 2 ^ 30 := Nat.mul_le_mul_left _ hP
    _ ≤ 2 ^ 63 - 1 := by norm_num

/-- `maxPageNo P` pages stay below `2 ^ 63` bytes. -/
theorem maxPageNo_mul_le (P : ℕ) : maxPageNo P * P ≤ 2 ^ 63 - 1 := Nat.div_mul_le_self _ _

theorem divUp_bounds (x : ℕ) {d : ℕ} (hd : 0 < d) :
    x ≤ PhyDatabase.divUp x d * d ∧ PhyDatabase.divUp x d * d < x + d := by
  have hmod := Nat.div_add_mod' x d
  have hlt := Nat.mod_lt x hd
  unfold PhyDatabase.divUp
  split
  · rw [Nat.add_mul, Nat.one_mul]
    omega
  · rw [Nat.add_zero]
    omega

/-- Bits rounded up to bytes and the bytes to pages: at least the bits, and less than one page more. -/
theorem divUp_divUp_bounds (a : ℕ) {P : ℕ} (hP : 0 < P) :
    a ≤ PhyDatabase.divUp (PhyDatabase.divUp a charBit) P * P * charBit ∧
      PhyDatabase.divUp (PhyDatabase.divUp a charBit) P * P * charBit < a + P * charBit := by
  obtain ⟨h₁, h₂⟩ := divUp_bounds a (d := charBit) (by decide)
  obtain ⟨h₃, h₄⟩ := divUp_bounds (PhyDatabase.divUp a charBit) hP
  simp only [charBit] at *
  omega

namespace PhyDatabase

variable {P : ℕ} {db : PhyDatabase}

/-! ### One allocation -/

theorem entryOf_storeWord_same (buf : PageData) (ft : FileType) (v : Ulong) :
    entryOf (storeWord buf (ft.toNat * 8) v) ft = v := loadWord_storeWord ..

theorem entryOf_storeWord_of_ne (buf : PageData) {ft gt : FileType} (h : gt ≠ ft) (v : Ulong) :
    entryOf (storeWord buf (ft.toNat * 8) v) gt = entryOf buf gt := by
  refine loadWord_storeWord_of_disjoint ?_
  cases ft <;> cases gt <;> first | exact absurd rfl h | decide

/-- The header of a record file of `N` pages in balance has about one page for every 128. -/
theorem header_lt_of_balanced (hP : IsPageSize P) {N h r : ℕ} (hN : N < maxPageNo P)
    (hb : h * P * charBit = N * slotsPerPage P + r) (hr : r ≤ P * charBit) :
    h < maxPageNo P ∧ h * P * charBit < 2 ^ 63 := by
  have hmax := hP.two_pow_le_maxPageNo
  have hmul := maxPageNo_mul_le P
  obtain ⟨S, rfl, hS, hS', hP'⟩ := hP.bounds
  rw [hS] at hb
  have hNS : N * (16 * S) ≤ maxPageNo (16 * S) * (16 * S) := Nat.mul_le_mul_right _ hN.le
  simp only [charBit] at hb hr ⊢
  have hle : h * 128 * S ≤ (N + 128) * S := by nlinarith
  have hle' := Nat.le_of_mul_le_mul_right hle (by omega)
  refine ⟨by omega, ?_⟩
  have hbytes : N * S * 16 ≤ 2 ^ 63 - 1 := by
    calc N * S * 16 = N * (16 * S) := by ring
      _ ≤ 2 ^ 63 - 1 := hNS.trans hmul
  omega

/-- The header's part of an allocation keeps the balance. -/
theorem growHeader_ok (hP : IsPageSize P) {header : DiskFile} {N n r : ℕ}
    (hn : N + n < maxPageNo P)
    (hb : header.numPages * P * charBit = N * slotsPerPage P + r) (hr : r ≤ P * charBit)
    (hr' : N ≠ 0 → r < P * charBit) :
    ∃ k header' r', growHeader P header r (n * slotsPerPage P) = .ok (header', r') ∧
      header.GrownBy k header' ∧
      header'.numPages * P * charBit = (N + n) * slotsPerPage P + r' ∧ r' ≤ P * charBit ∧
      (N + n ≠ 0 → r' < P * charBit) := by
  have hPpos : 0 < P := by
    obtain ⟨S, rfl, -, hS, -⟩ := hP.bounds
    omega
  have hSpos : 0 < slotsPerPage P := by
    obtain ⟨S, -, hS, hS', -⟩ := hP.bounds
    omega
  unfold growHeader
  split
  · rename_i hlt
    set a := n * slotsPerPage P - r with ha
    obtain ⟨h₁, h₂⟩ := divUp_divUp_bounds a hPpos
    set p := divUp (divUp a charBit) P with hp
    have hb' : (header.numPages + p) * P * charBit =
        (N + n) * slotsPerPage P + (p * P * charBit - a) := by
      have e₁ : (header.numPages + p) * P * charBit =
        header.numPages * P * charBit + p * P * charBit := by ring
      have e₂ : (N + n) * slotsPerPage P = N * slotsPerPage P + n * slotsPerPage P := by ring
      omega
    obtain ⟨h₃, h₄⟩ := header_lt_of_balanced hP hn hb' (by omega)
    obtain ⟨header', hg, hG⟩ := DiskFile.grow_ok h₃
    have e : (p * P * charBit % 2 ^ 64 + 2 ^ 64 - a) % 2 ^ 64 = p * P * charBit - a := by
      have e₁ : (header.numPages + p) * P * charBit =
        header.numPages * P * charBit + p * P * charBit := by ring
      omega
    refine ⟨p, header', p * P * charBit - a, ?_, hG, ?_, by omega, fun _ => by omega⟩
    · simp only [← hp, hg, ok_bind, e]
      rfl
    · rw [hG.numPages, hb']
  · rename_i hle
    refine ⟨0, header, r - n * slotsPerPage P, rfl, .refl header, ?_, by omega, fun h => ?_⟩
    · have e₂ : (N + n) * slotsPerPage P = N * slotsPerPage P + n * slotsPerPage P := by ring
      omega
    · by_cases hn0 : n = 0
      · subst hn0
        have := hr' (by omega)
        omega
      · have := Nat.mul_pos (Nat.pos_of_ne_zero hn0) hSpos
        omega

/-- **An allocation keeps the accounts.**  It succeeds below `MAX_PAGE_NO`, adds pages of zeros to
the record file and to the header of `ft`, and leaves the other file type alone. -/
theorem allocatePages_spec (hP : IsPageSize P) (hA : db.Accounts P) {ft : FileType} {n : ℕ}
    (hn : (db.records ft).numPages + n < maxPageNo P) :
    ∃ db', db.allocatePages P ft n = .ok db' ∧ db'.Accounts P ∧
      (db.records ft).GrownBy n (db'.records ft) ∧
      (∃ k, (db.header ft).GrownBy k (db'.header ft)) ∧
      ∀ gt, gt ≠ ft → db'.records gt = db.records gt ∧ db'.header gt = db.header gt := by
  obtain ⟨records, hrec, hR⟩ := DiskFile.grow_ok hn
  obtain ⟨k, header, r, hhead, hH, hbal, hr, hr'⟩ :=
    growHeader_ok hP hn (hA.balanced ft).2 (hA.remaining_le ft) (hA.remaining_lt ft)
  -- the number of slots that the catalogue gets does not overflow
  have hslots : (db.numSlots P ft + n * slotsPerPage P) < 2 ^ 64 := by
    have := (header_lt_of_balanced hP hn hbal hr).2
    rw [hbal, Nat.add_mul] at this
    simp only [numSlots]
    omega
  have hcat : (0 : ℕ) < db.catalogue.numPages := by rw [hA.catalogue]; decide
  unfold allocatePages
  simp only [hrec, Nat.mod_eq_of_lt (show n * slotsPerPage P < 2 ^ 64 by omega), hhead, ok_bind,
    DiskFile.readPage_ok hcat (Nat.zero_le _), DiskFile.writePage_ok hcat (Nat.zero_le _)]
  have hpage : ∀ buf, (db.catalogue.setPage 0 buf).page 0 = buf := fun buf => by
    rw [DiskFile.page_setPage hcat, if_pos rfl]
  refine ⟨_, rfl, ⟨?_, by simpa using hA.catalogue, ?_, ?_, ?_, ?_⟩, ?_, ⟨k, ?_⟩, ?_⟩
  · intro gt
    simp only [hpage]
    by_cases h : gt = ft
    · subst h
      simp only [numSlots, Function.update_self, entryOf_storeWord_same, hR.numPages]
      refine ⟨?_, hbal⟩
      rw [BitVec.toNat_add, (hA.balanced gt).1, BitVec.toNat_ofNat,
        Nat.mod_eq_of_lt (a := n * slotsPerPage P) (by omega), Nat.mod_eq_of_lt hslots,
        numSlots, Nat.add_mul]
    · simp only [numSlots, Function.update_of_ne h, entryOf_storeWord_of_ne _ h]
      exact hA.balanced gt
  · intro gt
    by_cases h : gt = ft
    · subst h
      have := hA.header_pos gt
      simp only [Function.update_self, hH.numPages]
      omega
    · simp only [Function.update_of_ne h]
      exact hA.header_pos gt
  · intro gt
    by_cases h : gt = ft
    · subst h
      simp only [Function.update_self, hR.numPages, hn]
    · simp only [Function.update_of_ne h]
      exact hA.records_lt gt
  · intro gt
    by_cases h : gt = ft
    · subst h
      simp only [Function.update_self, hr]
    · simp only [Function.update_of_ne h]
      exact hA.remaining_le gt
  · intro gt
    by_cases h : gt = ft
    · subst h
      simp only [Function.update_self, hR.numPages]
      exact hr'
    · simp only [Function.update_of_ne h]
      exact hA.remaining_lt gt
  · simp only [Function.update_self, hR]
  · simp only [Function.update_self, hH]
  · intro gt h
    simp only [Function.update_of_ne h, and_self]

theorem allocatePages_inv (hP : IsPageSize P) (hA : db.Accounts P) {ft : FileType} {n : ℕ}
    {db' : PhyDatabase} (h : db.allocatePages P ft n = .ok db') :
    (db.records ft).numPages + n < maxPageNo P := by
  obtain ⟨records, hrec, -⟩ := bind_inv h
  refine DiskFile.lt_of_grow hrec (hA.records_lt ft) ?_
  obtain ⟨S, rfl, -, hS, -⟩ := hP.bounds
  omega

theorem EmptyIsZero.allocate (hz : db.EmptyIsZero) {ft : FileType} {n k : ℕ}
    {db' : PhyDatabase} (hR : (db.records ft).GrownBy n (db'.records ft))
    (hH : (db.header ft).GrownBy k (db'.header ft))
    (ho : ∀ gt, gt ≠ ft → db'.records gt = db.records gt ∧ db'.header gt = db.header gt) :
    db'.EmptyIsZero := by
  intro gt h0
  by_cases h : gt = ft
  · subst h
    rw [hR.numPages] at h0
    rw [hH.page 0]
    exact hz gt (by omega)
  · rw [(ho gt h).1] at h0
    rw [(ho gt h).2]
    exact hz gt h0

/-! ### A fresh database -/

/-- A database without records: one header page for each file type. -/
def fresh (P : ℕ) : PhyDatabase :=
  { catalogue := ⟨[zeroPage]⟩, header := fun _ => ⟨[zeroPage]⟩
    records := fun _ => DiskFile.create, remainingHeaderBits := fun _ => P * charBit }

theorem grow_create (hP : IsPageSize P) :
    DiskFile.create.grow P 1 = .ok ⟨[zeroPage]⟩ := by
  have hmax := hP.two_pow_le_maxPageNo
  obtain ⟨S, -, -, -, hP'⟩ := hP.bounds
  rw [DiskFile.grow, if_neg, if_neg (by omega)]
  · simp [DiskFile.create]
  · have hzero : DiskFile.create.numPages = 0 := rfl
    omega

theorem create_eq (hP : IsPageSize P) : create P = .ok (fresh P) := by
  have hg := grow_create hP
  have hsize : DiskFile.create.fileSize P = 0 := Nat.zero_mul P
  simp only [create, hg, ok_bind, createInternal, validate, validateEmptyHeader, hsize, ne_eq,
    not_true_eq_false, if_false, true_or, if_true, pure_bind]
  have hne : Function.update (fun _ => DiskFile.create) FileType.node
      (⟨[zeroPage]⟩ : DiskFile) FileType.relationship = DiskFile.create := rfl
  simp only [hne, hsize, not_true_eq_false, if_false, hg, ok_bind, pure_bind, if_true]
  refine congrArg Except.ok ?_
  rw [fresh, PhyDatabase.mk.injEq]
  refine ⟨rfl, ?_, rfl, ?_⟩
  · funext ft
    cases ft <;> rfl
  · funext ft
    cases ft <;> rfl

theorem fresh_accounts (hP : IsPageSize P) : (fresh P).Accounts P where
  balanced ft := by
    have hslots : (fresh P).numSlots P ft = 0 := Nat.zero_mul _
    rw [hslots]
    have hone : ((fresh P).header ft).numPages = 1 := rfl
    have hzero : (fresh P).catalogue.page 0 = zeroPage := rfl
    refine ⟨?_, by rw [hone, Nat.one_mul, Nat.zero_add]; rfl⟩
    simp [hzero, entryOf, loadWord, zeroPage]
  catalogue := rfl
  header_pos _ := Nat.zero_lt_one
  records_lt _ := lt_of_lt_of_le (Nat.two_pow_pos 32) hP.two_pow_le_maxPageNo
  remaining_le _ := le_rfl
  remaining_lt _ h := absurd rfl h

theorem fresh_emptyIsZero : (fresh P).EmptyIsZero := fun _ _ => rfl

/-! ### Opening what was closed -/

theorem validate_eq (hP : IsPageSize P) (hA : db.Accounts P) (hz : db.EmptyHeader P) (ft : FileType)
    (r : FileType → ℕ) :
    validate P true { db with remainingHeaderBits := r } ft =
      .ok { db with remainingHeaderBits := Function.update r ft (db.remainingHeaderBits ft) } := by
  have hcat : (0 : ℕ) < db.catalogue.numPages := by rw [hA.catalogue]; decide
  have hbuf := DiskFile.readPage_ok hcat (Nat.zero_le (maxPageNo P))
  obtain ⟨hentry, hbal⟩ := hA.balanced ft
  have hbits := (header_lt_of_balanced hP (hA.records_lt ft) hbal (hA.remaining_le ft)).2
  have hpos := hA.header_pos ft
  obtain ⟨S, rfl, hS, hS', -⟩ := hP.bounds
  have hhead : (db.header ft).fileSize (16 * S) ≠ 0 := by
    simp only [DiskFile.fileSize]
    exact (Nat.mul_pos hpos (by omega)).ne'
  by_cases h0 : (db.records ft).numPages = 0
  · -- an empty record file: the header is one page of zeros, all of it unused
    have hslots : db.numSlots (16 * S) ft = 0 := by rw [numSlots, h0, Nat.zero_mul]
    have hone : (db.header ft).numPages = 1 := by
      have hr := hA.remaining_le ft
      rw [hslots, Nat.zero_add, ] at hbal
      rw [← hbal, Nat.mul_assoc, charBit] at hr
      have : (db.header ft).numPages ≤ 1 := by
        by_contra hgt
        have : 2 * (16 * S * 8) ≤ (db.header ft).numPages * (16 * S * 8) :=
          Nat.mul_le_mul_right _ (by omega)
        omega
      omega
    have hrec : (db.records ft).fileSize (16 * S) = 0 := by
      rw [DiskFile.fileSize, h0, Nat.zero_mul]
    have hsize : (db.header ft).fileSize (16 * S) = 16 * S := by
      rw [DiskFile.fileSize, hone, Nat.one_mul]
    have hentry0 : entryOf (db.catalogue.page 0) ft = 0 :=
      BitVec.eq_of_toNat_eq (by rw [hentry, hslots]; rfl)
    have hpage := DiskFile.readPage_ok hpos (Nat.zero_le (maxPageNo (16 * S)))
    have hrem : db.remainingHeaderBits ft = 16 * S * charBit := by
      rw [hslots, Nat.zero_add, hone, Nat.one_mul] at hbal
      exact hbal.symm
    have hS0 : S ≠ 0 := by omega
    have hzero : ((List.range (16 * S)).any fun i => (db.header ft).page 0 i != 0) = false := by
      rw [List.any_eq_false]
      intro i hi
      rw [hz ft h0 i (List.mem_range.mp hi)]
      decide
    simp only [validate, validateEmptyHeader, hrec, hsize, hbuf, hpage, hentry0, hrem, ok_bind,
      hzero]
    simp [hS0]
    rfl
  · -- otherwise the counter is computed from the sizes
    have hrec : (db.records ft).fileSize (16 * S) ≠ 0 := by
      simp only [DiskFile.fileSize]
      exact (Nat.mul_pos (by omega) (by omega)).ne'
    have hn : (db.records ft).fileSize (16 * S) / slotSize = db.numSlots (16 * S) ft := by
      rw [DiskFile.fileSize, numSlots, hS, slotSize, show (db.records ft).numPages * (16 * S) =
        16 * ((db.records ft).numPages * S) by ring, Nat.mul_div_cancel_left _ (by decide)]
    have hrem : ((db.header ft).fileSize (16 * S) * charBit % 2 ^ 64 + 2 ^ 64 -
        db.numSlots (16 * S) ft) % 2 ^ 64 = db.remainingHeaderBits ft := by
      rw [DiskFile.fileSize]
      omega
    simp only [validate, validateHeader, hrec, hhead, hbuf, hn, hentry, hrem, ok_bind, or_self,
      if_false, ne_eq, not_true_eq_false, Bool.true_eq_false, pure_bind, if_true]
    rfl

/-- **Opening restores the database that was closed.** -/
theorem openFiles_close (hP : IsPageSize P) (hA : db.Accounts P) (hz : db.EmptyHeader P) :
    openFiles P (some db.close) = .ok db := by
  have h₁ := validate_eq hP hA hz .node fun _ => 0
  have h₂ := validate_eq hP hA hz .relationship
    (Function.update (fun _ => 0) .node (db.remainingHeaderBits .node))
  simp only [openFiles, createInternal, close] at h₁ ⊢
  rw [h₁, ok_bind, h₂]
  refine congrArg Except.ok ?_
  have e : Function.update (Function.update (fun _ => 0) FileType.node
      (db.remainingHeaderBits .node)) FileType.relationship
      (db.remainingHeaderBits .relationship) = db.remainingHeaderBits := by
    funext ft
    cases ft <;> rfl
  rw [e]

end PhyDatabase

/-! ### Runs -/

/-- One database by its name: the files that are there, or the handle that is open on them. -/
inductive Session where
  | closed (files : Option DbFiles)
  | opened (db : PhyDatabase)

/-- The calls of `physical_database.h`. -/
inductive Session.Call where
  | create
  | allocatePages (ft : FileType) (numPages : ℕ)
  | close
  | openFiles

namespace Session

/-- The files by the database's name. -/
def files : Session → Option DbFiles
  | closed files => files
  | opened db => some db.close

/-- One call.  Without a handle there is no `phy_database` to pass. -/
def step (P : ℕ) (s : Session) : Call → Except Fault Session
  | .create => .opened <$> PhyDatabase.create P
  | .openFiles => .opened <$> PhyDatabase.openFiles P s.files
  | .allocatePages ft numPages =>
      match s with
      | opened db => .opened <$> db.allocatePages P ft numPages
      | closed _ => .error (.exit "physical database - allocate: Invalid arguments!")
  | .close =>
      match s with
      | opened db => .ok (.closed (some db.close))
      | closed _ => .error (.exit "physical database - close: Invalid arguments!")

/-- Any sequence of calls. -/
def run (P : ℕ) (calls : List Call) (s : Session) : Except Fault Session :=
  calls.foldlM (step P) s

/-- The files are those of a database that keeps its accounts, open or closed. -/
def Good (P : ℕ) (s : Session) : Prop :=
  (s = .closed none) ∨ ∃ db : PhyDatabase, db.Accounts P ∧ db.EmptyIsZero ∧
    (s = .opened db ∨ s = .closed (some db.close))

variable {P : ℕ} {s s' : Session} {calls : List Call}

theorem step_keeps (hP : IsPageSize P) (hs : s.Good P) {c : Call} (h : s.step P c = .ok s') :
    s'.Good P := by
  cases c with
  | create =>
      rw [step, PhyDatabase.create_eq hP] at h
      cases h
      exact .inr ⟨_, PhyDatabase.fresh_accounts hP, PhyDatabase.fresh_emptyIsZero, .inl rfl⟩
  | openFiles =>
      rcases hs with rfl | ⟨db, hA, hz, rfl | rfl⟩
      · cases h
      all_goals
        simp only [step, files, PhyDatabase.openFiles_close hP hA hz.emptyHeader] at h
        cases h
        exact .inr ⟨db, hA, hz, .inl rfl⟩
  | close =>
      rcases hs with rfl | ⟨db, hA, hz, rfl | rfl⟩
      · cases h
      · cases h
        exact .inr ⟨db, hA, hz, .inr rfl⟩
      · cases h
  | allocatePages ft n =>
      rcases hs with rfl | ⟨db, hA, hz, rfl | rfl⟩
      · cases h
      · simp only [step] at h
        obtain ⟨db', hdb, hs'⟩ := bind_inv h
        cases hs'
        obtain ⟨db'', hok, hA', hR, ⟨k, hH⟩, ho⟩ :=
          PhyDatabase.allocatePages_spec hP hA (PhyDatabase.allocatePages_inv hP hA hdb)
        rw [hok] at hdb
        cases hdb
        exact .inr ⟨_, hA', hz.allocate hR hH ho, .inl rfl⟩
      · cases h

theorem run_keeps (hP : IsPageSize P) (hs : s.Good P) (h : run P calls s = .ok s') :
    s'.Good P := by
  induction calls generalizing s with
  | nil => cases h; exact hs
  | cons c cs ih =>
      rw [run, List.foldlM_cons] at h
      obtain ⟨s₁, h₁, h₂⟩ := bind_inv h
      exact ih (step_keeps hP hs h₁) h₂

theorem run_append (cs cs' : List Call) :
    run P (cs ++ cs') s = run P cs s >>= run P cs' :=
  List.foldlM_append

/-- **The accounts of every run.**  A database reached by any calls is in balance, an `openFiles`
after a `close` gives it back, remaining header bits included, and the next allocation succeeds
unless it exceeds `MAX_PAGE_NO`. -/
theorem run_accounts (hP : IsPageSize P) {db : PhyDatabase}
    (h : run P calls (.closed none) = .ok (.opened db)) :
    db.Balanced P ∧ run P (calls ++ [.close, .openFiles]) (.closed none) = .ok (.opened db) ∧
      ∀ ft n, (db.records ft).numPages + n < maxPageNo P →
        ∃ db', run P (calls ++ [.allocatePages ft n]) (.closed none) = .ok (.opened db') := by
  simp only [run_append, h, ok_bind]
  rcases run_keeps hP (.inl rfl) h with h | ⟨db', hA, hz, h | h⟩
  · cases h
  · cases h
    refine ⟨hA.balanced, ?_, fun ft n hn => ?_⟩
    · simp only [run, List.foldlM_cons, step, ok_bind, files,
        PhyDatabase.openFiles_close hP hA hz.emptyHeader]
      rfl
    · obtain ⟨db', hok, -⟩ := PhyDatabase.allocatePages_spec hP hA hn
      exact ⟨db', by simp only [run, List.foldlM_cons, step, hok]; rfl⟩
  · cases h

/-- A database of 4 KiB pages with 130 pages of nodes, closed and opened again. -/
theorem run_accounts_reopened :
    ∃ db, run 4096 [.create, .allocatePages .node 130, .close, .openFiles] (.closed none) =
      .ok (.opened db) ∧ db.Balanced 4096 := by
  have hP : IsPageSize 4096 := ⟨12, by decide, by decide, by norm_num⟩
  have hcreate : run 4096 [.create] (.closed none) = .ok (.opened (PhyDatabase.fresh 4096)) := by
    simp only [run, List.foldlM_cons, step, PhyDatabase.create_eq hP]
    rfl
  obtain ⟨db, hdb⟩ := (run_accounts hP hcreate).2.2 .node 130 (by
    simp [PhyDatabase.fresh, DiskFile.create, DiskFile.numPages, maxPageNo])
  obtain ⟨hb, hopen, -⟩ := run_accounts hP hdb
  exact ⟨db, hopen, hb⟩

end Session

end Goedb
