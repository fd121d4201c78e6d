import Goedb.Access.Store
import Goedb.Access.WriteBits
import Goedb.Io.Accounting

/-!
# Access — the heap file over flat pages is the record store

`Store.of` reads the bits and the words of a heap file out of its pages.  Every call of `RecordOp`
agrees with it (`HeapFile.step_agrees`), so every function of the heap file does
(`HeapFile.run_agrees`): it fails on the pages exactly when it fails on the store, and otherwise
returns the same answer and leaves pages that read as the store it leaves.
-/

namespace Goedb

open Lib

/-- The store that the pages hold. -/
def Store.of (hf : HeapFile PhyDatabase) : Store where
  pages ft := (hf.cache.records ft).numPages
  bit ft n := pageBit ((hf.cache.header ft).page (n / 32768)) (n % 32768)
  word ft n := loadWord ((hf.cache.records ft).page (n / 512)) (n % 512 * 8)
  counters := hf.counters

/-- The pages of the heap file keep their accounts. -/
def HeapFile.Good (hf : HeapFile PhyDatabase) : Prop := hf.cache.Accounts 4096

theorem isPageSize_4096 : IsPageSize 4096 := ⟨12, by decide, by decide, by norm_num⟩

namespace PhyDatabase

variable {db : PhyDatabase}

theorem Accounts.headerPages_eq (hA : db.Accounts 4096) (ft : FileType) :
    (db.header ft).numPages = Store.headerPages (db.records ft).numPages := by
  have hb := (hA.balanced ft).2
  have h₁ := hA.remaining_le ft
  have h₂ := hA.remaining_lt ft
  have h₃ := hA.header_pos ft
  simp only [numSlots, show slotsPerPage 4096 = 256 from rfl, charBit] at hb h₁ h₂
  rw [Store.headerPages]
  omega

theorem Accounts.setPage (hA : db.Accounts 4096) {k : PageKey} (hk : k.fk ≠ .catalogue)
    (data : PageData) : (db.setPage k data).Accounts 4096 := by
  have hh : ∀ ft, ((db.setPage k data).header ft).numPages = (db.header ft).numPages := fun ft =>
    numPages_file_setPage db k ⟨.header, ft, 0⟩ data
  have hr : ∀ ft, ((db.setPage k data).records ft).numPages = (db.records ft).numPages := fun ft =>
    numPages_file_setPage db k ⟨.records, ft, 0⟩ data
  have hc : (db.setPage k data).catalogue = db.catalogue := by
    obtain ⟨fk, ft, n⟩ := k
    cases fk
    · exact absurd rfl hk
    · rfl
    · rfl
  have hb : (db.setPage k data).remainingHeaderBits = db.remainingHeaderBits := by
    obtain ⟨fk, ft, n⟩ := k
    cases fk <;> rfl
  constructor
  · intro ft
    have := hA.balanced ft
    simpa only [numSlots, hh, hr, hc, hb] using this
  · rw [hc]; exact hA.catalogue
  · intro ft; rw [hh]; exact hA.header_pos ft
  · intro ft; rw [hr]; exact hA.records_lt ft
  · intro ft; rw [hb]; exact hA.remaining_le ft
  · intro ft; rw [hr, hb]; exact hA.remaining_lt ft

/-- Every page of the header and the record files is below `MAX_PAGE_NO`. -/
theorem Accounts.lt_maxPageNo (hA : db.Accounts 4096) {k : PageKey} (hk : k.fk ≠ .catalogue)
    (h : db.InFile k) : k.pageNo < maxPageNo 4096 := by
  obtain ⟨fk, ft, n⟩ := k
  cases fk with
  | catalogue => exact absurd rfl hk
  | header =>
      have := (header_lt_of_balanced isPageSize_4096 (hA.records_lt ft) (hA.balanced ft).2
        (hA.remaining_le ft)).1
      exact lt_trans h this
  | records => exact lt_trans h (hA.records_lt ft)

section Pins

variable {k : PageKey} (hA : db.Accounts 4096) (hk : k.fk ≠ .catalogue)
include hA hk

theorem run_pinPage (h : db.InFile k) :
    (Prog.perform (.pinPage k)).run (flat 4096) db = .ok ((), db) := by
  rw [Prog.run_perform, flat, if_neg (by simp [hk]), checkBounds_ok (hA.lt_maxPageNo hk h) h]
  rfl

theorem run_unpinPage (h : db.InFile k) :
    (Prog.perform (.unpinPage k)).run (flat 4096) db = .ok ((), db) := by
  rw [Prog.run_perform, flat, checkBounds_ok (hA.lt_maxPageNo hk h) h]
  rfl

omit hA in
theorem run_pinPage_error (h : ¬ db.InFile k) {α : Type} (f : Unit → Prog PageOp α) :
    ∃ e, (Prog.perform (.pinPage k) >>= f).run (flat 4096) db = .error e := by
  obtain ⟨e, he⟩ := checkBounds_error (P := 4096) h
  refine ⟨e, Prog.run_bind_error _ ?_ f⟩
  rw [Prog.run_perform, flat, if_neg (by simp [hk]), he]
  rfl

/-- Code between a pin and an unpin of a page that is there. -/
theorem run_pinned {α : Type} {x : Prog PageOp α} {a : α} {db' : PhyDatabase} (h : db.InFile k)
    (hx : x.run (flat 4096) db = .ok (a, db')) (hA' : db'.Accounts 4096) (h' : db'.InFile k) :
    (do Prog.perform (.pinPage k)
        let a ← x
        Prog.perform (.unpinPage k)
        return a : Prog PageOp α).run (flat 4096) db = .ok (a, db') := by
  rw [Prog.run_bind_ok _ (run_pinPage hA hk h), Prog.run_bind_ok _ hx,
    Prog.run_bind_ok _ (run_unpinPage hA' hk h'), Prog.run_pure]

theorem run_pinned_unit {x : Prog PageOp Unit} {db' : PhyDatabase} (h : db.InFile k)
    (hx : x.run (flat 4096) db = .ok ((), db')) (hA' : db'.Accounts 4096) (h' : db'.InFile k) :
    (do Prog.perform (.pinPage k)
        x
        Prog.perform (.unpinPage k) : Prog PageOp Unit).run (flat 4096) db = .ok ((), db') := by
  rw [Prog.run_bind_ok _ (run_pinPage hA hk h), Prog.run_bind_ok _ hx, run_unpinPage hA' hk h']

theorem run_pinned_error {α β : Type} {x : Prog PageOp α} {f : α → Prog PageOp β}
    (hx : ∃ e, x.run (flat 4096) db = .error e) :
    ∃ e, (Prog.perform (.pinPage k) >>= fun _ => x >>= f).run (flat 4096) db = .error e := by
  by_cases h : db.InFile k
  · obtain ⟨e, he⟩ := hx
    exact ⟨e, by rw [Prog.run_bind_ok _ (run_pinPage hA hk h), Prog.run_bind_error _ he]⟩
  · exact run_pinPage_error hk h _

end Pins

/-! ### Words -/

theorem run_requirePinned (k : PageKey) (msg : String) :
    (Prog.perform (.requirePinned k msg)).run (flat 4096) db = .ok ((), db) := rfl

theorem run_readUlong (db : PhyDatabase) {k : PageKey} {off : ℕ} (h : off ≤ 4088) (msg : String) :
    (readUlong 4096 msg k off).run (flat 4096) db =
      .ok (loadWord ((db.file k.fk k.ft).page k.pageNo) off, db) := by
  rw [readUlong, if_neg (by omega)]
  rfl

theorem run_readUlong_error (db : PhyDatabase) {k : PageKey} {off : ℕ} (h : 4088 < off)
    (msg : String) :
    (readUlong 4096 msg k off).run (flat 4096) db = .error (.exit msg) := by
  rw [readUlong, if_pos (by omega)]
  rfl

theorem run_writeUlong (db : PhyDatabase) {k : PageKey} {off : ℕ} (h : off ≤ 4088) (msg : String)
    (v : Ulong) :
    (writeUlong 4096 msg k off v).run (flat 4096) db =
      .ok ((), db.setPage k (storeWord ((db.file k.fk k.ft).page k.pageNo) off v)) := by
  rw [writeUlong, if_neg (by omega)]
  rfl

theorem run_writeUlong_error {k : PageKey} {off : ℕ} (h : 4088 < off) (msg : String) (v : Ulong) :
    (writeUlong 4096 msg k off v).run (flat 4096) db = .error (.exit msg) := by
  rw [writeUlong, if_pos (by omega)]
  rfl

/-- The pages with words written to one of them, one after the other. -/
def setWordsAt (db : PhyDatabase) (k : PageKey) (off : ℕ) : List Ulong → PhyDatabase
  | [] => db
  | w :: ws =>
      (db.setPage k (storeWord ((db.file k.fk k.ft).page k.pageNo) off w)).setWordsAt k (off + 8) ws

end PhyDatabase

namespace Store

theorem setWords_nil (s : Store) (ft : FileType) (n : ℕ) : s.setWords ft n [] = s := by
  refine eq_of rfl (fun _ _ => rfl) (fun gt m => ?_) rfl
  exact if_neg (by simp only [List.length_nil]; omega)

theorem setWords_cons (s : Store) (ft : FileType) (n : ℕ) (w : Ulong) (ws : List Ulong) :
    (s.setWords ft n [w]).setWords ft (n + 1) ws = s.setWords ft n (w :: ws) := by
  refine eq_of rfl (fun _ _ => rfl) (fun gt m => ?_) rfl
  simp only [setWords, List.length_cons, List.length_nil]
  by_cases hg : gt = ft
  · rcases lt_trichotomy m n with h | rfl | h
    · simp [hg, show ¬ n + 1 ≤ m by omega, show ¬ n ≤ m by omega]
    · simp [hg]
    · obtain ⟨d, rfl⟩ : ∃ d, m = n + 1 + d := ⟨m - (n + 1), by omega⟩
      have e : n + 1 + d - n = d + 1 := by omega
      simp only [hg, true_and, e, List.getD_cons_succ, Nat.add_sub_cancel_left]
      by_cases hd : d < ws.length
      · rw [if_pos (by omega), if_pos (by omega)]
      · rw [if_neg (by omega), if_neg (by omega), if_neg (by omega)]
  · simp [hg]

/-- A word stored to a page of records. -/
theorem of_storeWord (hf : HeapFile PhyDatabase) {ft : FileType} {p j : ℕ}
    (hp : hf.cache.InFile ⟨.records, ft, p⟩) (hj : j < 512) (w : Ulong) :
    Store.of ⟨hf.cache.setPage ⟨.records, ft, p⟩
        (storeWord ((hf.cache.records ft).page p) (j * 8) w), hf.counters⟩ =
      (Store.of hf).setWords ft (p * 512 + j) [w] := by
  have hpage := fun k' =>
    PhyDatabase.page_file_setPage (k := ⟨.records, ft, p⟩) hp (by simp) k'
      (storeWord ((hf.cache.records ft).page p) (j * 8) w)
  refine eq_of ?_ (fun gt m => ?_) (fun gt m => ?_) rfl
  · funext gt
    exact PhyDatabase.numPages_file_setPage hf.cache ⟨.records, ft, p⟩ ⟨.records, gt, 0⟩ _
  · have := hpage ⟨.header, gt, m / 32768⟩
    simp only [PhyDatabase.file, PageKey.mk.injEq, reduceCtorEq, false_and, if_false] at this
    simp only [of, setWords, this]
  · have := hpage ⟨.records, gt, m / 512⟩
    simp only [PhyDatabase.file, PageKey.mk.injEq, true_and] at this
    simp only [of, setWords, this, List.length_singleton]
    by_cases hg : gt = ft
    · subst hg
      by_cases hm : m / 512 = p
      · subst hm
        by_cases hmj : m % 512 = j
        · subst hmj
          rw [if_pos (by simp), if_pos ⟨rfl, by omega, by omega⟩, loadWord_storeWord,
            show m - (m / 512 * 512 + m % 512) = 0 by omega]
          rfl
        · rw [if_pos (by simp), if_neg (by omega), loadWord_storeWord_of_disjoint (by omega)]
      · rw [if_neg (by simp [hm]), if_neg (by omega)]
    · rw [if_neg (by simp [hg]), if_neg (by simp [hg])]

end Store

/-! ### Reading and writing records -/

section Records

variable {db : PhyDatabase} {c : Counters}

/-- Words written to a page of records. -/
theorem run_writeWords {ft : FileType} {p : ℕ} (ws : List (String × Ulong)) :
    ∀ {db : PhyDatabase} {j : ℕ}, db.Accounts 4096 → db.InFile ⟨.records, ft, p⟩ →
      j + ws.length ≤ 512 →
      ∃ db', (writeWords 4096 ⟨.records, ft, p⟩ (j * 8) ws).run (PhyDatabase.flat 4096) db =
          .ok ((), db') ∧ db'.Accounts 4096 ∧ db'.InFile ⟨.records, ft, p⟩ ∧
        Store.of ⟨db', c⟩ = (Store.of ⟨db, c⟩).setWords ft (p * 512 + j) (ws.map Prod.snd) := by
  induction ws with
  | nil =>
      intro db j hA hp _
      exact ⟨db, rfl, hA, hp, (Store.setWords_nil _ _ _).symm⟩
  | cons w ws ih =>
      intro db j hA hp hj
      obtain ⟨msg, w⟩ := w
      rw [List.length_cons] at hj
      have hof := Store.of_storeWord ⟨db, c⟩ hp (show j < 512 by omega) w
      have hrun := PhyDatabase.run_writeUlong db (k := ⟨.records, ft, p⟩)
        (show j * 8 ≤ 4088 by omega) msg w
      set db₁ := db.setPage ⟨.records, ft, p⟩ (storeWord ((db.records ft).page p) (j * 8) w)
        with hdb₁
      have hA₁ : db₁.Accounts 4096 := hA.setPage (by simp) _
      have hp₁ : db₁.InFile ⟨.records, ft, p⟩ := by
        rw [PhyDatabase.InFile, hdb₁, PhyDatabase.numPages_file_setPage]
        exact hp
      obtain ⟨db', hr, hA', hp', he⟩ := ih (j := j + 1) hA₁ hp₁ (by omega)
      refine ⟨db', ?_, hA', hp', ?_⟩
      · rw [writeWords, Prog.run_bind_ok _ hrun, show j * 8 + 8 = (j + 1) * 8 by omega]
        exact hr
      · rw [he, hof, show p * 512 + (j + 1) = p * 512 + j + 1 by omega, Store.setWords_cons]
        rfl

/-- Words that do not fit on the page. -/
theorem run_writeWords_error {k : PageKey} (ws : List (String × Ulong)) :
    ∀ {db : PhyDatabase} {j : ℕ}, j ≤ 512 → 512 < j + ws.length →
      ∃ e, (writeWords 4096 k (j * 8) ws).run (PhyDatabase.flat 4096) db = .error e := by
  induction ws with
  | nil =>
      intro db j _ hj
      rw [List.length_nil] at hj
      omega
  | cons w ws ih =>
      intro db j hj hw
      obtain ⟨msg, w⟩ := w
      rw [List.length_cons] at hw
      rw [writeWords]
      by_cases h : j < 512
      · rw [Prog.run_bind_ok _ (PhyDatabase.run_writeUlong db (by omega) msg w),
          show j * 8 + 8 = (j + 1) * 8 by omega]
        exact ih (by omega) (by omega)
      · exact ⟨_, Prog.run_bind_error _ (PhyDatabase.run_writeUlong_error (by omega) msg w) _⟩

theorem recordKey_inFile {ft : FileType} {id : Ulong} :
    db.InFile (OnPages.recordKey ft id) ↔ id.toNat / 256 < (db.records ft).numPages := by
  rw [PhyDatabase.InFile, OnPages.recordKey, pageOf_eq]
  rfl

/-- A word of a record in its page. -/
theorem word_of (db : PhyDatabase) (c : Counters) (ft : FileType) (id : Ulong) {i : ℕ}
    (hi : id.toNat % 256 * 2 + i < 512) :
    loadWord ((db.records ft).page (pageOf id)) (slotOf id * slotSize + i * 8) =
      (Store.of ⟨db, c⟩).word ft (2 * id.toNat + i) := by
  rw [pageOf_eq, slotOf_eq, slotSize, Store.of]
  simp only
  rw [show (2 * id.toNat + i) / 512 = id.toNat / 256 by omega,
    show (2 * id.toNat + i) % 512 * 8 = id.toNat % 256 * 16 + i * 8 by omega]

theorem run_readNode (hA : db.Accounts 4096) {id : Ulong}
    (h : id.toNat / 256 < (db.records .node).numPages) :
    (OnPages.readNode 4096 id).run (PhyDatabase.flat 4096) db =
      .ok ((Store.of ⟨db, c⟩).nodeAt id, db) := by
  have hin := recordKey_inFile.mpr h
  refine PhyDatabase.run_pinned hA (by simp [OnPages.recordKey]) hin ?_ hA hin
  have hs : slotOf id * slotSize + 8 ≤ 4088 := by
    rw [slotOf_eq, slotSize]
    omega
  have h₀ := word_of db c .node id (i := 0) (by omega)
  have h₁ := word_of db c .node id (i := 1) (by omega)
  have hr := fun off (h : off ≤ 4088) msg => PhyDatabase.run_readUlong db
    (k := OnPages.recordKey .node id) h msg
  simp only [nodeRead]
  rw [Prog.run_bind_ok _ (PhyDatabase.run_requirePinned _ _),
    Prog.run_bind_ok _ (hr _ (le_trans (Nat.le_add_right _ 8) hs) _),
    Prog.run_bind_ok _ (hr _ hs _), Prog.run_pure]
  exact congrArg Except.ok (Prod.ext (congrArg₂ (Node.mk id) h₀ h₁) rfl)

theorem run_readRelationship (hA : db.Accounts 4096) {id : Ulong}
    (h : id.toNat / 256 < (db.records .relationship).numPages) (hs : id.toNat % 256 ≤ 252) :
    (OnPages.readRelationship 4096 id).run (PhyDatabase.flat 4096) db =
      .ok ((Store.of ⟨db, c⟩).relAt id, db) := by
  have hin := recordKey_inFile.mpr h
  refine PhyDatabase.run_pinned hA (by simp [OnPages.recordKey]) hin ?_ hA hin
  have hw := fun i (hi : i < 8) => word_of db c .relationship id (i := i) (by omega)
  have hw₀ := hw 0 (by omega)
  rw [Nat.zero_mul, Nat.add_zero, Nat.add_zero] at hw₀
  have hr := fun off (h : off ≤ 4088) msg => PhyDatabase.run_readUlong db
    (k := OnPages.recordKey .relationship id) h msg
  have hb : slotOf id * slotSize + 56 ≤ 4088 := by
    rw [slotOf_eq, slotSize]
    omega
  simp only [relationshipRead]
  rw [Prog.run_bind_ok _ (hr (slotOf id * slotSize) (by omega) _),
    Prog.run_bind_ok _ (hr (slotOf id * slotSize + 8) (by omega) _),
    Prog.run_bind_ok _ (hr (slotOf id * slotSize + 8 + 8) (by omega) _),
    Prog.run_bind_ok _ (hr (slotOf id * slotSize + 8 + 8 + 8) (by omega) _),
    Prog.run_bind_ok _ (hr (slotOf id * slotSize + 8 + 8 + 8 + 8) (by omega) _),
    Prog.run_bind_ok _ (hr (slotOf id * slotSize + 8 + 8 + 8 + 8 + 8) (by omega) _),
    Prog.run_bind_ok _ (hr (slotOf id * slotSize + 8 + 8 + 8 + 8 + 8 + 8) (by omega) _),
    Prog.run_bind_ok _ (hr (slotOf id * slotSize + 8 + 8 + 8 + 8 + 8 + 8 + 8) (by omega) _),
    Prog.run_pure]
  simp only [Store.relAt, ← hw₀, ← hw 1 (by omega), ← hw 2 (by omega),
    ← hw 3 (by omega), ← hw 4 (by omega), ← hw 5 (by omega), ← hw 6 (by omega), ← hw 7 (by omega)]
  rfl

theorem run_readRelationship_error (hA : db.Accounts 4096) {id : Ulong}
    (hs : 252 < id.toNat % 256) :
    ∃ e, (OnPages.readRelationship 4096 id).run (PhyDatabase.flat 4096) db = .error e := by
  refine PhyDatabase.run_pinned_error hA (by simp [OnPages.recordKey]) ?_
  have hr := fun off (h : off ≤ 4088) msg => PhyDatabase.run_readUlong db
    (k := OnPages.recordKey .relationship id) h msg
  have he := fun off (h : 4088 < off) msg => PhyDatabase.run_readUlong_error db
    (k := OnPages.recordKey .relationship id) h msg
  obtain hs | hs | hs : slotOf id = 253 ∨ slotOf id = 254 ∨ slotOf id = 255 := by
    rw [slotOf_eq]
    omega
  all_goals
    simp [relationshipRead, hs, slotSize, Prog.run_bind, hr, he, Except.bind]

/-- The header page of a record's first slot. -/
theorem slotOf_mul_slotSize (id : Ulong) : slotOf id * slotSize = id.toNat % 256 * 2 * 8 := by
  rw [slotOf_eq, slotSize]
  omega

/-- The words of a record in the record file. -/
theorem run_writeRecord (hA : db.Accounts 4096) {ft : FileType} {id : Ulong}
    (h : id.toNat / 256 < (db.records ft).numPages) (ws : List (String × Ulong))
    (hfits : id.toNat % 256 * 2 + ws.length ≤ 512) :
    ∃ db', (writeWords 4096 (OnPages.recordKey ft id) (slotOf id * slotSize) ws).run
        (PhyDatabase.flat 4096) db = .ok ((), db') ∧ db'.Accounts 4096 ∧
      db'.InFile (OnPages.recordKey ft id) ∧
      Store.of ⟨db', c⟩ = (Store.of ⟨db, c⟩).setWords ft (2 * id.toNat) (ws.map Prod.snd) := by
  obtain ⟨db', hr, hA', hp, he⟩ := run_writeWords (c := c) ws hA (recordKey_inFile.mpr h) hfits
  refine ⟨db', ?_, hA', hp, ?_⟩
  · rw [slotOf_mul_slotSize]
    exact hr
  · rw [he, pageOf_eq, show id.toNat / 256 * 512 + id.toNat % 256 * 2 = 2 * id.toNat by omega]

theorem run_writeNode (hA : db.Accounts 4096) {node : Node}
    (h : node.id.toNat / 256 < (db.records .node).numPages) :
    ∃ db', (OnPages.writeNode 4096 node).run (PhyDatabase.flat 4096) db = .ok ((), db') ∧
      db'.Accounts 4096 ∧ Store.of ⟨db', c⟩ = (Store.of ⟨db, c⟩).setNode node := by
  obtain ⟨db', hr, hA', hp, he⟩ := run_writeRecord (c := c) hA h
    [("page - write ulong: Invalid arguments!", node.firstRelationship),
      ("page - write ulong: Invalid arguments!", node.label)]
    (by simp only [List.length_cons, List.length_nil]; omega)
  refine ⟨db', PhyDatabase.run_pinned_unit hA (by simp [OnPages.recordKey])
    (recordKey_inFile.mpr h) ?_ hA' hp, hA', he⟩
  rw [nodeWrite, Prog.run_bind_ok _ (PhyDatabase.run_requirePinned _ _)]
  exact hr

theorem run_writeRelationship (hA : db.Accounts 4096) {rel : Relationship}
    (h : rel.id.toNat / 256 < (db.records .relationship).numPages) (hs : rel.id.toNat % 256 ≤ 252) :
    ∃ db', (OnPages.writeRelationship 4096 rel).run (PhyDatabase.flat 4096) db = .ok ((), db') ∧
      db'.Accounts 4096 ∧ Store.of ⟨db', c⟩ = (Store.of ⟨db, c⟩).setRel rel := by
  obtain ⟨db', hr, hA', hp, he⟩ := run_writeRecord (c := c) hA h
    [("page - write ulong: Invalid arguments!", rel.sourceNode),
      ("page - write ulong: Invalid arguments!", rel.targetNode),
      ("page - write ulong: Invalid arguments!", rel.prevRelSource),
      ("page - write ulong: Invalid arguments!", rel.nextRelSource),
      ("page - write ulong: Invalid arguments!", rel.prevRelTarget),
      ("page - write ulong: Invalid arguments!", rel.nextRelTarget),
      ("page - write double: Invalid arguments!", rel.weight),
      ("page - write ulong: Invalid arguments!", rel.label)]
    (by simp only [List.length_cons, List.length_nil]; omega)
  exact ⟨db', PhyDatabase.run_pinned_unit hA (by simp [OnPages.recordKey])
    (recordKey_inFile.mpr h) hr hA' hp, hA', he⟩

/-- A relationship that leaves its page is not written. -/
theorem run_writeRelationship_error (hA : db.Accounts 4096) {rel : Relationship}
    (hs : 252 < rel.id.toNat % 256) :
    ∃ e, (OnPages.writeRelationship 4096 rel).run (PhyDatabase.flat 4096) db = .error e := by
  refine PhyDatabase.run_pinned_error hA (by simp [OnPages.recordKey]) ?_
  rw [relationshipWrite, slotOf_mul_slotSize]
  exact run_writeWords_error _ (by omega)
    (by simp only [List.length_cons, List.length_nil]; omega)

theorem headerKey_inFile (hA : db.Accounts 4096) {f : FileType} {n : ℕ} :
    db.InFile (OnPages.headerKey 4096 f n) ↔ (Store.of ⟨db, c⟩).HasBit f n := by
  rw [PhyDatabase.InFile, OnPages.headerKey, Store.HasBit]
  simp only [PhyDatabase.file, hA.headerPages_eq]
  rfl

theorem run_checkRecordExists (hA : db.Accounts 4096) {ft : FileType} {id : Ulong}
    (ha : id.toNat % numSlotsPer ft = 0) (h : (Store.of ⟨db, c⟩).HasBit ft id.toNat) :
    (OnPages.checkRecordExists 4096 ft id).run (PhyDatabase.flat 4096) db =
      .ok ((Store.of ⟨db, c⟩).isUsed ft id, db) := by
  have hin := (headerKey_inFile (c := c) hA).mpr h
  have hn : numSlotsPer ft = 1 ∨ numSlotsPer ft = 4 ∧ id.toNat % 4 = 0 := by
    cases ft
    · exact .inl rfl
    · exact .inr ⟨rfl, ha⟩
  have hspp : slotsPerPage 4096 = 256 := rfl
  have hfits : ¬ (slotOf id + (numSlotsPer ft - 1)) % slotsPerPage 4096 <
      slotOf id % slotsPerPage 4096 := by
    rw [slotOf_eq, hspp]
    omega
  have hcb := compareBits_ones ((db.header ft).page (id.toNat / 32768))
    (show id.toNat % 32768 + numSlotsPer ft ≤ 32768 by omega) (by omega)
  have hused : ((List.range (numSlotsPer ft)).all fun i =>
      pageBit ((db.header ft).page (id.toNat / 32768)) (id.toNat % 32768 + i)) =
      (Store.of ⟨db, c⟩).isUsed ft id := by
    rw [Store.isUsed, Bool.eq_iff_iff, List.all_eq_true, List.all_eq_true]
    refine forall₂_congr fun i hi => ?_
    rw [List.mem_range] at hi
    simp only [Store.of]
    rw [show (id.toNat + i) / 32768 = id.toNat / 32768 by omega,
      show (id.toNat + i) % 32768 = id.toNat % 32768 + i by omega]
  rw [OnPages.checkRecordExists, if_neg (by omega), if_neg hfits, absoluteSlot_eq]
  have hk : (OnPages.headerKey 4096 ft id.toNat).fk ≠ .catalogue := by simp [OnPages.headerKey]
  rw [Prog.run_bind_ok _ (PhyDatabase.run_pinPage hA hk hin),
    Prog.run_bind_ok _ (show _ = Except.ok ((db.header ft).page (id.toNat / 32768), db) from rfl)]
  rw [show 4096 * charBit = 32768 from rfl, hcb, hused]
  rw [Prog.run_bind_ok _ (show _ = Except.ok ((Store.of ⟨db, c⟩).isUsed ft id, db) from rfl),
    Prog.run_bind_ok _ (PhyDatabase.run_unpinPage hA hk hin), Prog.run_pure]

/-! ### Header bits -/

/-- The bits of a header page replaced. -/
theorem of_setHeader {ft : FileType} {p : ℕ} (hp : db.InFile ⟨.header, ft, p⟩) (data : PageData) :
    Store.of ⟨db.setPage ⟨.header, ft, p⟩ data, c⟩ = { Store.of ⟨db, c⟩ with
      bit := fun gt m => if gt = ft ∧ m / 32768 = p then pageBit data (m % 32768)
        else (Store.of ⟨db, c⟩).bit gt m } := by
  have hpage := fun k' =>
    PhyDatabase.page_file_setPage (k := ⟨.header, ft, p⟩) hp (by simp) k' data
  refine Store.eq_of ?_ (fun gt m => ?_) (fun gt m => ?_) rfl
  · funext gt
    exact PhyDatabase.numPages_file_setPage db ⟨.header, ft, p⟩ ⟨.records, gt, 0⟩ data
  · have := hpage ⟨.header, gt, m / 32768⟩
    simp only [PhyDatabase.file, PageKey.mk.injEq, true_and] at this
    simp only [Store.of, this]
    split <;> rfl
  · have := hpage ⟨.records, gt, m / 512⟩
    simp only [PhyDatabase.file, PageKey.mk.injEq, reduceCtorEq, false_and, if_false] at this
    simp only [Store.of, this]

/-- The offset of a byte of a page is an `unsigned short`. -/
theorem toNat_byteOffset {off : ℕ} (h : off < 4096) : (BitVec.ofNat 16 off).toNat = off :=
  BitVec.toNat_ofNat off 16 ▸ Nat.mod_eq_of_lt (by omega)

/-- A range of at most four bits within one byte. -/
theorem run_writeBits_one {ft : FileType} {p fuel off b n : ℕ} (hb : b + n ≤ 8) (hn : 0 < n)
    (hn' : n ≤ 4) (hoff : off < 4096) (used : Bool) :
    (writeBits 4096 (fuel + 1) ⟨.header, ft, p⟩ (BitVec.ofNat 16 off) b n [fill used]).run
        (PhyDatabase.flat 4096) db =
      .ok ((), db.setPage ⟨.header, ft, p⟩ (overwrite ((db.header ft).page p) off
        [~~~ rangeByte b (b + n)] [fill used &&& rangeByte b (b + n)])) := by
  have he := toNat_byteOffset hoff
  rw [run_writeBits_fits (by omega) (by omega) hn (by omega) (by omega), he]
  exact run_writeBitsOnPage (bytesToWrite_one ⟨n, by omega⟩ hn ⟨b, by omega⟩ hb used)

/-- Four bits that end in the next byte of the page. -/
theorem run_writeBits_two {ft : FileType} {p fuel off b : ℕ} (hb : b < 8) (hb' : 4 < b)
    (hoff : off + 1 < 4096) (used : Bool) :
    (writeBits 4096 (fuel + 1) ⟨.header, ft, p⟩ (BitVec.ofNat 16 off) b 4 [fill used]).run
        (PhyDatabase.flat 4096) db =
      .ok ((), db.setPage ⟨.header, ft, p⟩ (overwrite ((db.header ft).page p) off
        [~~~ rangeByte b 8, 0#8] [fill used &&& rangeByte b 8, fill used &&& rangeByte 0 (b - 4)])) := by
  have he := toNat_byteOffset (show off < 4096 by omega)
  rw [run_writeBits_fits (by omega) hb (by omega) (by omega) (by omega), he]
  exact run_writeBitsOnPage (bytesToWrite_two ⟨b, hb⟩ hb' used)

/-- What is run for four bits that end on the next page. -/
theorem run_writeBits_across {k : PageKey} {b : ℕ} (hb : b < 8) (hb' : 4 < b) (used : Bool) :
    (writeBits 4096 5 k 4095#16 b 4 [fill used]).run (PhyDatabase.flat 4096) db =
      (do Prog.perform (.pinPage { k with pageNo := k.pageNo + 1 })
          writeBits 4096 4 { k with pageNo := k.pageNo + 1 } 0#16 0 (b - 4) [fill used >>> (b - 4)]
          Prog.perform (.unpinPage { k with pageNo := k.pageNo + 1 })
          writeBitsOnPage k 4095 b (8 - b) [fill used >>> (b - 4)] : Prog PageOp Unit).run
        (PhyDatabase.flat 4096) db := by
  have hc : charBit = 8 := rfl
  obtain ⟨hsplit, -, -⟩ := splitBitArray_fill ⟨b, hb⟩ hb' used
  simp only at hsplit
  have hw : (b + 4) / 8 = 1 := by omega
  have hw' : (b + 4) % 8 ≠ 0 := by omega
  have hoff : (4095#16 : Ushort).toNat = 4095 := rfl
  rw [writeBits, hoff, if_neg (by omega), if_pos (by rw [hc, hw, if_pos hw']; omega)]
  have e₁ : (4096 - 4095) * charBit - b = 8 - b := by rw [hc]
  have e₂ : 4 - (8 - b) = b - 4 := by omega
  have e₃ : (4 / charBit + if 4 % charBit ≠ 0 then 1 else 0) * charBit = 8 := rfl
  simp only [e₁, e₂, e₃, hsplit]
  rw [Prog.run_bind_ok _ (show _ = Except.ok (_, db) from rfl)]

/-- Four bits that end on the next page. -/
theorem run_writeBits_split (hA : db.Accounts 4096) {ft : FileType} {p b : ℕ} (hb : b < 8)
    (hb' : 4 < b) (hnext : db.InFile ⟨.header, ft, p + 1⟩) (used : Bool) :
    ∃ db₁, db₁ = db.setPage ⟨.header, ft, p + 1⟩ (overwrite ((db.header ft).page (p + 1)) 0
        [~~~ rangeByte 0 (b - 4)] [fill used &&& rangeByte 0 (b - 4)]) ∧
      (writeBits 4096 5 ⟨.header, ft, p⟩ 4095#16 b 4 [fill used]).run (PhyDatabase.flat 4096) db =
        .ok ((), db₁.setPage ⟨.header, ft, p⟩ (overwrite ((db₁.header ft).page p) 4095
          [~~~ rangeByte b 8] [fill used &&& rangeByte b 8])) := by
  obtain ⟨-, hfirst, hsecond⟩ := splitBitArray_fill ⟨b, hb⟩ hb' used
  simp only at hfirst hsecond
  have hk : (⟨.header, ft, p + 1⟩ : PageKey).fk ≠ .catalogue := by simp
  refine ⟨_, rfl, ?_⟩
  rw [run_writeBits_across hb hb' used, Prog.run_bind_ok _ (PhyDatabase.run_pinPage hA hk hnext),
    Prog.run_bind_ok _ ((run_writeBits_start (by omega) (by omega) (by omega)).trans
      (run_writeBitsOnPage hsecond)),
    Prog.run_bind_ok _ (PhyDatabase.run_unpinPage (hA.setPage hk _) hk ?_),
    run_writeBitsOnPage hfirst]
  · rfl
  · rw [PhyDatabase.InFile, PhyDatabase.numPages_file_setPage]
    exact hnext

theorem setBits_eq (ft : FileType) (id : Ulong) (used : Bool) :
    OnPages.setBits 4096 ft id used = (do
      Prog.perform (.pinPage ⟨.header, ft, id.toNat / 32768⟩)
      writeBits 4096 (numSlotsPer ft + 1) ⟨.header, ft, id.toNat / 32768⟩
        (BitVec.ofNat 16 (id.toNat % 32768 / 8)) (id.toNat % 8) (numSlotsPer ft) [fill used]
      Prog.perform (.unpinPage ⟨.header, ft, id.toNat / 32768⟩)) := by
  have hoff : id.toNat / charBit % 4096 = id.toNat % 32768 / 8 := by
    rw [show charBit = 8 from rfl]
    omega
  have hkey : OnPages.headerKey 4096 ft id.toNat = ⟨.header, ft, id.toNat / 32768⟩ := rfl
  have hbit : id.toNat % charBit = id.toNat % 8 := rfl
  simp only [OnPages.setBits, absoluteSlot_eq, hoff, hkey, hbit]
  rfl

section SetBits

variable {ft : FileType} {id : Ulong}

/-- A header page stays where it is. -/
theorem inFile_setPage {k k' : PageKey} {data : PageData} (h : db.InFile k) :
    (db.setPage k' data).InFile k := by
  rwa [PhyDatabase.InFile, PhyDatabase.numPages_file_setPage]

/-- The bits of the record are in one byte. -/
theorem run_setBits_byte (hA : db.Accounts 4096) (used : Bool)
    (hin : db.InFile ⟨.header, ft, id.toNat / 32768⟩) (hb : id.toNat % 8 + numSlotsPer ft ≤ 8) :
    ∃ db', (OnPages.setBits 4096 ft id used).run (PhyDatabase.flat 4096) db = .ok ((), db') ∧
      db'.Accounts 4096 ∧ Store.of ⟨db', c⟩ = (Store.of ⟨db, c⟩).setBits ft id used := by
  have hn : 0 < numSlotsPer ft ∧ numSlotsPer ft ≤ 4 := by cases ft <;> decide
  have hk : (⟨.header, ft, id.toNat / 32768⟩ : PageKey).fk ≠ .catalogue := by simp
  rw [setBits_eq]
  refine ⟨_, PhyDatabase.run_pinned_unit hA hk hin
    (run_writeBits_one hb hn.1 hn.2 (by omega) used) (hA.setPage hk _) (inFile_setPage hin),
    hA.setPage hk _, ?_⟩
  rw [of_setHeader hin]
  refine Store.eq_of rfl (fun gt m => ?_) (fun _ _ => rfl) rfl
  simp only [Store.setBits, Store.of,
    pageBit_overwrite_one _ _ _ (show id.toNat % 8 ≤ 8 by omega) hb]
  by_cases hg : gt = ft
  · subst hg
    have hcl : ¬ Store.Clobbered (numSlotsPer gt) id.toNat m := by
      rintro ⟨h, -⟩
      omega
    simp only [true_and, hcl, if_false]
    by_cases hm : id.toNat ≤ m ∧ m < id.toNat + numSlotsPer gt
    · rw [if_pos (by omega), if_pos (by omega), if_pos hm]
    · rw [if_neg hm]
      by_cases hp : m / 32768 = id.toNat / 32768
      · rw [if_pos hp, if_neg (by omega), hp]
      · rw [if_neg hp]
  · simp [hg]

/-- The bits of the relationship are in two bytes of a page; the rest of the second one is cleared. -/
theorem run_setBits_bytes (hA : db.Accounts 4096) (used : Bool)
    (hin : db.InFile ⟨.header, .relationship, id.toNat / 32768⟩) (hb : 4 < id.toNat % 8)
    (hs : id.toNat % 32768 + 4 ≤ 32768) :
    ∃ db', (OnPages.setBits 4096 .relationship id used).run (PhyDatabase.flat 4096) db =
        .ok ((), db') ∧
      db'.Accounts 4096 ∧ Store.of ⟨db', c⟩ = (Store.of ⟨db, c⟩).setBits .relationship id used := by
  have hn4 : numSlotsPer .relationship = 4 := rfl
  have hk : (⟨.header, .relationship, id.toNat / 32768⟩ : PageKey).fk ≠ .catalogue := by simp
  rw [setBits_eq, hn4]
  refine ⟨_, PhyDatabase.run_pinned_unit hA hk hin
    (run_writeBits_two (by omega) hb (by omega) used) (hA.setPage hk _) (inFile_setPage hin),
    hA.setPage hk _, ?_⟩
  rw [of_setHeader hin]
  refine Store.eq_of rfl (fun gt m => ?_) (fun _ _ => rfl) rfl
  simp only [Store.setBits, Store.of, hn4, Store.Clobbered,
    pageBit_overwrite_two _ _ _ (show id.toNat % 8 ≤ 8 by omega)
      (show id.toNat % 8 - 4 ≤ 8 by omega)]
  by_cases hg : gt = .relationship
  · subst hg
    simp only [true_and]
    by_cases hm : id.toNat ≤ m ∧ m < id.toNat + 4
    · rw [if_pos (by omega), if_pos (by omega), if_pos hm]
    · rw [if_neg hm]
      by_cases hp : m / 32768 = id.toNat / 32768
      · rw [if_pos hp, if_neg (by omega), hp]
        by_cases hcl : m % 32768 / 8 = id.toNat % 32768 / 8 + 1
        · rw [if_pos hcl, if_pos (by omega)]
        · rw [if_neg hcl, if_neg (by omega)]
      · rw [if_neg hp, if_neg (by omega)]
  · simp [hg]

/-- The bits of the relationship end on the next page. -/
theorem run_setBits_pages (hA : db.Accounts 4096) (used : Bool)
    (hin : db.InFile ⟨.header, .relationship, id.toNat / 32768⟩)
    (hnext : db.InFile ⟨.header, .relationship, id.toNat / 32768 + 1⟩) (hb : 4 < id.toNat % 8)
    (hs : 32768 < id.toNat % 32768 + 4) :
    ∃ db', (OnPages.setBits 4096 .relationship id used).run (PhyDatabase.flat 4096) db =
        .ok ((), db') ∧
      db'.Accounts 4096 ∧ Store.of ⟨db', c⟩ = (Store.of ⟨db, c⟩).setBits .relationship id used := by
  have hn4 : numSlotsPer .relationship = 4 := rfl
  have hoff : id.toNat % 32768 / 8 = 4095 := by omega
  have hk : (⟨.header, .relationship, id.toNat / 32768⟩ : PageKey).fk ≠ .catalogue := by simp
  have hk' : (⟨.header, .relationship, id.toNat / 32768 + 1⟩ : PageKey).fk ≠ .catalogue := by simp
  obtain ⟨db₁, hdb₁, hrun⟩ := run_writeBits_split hA (show id.toNat % 8 < 8 by omega) hb hnext used
  have hA₁ : db₁.Accounts 4096 := hdb₁ ▸ hA.setPage hk' _
  have hin₁ : db₁.InFile ⟨.header, .relationship, id.toNat / 32768⟩ := hdb₁ ▸ inFile_setPage hin
  have hof₁ := of_setHeader (c := c) hnext (overwrite
    ((db.header .relationship).page (id.toNat / 32768 + 1)) 0
    [~~~ rangeByte 0 (id.toNat % 8 - 4)] [fill used &&& rangeByte 0 (id.toNat % 8 - 4)])
  rw [← hdb₁] at hof₁
  -- the write to the next page leaves this one alone
  have hpage₁ : ∀ i, pageBit ((db₁.header .relationship).page (id.toNat / 32768)) i =
      pageBit ((db.header .relationship).page (id.toNat / 32768)) i := fun i => by
    have := PhyDatabase.page_file_setPage hnext hk' ⟨.header, .relationship, id.toNat / 32768⟩
      (overwrite ((db.header .relationship).page (id.toNat / 32768 + 1)) 0
        [~~~ rangeByte 0 (id.toNat % 8 - 4)] [fill used &&& rangeByte 0 (id.toNat % 8 - 4)])
    rw [← hdb₁, if_neg (by simp)] at this
    exact congrArg (pageBit · i) this
  rw [setBits_eq, hn4, hoff]
  refine ⟨_, PhyDatabase.run_pinned_unit hA hk hin hrun (hA₁.setPage hk _) (inFile_setPage hin₁),
    hA₁.setPage hk _, ?_⟩
  rw [of_setHeader hin₁, hof₁]
  refine Store.eq_of rfl (fun gt m => ?_) (fun _ _ => rfl) rfl
  simp only [Store.setBits, Store.of, hn4, Store.Clobbered, hpage₁,
    pageBit_overwrite_one _ _ _ (show id.toNat % 8 ≤ 8 by omega) le_rfl,
    pageBit_overwrite_one _ _ _ (show 0 ≤ 8 by omega)
      (show id.toNat % 8 - 4 ≤ 8 by omega)]
  by_cases hg : gt = .relationship
  · subst hg
    simp only [true_and]
    rw [if_neg (c := 8 < 4 % 8 + _ ∧ _) (by omega)]
    by_cases hm : id.toNat ≤ m ∧ m < id.toNat + 4
    · rw [if_pos hm]
      by_cases hp : m / 32768 = id.toNat / 32768
      · rw [if_pos hp, if_pos (by omega)]
      · rw [if_neg hp, if_pos (by omega), if_pos (by omega)]
    · rw [if_neg hm]
      by_cases hp : m / 32768 = id.toNat / 32768
      · rw [if_pos hp, if_neg (by omega), hp]
      · rw [if_neg hp]
        by_cases hp' : m / 32768 = id.toNat / 32768 + 1
        · rw [if_pos hp', if_neg (by omega), hp']
        · rw [if_neg hp']
  · simp [hg]

/-- The bits of a record set or cleared, when their header pages are there. -/
theorem run_setBits (hA : db.Accounts 4096) (used : Bool)
    (h₁ : (Store.of ⟨db, c⟩).HasBit ft id.toNat)
    (h₂ : (Store.of ⟨db, c⟩).HasBit ft (id.toNat + numSlotsPer ft - 1)) :
    ∃ db', (OnPages.setBits 4096 ft id used).run (PhyDatabase.flat 4096) db = .ok ((), db') ∧
      db'.Accounts 4096 ∧ Store.of ⟨db', c⟩ = (Store.of ⟨db, c⟩).setBits ft id used := by
  have hin : db.InFile ⟨.header, ft, id.toNat / 32768⟩ := (headerKey_inFile (c := c) hA).mpr h₁
  by_cases hb : id.toNat % 8 + numSlotsPer ft ≤ 8
  · exact run_setBits_byte hA used hin hb
  · cases ft with
    | node => exact absurd (show id.toNat % 8 + 1 ≤ 8 by omega) hb
    | relationship =>
        have hn4 : numSlotsPer .relationship = 4 := rfl
        rw [hn4] at hb h₂
        by_cases hs : id.toNat % 32768 + 4 ≤ 32768
        · exact run_setBits_bytes hA used hin (by omega) hs
        · refine run_setBits_pages hA used hin ?_ (by omega) (by omega)
          have hnext := (headerKey_inFile (c := c) hA).mpr h₂
          rwa [OnPages.headerKey, show charBit = 8 from rfl,
            show (id.toNat + 4 - 1) / (4096 * 8) = id.toNat / 32768 + 1 by omega] at hnext

end SetBits

theorem run_setBits_error (hA : db.Accounts 4096) {ft : FileType} {id : Ulong} (used : Bool)
    (h : ¬ ((Store.of ⟨db, c⟩).HasBit ft id.toNat ∧
      (Store.of ⟨db, c⟩).HasBit ft (id.toNat + numSlotsPer ft - 1))) :
    ∃ e, (OnPages.setBits 4096 ft id used).run (PhyDatabase.flat 4096) db = .error e := by
  have hc : charBit = 8 := rfl
  rw [setBits_eq]
  by_cases h₁ : (Store.of ⟨db, c⟩).HasBit ft id.toNat
  · -- the range leaves the last header page
    have h₂ : ¬ (Store.of ⟨db, c⟩).HasBit ft (id.toNat + numSlotsPer ft - 1) := fun h₂ => h ⟨h₁, h₂⟩
    cases ft with
    | node => exact absurd h₁ h₂
    | relationship =>
        rw [Store.HasBit] at h₁ h₂
        rw [show numSlotsPer .relationship = 4 from rfl] at h₂ ⊢
        have hnext : ¬ db.InFile ⟨.header, .relationship, id.toNat / 32768 + 1⟩ := fun hin' => by
          refine h₂ (lt_of_le_of_lt ?_ ((headerKey_inFile (c := c) (f := .relationship)
            (n := (id.toNat / 32768 + 1) * 32768) hA).mp ?_))
          · omega
          · rw [OnPages.headerKey, hc, show (id.toNat / 32768 + 1) * 32768 / (4096 * 8) =
              id.toNat / 32768 + 1 by omega]
            exact hin'
        refine PhyDatabase.run_pinned_error hA (by simp) ?_
        rw [show id.toNat % 32768 / 8 = 4095 by omega,
          run_writeBits_across (by omega) (by omega) used]
        exact PhyDatabase.run_pinPage_error (by simp) hnext _
  · exact PhyDatabase.run_pinPage_error (k := ⟨.header, ft, id.toNat / 32768⟩) (by simp)
      (fun h' => h₁ ((headerKey_inFile (c := c) hA).mp h')) _

/-! ### New pages -/

theorem run_newPage (hA : db.Accounts 4096) {ft : FileType}
    (h : (db.records ft).numPages + 1 < maxPageNo 4096) :
    ∃ db', (OnPages.newPage ft).run (PhyDatabase.flat 4096) db =
        .ok ((db.records ft).numPages, db') ∧ db'.Accounts 4096 ∧
      Store.of ⟨db', c⟩ = (Store.of ⟨db, c⟩).addPage ft := by
  obtain ⟨db', hok, hA', hR, ⟨k, hH⟩, ho⟩ := PhyDatabase.allocatePages_spec isPageSize_4096 hA h
  have hmax : maxPageNo 4096 < 2 ^ 63 := by decide
  have hin : db'.InFile ⟨.records, ft, (db.records ft).numPages⟩ := by
    rw [PhyDatabase.InFile, PhyDatabase.file, hR.numPages]
    exact Nat.lt_succ_self _
  have hk : (⟨.records, ft, (db.records ft).numPages⟩ : PageKey).fk ≠ .catalogue := by simp
  have hnew : (Prog.perform (.newPage ft)).run (PhyDatabase.flat 4096) db =
      .ok ((db.records ft).numPages, db') := by
    rw [Prog.run_perform, PhyDatabase.flat, hok, ok_bind]
    simp only [hR.numPages, Nat.add_sub_cancel]
    rw [PhyDatabase.checkBounds_ok (hA'.lt_maxPageNo hk hin) hin]
    rfl
  refine ⟨db', ?_, hA', ?_⟩
  · rw [OnPages.newPage, Prog.run_bind_ok _ hnew, if_neg (by rw [charBit]; omega),
      Prog.run_bind_ok _ (PhyDatabase.run_unpinPage hA' hk hin), Prog.run_pure]
  · refine Store.eq_of ?_ (fun gt m => ?_) (fun gt m => ?_) rfl
    · funext gt
      by_cases hg : gt = ft
      · subst hg
        simp only [Store.of, Store.addPage, Function.update_self, hR.numPages]
      · simp only [Store.of, Store.addPage, Function.update_of_ne hg, (ho gt hg).1]
    · simp only [Store.of, Store.addPage]
      by_cases hg : gt = ft
      · subst hg
        rw [hH.page]
      · rw [(ho gt hg).2]
    · simp only [Store.of, Store.addPage]
      by_cases hg : gt = ft
      · subst hg
        rw [hR.page]
      · rw [(ho gt hg).1]

theorem run_newPage_error (hA : db.Accounts 4096) {ft : FileType}
    (h : ¬ (db.records ft).numPages + 1 < maxPageNo 4096) :
    ∃ e, (OnPages.newPage ft).run (PhyDatabase.flat 4096) db = .error e := by
  cases ha : db.allocatePages 4096 ft 1 with
  | ok db' => exact absurd (PhyDatabase.allocatePages_inv isPageSize_4096 hA ha) h
  | error e =>
      refine ⟨e, Prog.run_bind_error _ ?_ _⟩
      rw [Prog.run_perform, PhyDatabase.flat, ha]
      rfl

end Records

/-! ### The two machines agree -/

namespace HeapFile

variable {hf : HeapFile PhyDatabase}

theorem agrees_of_run {α : Type} {x : Prog PageOp α} {a : α} {d : PhyDatabase}
    {y : Except Fault (α × Store)} (hx : x.run (PhyDatabase.flat 4096) hf.cache = .ok (a, d))
    (hA : d.Accounts 4096) (hy : y = .ok (a, Store.of ⟨d, hf.counters⟩)) :
    Prog.Agrees Good Store.of (hf.onPages (PhyDatabase.flat 4096) x) y := by
  rw [onPages, hx]
  exact ⟨hA, hy⟩

theorem agrees_of_error {α : Type} {x : Prog PageOp α} {y : Except Fault (α × Store)}
    (hx : ∃ e, x.run (PhyDatabase.flat 4096) hf.cache = .error e) (hy : ∃ e, y = .error e) :
    Prog.Agrees Good Store.of (hf.onPages (PhyDatabase.flat 4096) x) y := by
  obtain ⟨e, he⟩ := hx
  rw [onPages, he]
  exact hy

/-- A record whose page is not there. -/
theorem agrees_of_noPage {α : Type} {ft : FileType} {id : Ulong}
    (h : ¬ id.toNat / 256 < (Store.of hf).pages ft) (f : Unit → Prog PageOp α) :
    Prog.Agrees Good Store.of (hf.onPages (PhyDatabase.flat 4096)
      (Prog.perform (.pinPage (OnPages.recordKey ft id)) >>= f)) Store.outOfBounds :=
  agrees_of_error (PhyDatabase.run_pinPage_error (by simp [OnPages.recordKey])
    (fun h' => h (recordKey_inFile.mp h')) _) ⟨_, rfl⟩

theorem checkRecordExists_agrees (hA : hf.Good) (ft : FileType) (id : Ulong) :
    Prog.Agrees Good Store.of
      (step 4096 (PhyDatabase.flat 4096) _ (.checkRecordExists ft id) hf)
      (Store.step _ (.checkRecordExists ft id) (Store.of hf)) := by
  simp only [step, Store.step]
  by_cases ha : id.toNat % numSlotsPer ft = 0
  · rw [if_neg (by omega)]
    by_cases hb : (Store.of hf).HasBit ft id.toNat
    · rw [if_pos hb]
      exact agrees_of_run (run_checkRecordExists hA ha hb) hA rfl
    · rw [if_neg hb]
      refine agrees_of_error ?_ ⟨_, rfl⟩
      have hfits : ¬ (slotOf id + (numSlotsPer ft - 1)) % slotsPerPage 4096 <
          slotOf id % slotsPerPage 4096 := by
        rw [slotOf_eq, show slotsPerPage 4096 = 256 from rfl]
        cases ft <;> simp only [numSlotsPer] at ha ⊢ <;> omega
      rw [OnPages.checkRecordExists, if_neg (by omega), if_neg hfits, absoluteSlot_eq]
      exact PhyDatabase.run_pinPage_error (by simp [OnPages.headerKey])
        (fun h => hb ((headerKey_inFile hA).mp h)) _
  · rw [if_pos ha]
    refine agrees_of_run (a := false) (d := hf.cache) ?_ hA rfl
    rw [OnPages.checkRecordExists, if_pos ha]
    rfl

/-- Every call does to the pages what it does to the store. -/
theorem step_agrees (β : Type) (op : RecordOp β) (hf : HeapFile PhyDatabase) (hA : hf.Good) :
    Prog.Agrees Good Store.of (step 4096 (PhyDatabase.flat 4096) β op hf)
      (Store.step β op (Store.of hf)) := by
  cases op with
  | numPages ft => exact ⟨hA, rfl⟩
  | checkRecordExists ft id => exact checkRecordExists_agrees hA ft id
  | readNode id =>
      simp only [step, Store.step]
      split
      · rename_i h
        exact agrees_of_run (run_readNode hA h) hA rfl
      · rename_i h
        exact agrees_of_noPage h _
  | readRelationship id =>
      simp only [step, Store.step]
      by_cases hs : id.toNat % 256 ≤ 252
      · by_cases h : id.toNat / 256 < (Store.of hf).pages .relationship
        · rw [if_pos ⟨h, hs⟩]
          exact agrees_of_run (run_readRelationship hA h hs) hA rfl
        · rw [if_neg fun h' => h h'.1]
          exact agrees_of_noPage h _
      · rw [if_neg fun h' => hs h'.2]
        exact agrees_of_error (run_readRelationship_error hA (by omega)) ⟨_, rfl⟩
  | writeNode node =>
      simp only [step, Store.step]
      split
      · rename_i h
        obtain ⟨db', hr, hA', he⟩ := run_writeNode (c := hf.counters) hA h
        exact agrees_of_run hr hA' (by rw [he])
      · rename_i h
        exact agrees_of_noPage h _
  | writeRelationship rel =>
      simp only [step, Store.step]
      by_cases hs : rel.id.toNat % 256 ≤ 252
      · by_cases h : rel.id.toNat / 256 < (Store.of hf).pages .relationship
        · rw [if_pos ⟨h, hs⟩]
          obtain ⟨db', hr, hA', he⟩ := run_writeRelationship (c := hf.counters) hA h hs
          exact agrees_of_run hr hA' (by rw [he])
        · rw [if_neg fun h' => h h'.1]
          exact agrees_of_noPage h _
      · rw [if_neg fun h' => hs h'.2]
        exact agrees_of_error (run_writeRelationship_error hA (by omega)) ⟨_, rfl⟩
  | setBits ft id used =>
      simp only [step, Store.step]
      split
      · rename_i h
        obtain ⟨db', hr, hA', he⟩ := run_setBits hA used h.1 h.2
        exact agrees_of_run hr hA' (by rw [he])
      · rename_i h
        exact agrees_of_error (run_setBits_error hA used h) ⟨_, rfl⟩
  | newPage ft =>
      simp only [step, Store.step]
      split
      · rename_i h
        obtain ⟨db', hr, hA', he⟩ := run_newPage (c := hf.counters) hA h
        exact agrees_of_run hr hA' (by rw [he]; rfl)
      · rename_i h
        exact agrees_of_error (run_newPage_error hA h) ⟨_, rfl⟩
  | getCounters => exact ⟨hA, rfl⟩
  | setCounters c => exact ⟨hA, rfl⟩
  | stop f => exact ⟨f, rfl⟩

/-- A function of the heap file, over flat pages of 4 KiB. -/
def run {α : Type} (x : HF α) (hf : HeapFile PhyDatabase) :
    Except Fault (α × HeapFile PhyDatabase) :=
  Prog.run (step 4096 (PhyDatabase.flat 4096)) x hf

/-- **The heap file over flat pages is the record store.** -/
theorem run_agrees {α : Type} (x : HF α) (hA : hf.Good) :
    Prog.Agrees Good Store.of (run x hf) (Prog.run Store.step x (Store.of hf)) :=
  Prog.run_agrees step_agrees x hA

end HeapFile

end Goedb
