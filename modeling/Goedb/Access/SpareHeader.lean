import Goedb.Access.CachedHeapFile

/-!
# Access — header files with pages to spare

`reorder_relationships_by_sequence` grows the header file of its temporary database by hand, before a
heap file is made on it.  The header bits are then more than the slots and the remaining bits, so the
accounts of the database are not balanced.  `PhyDatabase.Padded` relates it to the database without the
spare pages: whatever the heap file does without them it does with them as well
(`HeapFile.step_padded`), so over the page cache it still covers the record store
(`HeapFile.run_covered`).
-/

namespace Goedb

open Lib

open Prog (Covers Follows Always)

namespace PhyDatabase

variable {n : ℕ} {P : ℕ} {db db' db₁ : PhyDatabase} {k : PageKey} {α : Type}

/-- `db'` is `db` with at most `n` more pages of zeros at the ends of the header files. -/
structure Padded (n : ℕ) (db' db : PhyDatabase) : Prop where
  file : ∀ fk ft, ∃ m ≤ n, (db.file fk ft).GrownBy m (db'.file fk ft) ∧ (fk ≠ .header → m = 0)
  remaining : db'.remainingHeaderBits = db.remainingHeaderBits

namespace Padded

theorem refl (db : PhyDatabase) : Padded 0 db db :=
  ⟨fun _ _ => ⟨0, Nat.le_refl 0, .refl _, fun _ => rfl⟩, rfl⟩

variable (h : Padded n db' db)
include h

theorem file_eq {fk : FileKind} (hfk : fk ≠ .header) (ft : FileType) :
    db'.file fk ft = db.file fk ft := by
  obtain ⟨m, -, hG, hm⟩ := h.file fk ft
  obtain rfl := hm hfk
  exact DiskFile.eq_of hG.numPages hG.page

theorem inFile (hk : db.InFile k) : db'.InFile k := by
  obtain ⟨m, -, hG, -⟩ := h.file k.fk k.ft
  rw [InFile, hG.numPages]
  exact Nat.lt_of_lt_of_le hk (Nat.le_add_right _ _)

theorem page_eq (k : PageKey) :
    (db'.file k.fk k.ft).page k.pageNo = (db.file k.fk k.ft).page k.pageNo := by
  obtain ⟨m, -, hG, -⟩ := h.file k.fk k.ft
  exact hG.page _

theorem setPage (hin : db.InFile k) (hk : k.fk ≠ .catalogue) (data : PageData) :
    Padded n (db'.setPage k data) (db.setPage k data) where
  file fk ft := by
    obtain ⟨m, hm, hG, hz⟩ := h.file fk ft
    refine ⟨m, hm, ⟨?_, fun i => ?_⟩, hz⟩
    · have h₁ := numPages_file_setPage db' k ⟨fk, ft, 0⟩ data
      have h₂ := numPages_file_setPage db k ⟨fk, ft, 0⟩ data
      rw [h₁, h₂, hG.numPages]
    · have h₁ := page_file_setPage (h.inFile hin) hk ⟨fk, ft, i⟩ data
      have h₂ := page_file_setPage hin hk ⟨fk, ft, i⟩ data
      rw [h₁, h₂, hG.page]
  remaining := by
    rw [remainingHeaderBits_setPage, remainingHeaderBits_setPage, h.remaining]

/-! ### The calls that reach a page -/

/-- Bounds that are kept without the spare pages are kept. -/
theorem checkBounds (hb : db.checkBounds P k = .ok ()) : db'.checkBounds P k = .ok () :=
  have ⟨hmax, hin⟩ := checkBounds_inv hb
  checkBounds_ok hmax (h.inFile hin)

theorem covers_pinPage : Covers (fun d' d => Padded n d' d ∧ d.InFile k)
    ((Prog.perform (.pinPage k)).run (flat P) db') ((Prog.perform (.pinPage k)).run (flat P) db) := by
  intro u d hd
  rw [Prog.run_perform, flat] at hd ⊢
  split at hd
  · cases hd
  · rename_i hcat
    obtain ⟨u, hb, hd⟩ := bind_inv hd
    cases hd
    rw [if_neg hcat, h.checkBounds hb]
    exact ⟨db', rfl, h, (checkBounds_inv hb).2⟩

theorem covers_unpinPage : Covers (Padded n) ((Prog.perform (.unpinPage k)).run (flat P) db')
    ((Prog.perform (.unpinPage k)).run (flat P) db) := by
  intro u d hd
  rw [Prog.run_perform, flat] at hd ⊢
  obtain ⟨u, hb, hd⟩ := bind_inv hd
  cases hd
  rw [h.checkBounds hb]
  exact ⟨db', rfl, h⟩

/-- Code on a page that is there without the spare pages. -/
theorem covers_onPage {x : Prog PageOp α} (hx : Always (PageCache.OnPage k) x)
    (hk : k.fk ≠ .catalogue) (hin : db.InFile k) :
    Covers (fun d' d => Padded n d' d ∧ d.InFile k) (x.run (flat P) db') (x.run (flat P) db) := by
  refine Prog.run_covers (fun β op d' d hop ⟨hd, hin⟩ => ?_) x ⟨h, hin⟩
    (hx.meets db)
  cases op with
  | requirePinned k' msg => exact .ok () ⟨hd, hin⟩
  | getData k' =>
      obtain rfl : k' = k := hop
      rw [flat, flat, hd.page_eq]
      exact .ok _ ⟨hd, hin⟩
  | putData k' data =>
      obtain rfl : k' = k := hop
      exact .ok () ⟨hd.setPage hin hk data,
        Nat.lt_of_lt_of_eq hin (numPages_file_setPage d k' k' data).symm⟩
  | stop e => exact fun b => b.elim
  | numPages ft => exact hop.elim
  | pinPage k' => exact hop.elim
  | unpinPage k' => exact hop.elim
  | newPage ft => exact hop.elim

/-- Code between a pin and an unpin. -/
theorem covers_pinned {x : Prog PageOp α} (hx : Always (PageCache.OnPage k) x)
    (hk : k.fk ≠ .catalogue) :
    Covers (Padded n)
      ((do
        Prog.perform (.pinPage k)
        let a ← x
        Prog.perform (.unpinPage k)
        return a : Prog PageOp α).run (flat P) db')
      ((do
        Prog.perform (.pinPage k)
        let a ← x
        Prog.perform (.unpinPage k)
        return a : Prog PageOp α).run (flat P) db) :=
  .bind h.covers_pinPage fun _ _ _ ⟨h, hin⟩ => .bind (h.covers_onPage hx hk hin) fun a _ _ h =>
    .bind h.1.covers_unpinPage fun _ _ _ h => .ok a h

theorem covers_pinned_unit {x : Prog PageOp Unit} (hx : Always (PageCache.OnPage k) x)
    (hk : k.fk ≠ .catalogue) :
    Covers (Padded n)
      ((do
        Prog.perform (.pinPage k)
        x
        Prog.perform (.unpinPage k) : Prog PageOp Unit).run (flat P) db')
      ((do
        Prog.perform (.pinPage k)
        x
        Prog.perform (.unpinPage k) : Prog PageOp Unit).run (flat P) db) :=
  .bind h.covers_pinPage fun _ _ _ ⟨h, hin⟩ => .bind (h.covers_onPage hx hk hin) fun _ _ _ h =>
    h.1.covers_unpinPage

end Padded

/-! ### New pages -/

theorem grow_padded {df df' d : DiskFile} {m i : ℕ} (h : df.GrownBy m df')
    (hg : df.grow P i = .ok d) (hmax : d.numPages + m < maxPageNo P) :
    ∃ d', df'.grow P i = .ok d' ∧ d.GrownBy m d' := by
  have hd := grow_inv hg
  have hroom : df'.numPages + i < maxPageNo P := by
    rw [h.numPages]
    rw [hd.numPages] at hmax
    omega
  obtain ⟨d', hg', hd'⟩ := DiskFile.grow_ok hroom
  refine ⟨d', hg', ?_, fun j => ?_⟩
  · rw [hd'.numPages, hd.numPages, h.numPages, Nat.add_right_comm]
  · rw [hd'.page, h.page, hd.page]

theorem growHeader_padded {df df' d : DiskFile} {m r r' i : ℕ} (h : df.GrownBy m df')
    (hg : growHeader P df r i = .ok (d, r')) (hmax : d.numPages + m < maxPageNo P) :
    ∃ d', growHeader P df' r i = .ok (d', r') ∧ d.GrownBy m d' := by
  unfold growHeader at hg ⊢
  split at hg
  · rename_i hr
    obtain ⟨d₁, h₁, hg⟩ := bind_inv hg
    cases hg
    obtain ⟨d', h', hG⟩ := grow_padded h h₁ hmax
    simp only [if_pos hr, h', ok_bind]
    exact ⟨d', rfl, hG⟩
  · rename_i hr
    cases hg
    rw [if_neg hr]
    exact ⟨df', rfl, h⟩

/-- `allocate_pages` with spare header pages. -/
theorem Padded.allocatePages (h : Padded n db' db) {ft : FileType} {i : ℕ}
    (ha : db.allocatePages P ft i = .ok db₁) (hmax : (db₁.header ft).numPages + n < maxPageNo P) :
    ∃ db₁', db'.allocatePages P ft i = .ok db₁' ∧ Padded n db₁' db₁ := by
  have hrecords : db'.records = db.records :=
    funext fun gt => h.file_eq (show FileKind.records ≠ .header by rintro ⟨⟩) gt
  have hcatalogue : db'.catalogue = db.catalogue :=
    h.file_eq (show FileKind.catalogue ≠ .header by rintro ⟨⟩) ft
  obtain ⟨records, hr, ha⟩ := bind_inv ha
  obtain ⟨⟨header, remaining⟩, hh, ha⟩ := bind_inv ha
  obtain ⟨buf, hb, ha⟩ := bind_inv ha
  obtain ⟨catalogue, hc, ha⟩ := bind_inv ha
  cases ha
  obtain ⟨m, hm, hG, -⟩ := h.file .header ft
  simp only [Function.update_self] at hmax
  obtain ⟨header', hh', hG'⟩ := growHeader_padded hG hh (by omega)
  refine ⟨⟨catalogue, Function.update db'.header ft header', Function.update db.records ft records,
    Function.update db.remainingHeaderBits ft remaining⟩, ?_, fun fk gt => ?_, rfl⟩
  · rw [show db'.file .header ft = db'.header ft from rfl] at hh'
    simp only [PhyDatabase.allocatePages, hrecords, hcatalogue, h.remaining, hr, hh', hb, hc, ok_bind]
    rfl
  · cases fk with
    | catalogue => exact ⟨0, Nat.zero_le _, .refl _, fun _ => rfl⟩
    | records => exact ⟨0, Nat.zero_le _, .refl _, fun _ => rfl⟩
    | header =>
        by_cases hgt : gt = ft
        · subst hgt
          simp only [PhyDatabase.file, Function.update_self]
          exact ⟨m, hm, hG', fun e => absurd rfl e⟩
        · simp only [PhyDatabase.file, Function.update_of_ne hgt]
          exact h.file .header gt

theorem Padded.covers_checkRecordExists (h : Padded n db' db) (ft : FileType) (id : Ulong) :
    Covers (Padded n) ((OnPages.checkRecordExists 4096 ft id).run (flat 4096) db')
      ((OnPages.checkRecordExists 4096 ft id).run (flat 4096) db) := by
  have hk : (OnPages.headerKey 4096 ft (absoluteSlot 4096 id)).fk ≠ .catalogue := by
    rintro ⟨⟩
  refine .ite (.ok false h) (.ite (.ok false h) ?_)
  exact .bind h.covers_pinPage fun _ _ _ ⟨h, hin⟩ =>
    .bind (h.covers_onPage (Always.perform.mpr rfl) hk hin) fun _ _ _ ⟨h, hin⟩ =>
    .bind (h.covers_onPage (PageCache.always_lift _) hk hin) fun a _ _ h =>
    .bind h.1.covers_unpinPage fun _ _ _ h => .ok a h

/-- A header with a few pages to spare is far from its bound. -/
theorem Accounts.header_add_lt (hA : db.Accounts 4096) (hn : n ≤ 2 ^ 50) (ft : FileType) :
    (db.header ft).numPages + n < maxPageNo 4096 := by
  have hrec := hA.records_lt ft
  rw [hA.headerPages_eq, Store.headerPages]
  rw [show maxPageNo 4096 = 2251799813685247 by decide] at hrec ⊢
  omega

theorem Padded.run_newPage (h : Padded n db' db) (hn : n ≤ 2 ^ 50) {ft : FileType} {p : ℕ}
    (hrun : (OnPages.newPage ft).run (flat 4096) db = .ok (p, db₁)) (hA : db₁.Accounts 4096) :
    ∃ db₁', (OnPages.newPage ft).run (flat 4096) db' = .ok (p, db₁') ∧ Padded n db₁' db₁ := by
  obtain ⟨pageNo, d, hnew, hrun⟩ := Prog.run_bind_inv _ hrun
  have hnew' := hnew
  rw [Prog.run_perform, flat] at hnew'
  obtain ⟨d', halloc, hnew'⟩ := bind_inv hnew'
  obtain ⟨u, hbounds, hnew'⟩ := bind_inv hnew'
  cases hnew'
  split at hrun
  · cases hrun
  · rename_i hsmall
    obtain ⟨u', d₁, hunpin, hrun⟩ := Prog.run_bind_inv _ hrun
    cases hrun
    obtain rfl : d = db₁ := by
      rw [Prog.run_perform, flat, hbounds] at hunpin
      cases hunpin
      rfl
    obtain ⟨d', halloc', hpad⟩ := h.allocatePages halloc (hA.header_add_lt hn ft)
    have hrecords : d'.records ft = d.records ft :=
      hpad.file_eq (show FileKind.records ≠ .header by rintro ⟨⟩) ft
    have hperform : (Prog.perform (.newPage ft)).run (flat 4096) db' =
        .ok ((d.records ft).numPages - 1, d') := by
      rw [Prog.run_perform, flat, halloc', ok_bind, hrecords]
      simp only [hpad.checkBounds hbounds, ok_bind]
      rfl
    obtain ⟨d₁', hunpin', hpad'⟩ := hpad.covers_unpinPage _ _ hunpin
    refine ⟨d₁', ?_, hpad'⟩
    rw [OnPages.newPage, Prog.run_bind_ok _ hperform, if_neg hsmall, Prog.run_bind_ok _ hunpin']
    rfl

end PhyDatabase

namespace HeapFile

open PhyDatabase

open PageCache (always_nodeRead always_nodeWrite always_relationshipRead always_writeWords)

variable {n : ℕ} {α : Type}

/-- The heap file over pages with spare header pages. -/
def PaddedAs (n : ℕ) (hf' hf : HeapFile PhyDatabase) : Prop :=
  Padded n hf'.cache hf.cache ∧ hf'.counters = hf.counters

theorem covers_onPages {hf' hf : HeapFile PhyDatabase} {x : Prog PageOp α}
    (hc : hf'.counters = hf.counters)
    (h : Covers (Padded n) (x.run (flat 4096) hf'.cache) (x.run (flat 4096) hf.cache)) :
    Covers (PaddedAs n) (hf'.onPages (flat 4096) x) (hf.onPages (flat 4096) x) := by
  intro a hf₁ h₁
  unfold onPages at h₁ ⊢
  cases hx : x.run (flat 4096) hf.cache with
  | error e =>
      rw [hx] at h₁
      cases h₁
  | ok p =>
      rw [hx] at h₁
      cases h₁
      obtain ⟨db', hdb', hpad⟩ := h p.1 p.2 hx
      rw [hdb']
      exact ⟨_, rfl, hpad, hc⟩

/-- **Each call** that succeeds without the spare header pages succeeds with them. -/
theorem step_padded {β : Type} (op : RecordOp β) (hop : AlignedOp β op) (hn : n ≤ 2 ^ 50)
    {hf' hf hf₁ : HeapFile PhyDatabase} (h : PaddedAs n hf' hf) {b : β}
    (hstep : step 4096 (flat 4096) β op hf = .ok (b, hf₁)) (hg : hf₁.Good) :
    ∃ hf₁', step 4096 (flat 4096) β op hf' = .ok (b, hf₁') ∧ PaddedAs n hf₁' hf₁ := by
  obtain ⟨hpad, hc⟩ := h
  cases op with
  | numPages ft =>
      refine covers_onPages (x := .perform (.numPages ft)) hc ?_ _ _ hstep
      have hrecords : hf'.cache.records ft = hf.cache.records ft :=
        hpad.file_eq (show FileKind.records ≠ .header by rintro ⟨⟩) ft
      rw [Prog.run_perform, Prog.run_perform, flat, flat, hrecords]
      exact .ok _ hpad
  | checkRecordExists ft id => exact covers_onPages hc (hpad.covers_checkRecordExists ft id) _ _ hstep
  | readNode id =>
      exact covers_onPages hc (hpad.covers_pinned (always_nodeRead _ _) (by rintro ⟨⟩)) _ _ hstep
  | readRelationship id =>
      exact covers_onPages hc (hpad.covers_pinned (always_relationshipRead _ _) (by rintro ⟨⟩)) _ _
        hstep
  | writeNode nd =>
      exact covers_onPages hc (hpad.covers_pinned_unit (always_nodeWrite _ _) (by rintro ⟨⟩)) _ _ hstep
  | writeRelationship r =>
      exact covers_onPages hc (hpad.covers_pinned_unit (always_writeWords _ _ _) (by rintro ⟨⟩)) _ _
        hstep
  | setBits ft id used =>
      exact covers_onPages hc (hpad.covers_pinned_unit (always_setBits hop used) (by rintro ⟨⟩)) _ _
        hstep
  | newPage ft =>
      rw [step, onPages] at hstep ⊢
      split at hstep
      · rename_i p db₁ hrun
        cases hstep
        obtain ⟨db₁', hrun', hpad'⟩ := hpad.run_newPage hn hrun hg
        rw [hrun']
        exact ⟨_, rfl, hpad', hc⟩
      · cases hstep
  | getCounters =>
      cases hstep
      rw [step, hc]
      exact ⟨hf', rfl, hpad, hc⟩
  | setCounters c =>
      cases hstep
      exact ⟨_, rfl, hpad, rfl⟩
  | stop e => cases hstep

/-! ### Over the page cache -/

/-- The pages of the heap file, but for at most `n` spare header pages, hold the store. -/
def CachedSpare (n : ℕ) (hf : HeapFile PageCache) (s : Store) : Prop :=
  ∃ db' db : PhyDatabase, PageCache.QuietAs 4096 hf.cache db' ∧ Padded n db' db ∧
    db.Accounts 4096 ∧ Store.of ⟨db, hf.counters⟩ = s

/-- **The heap file over the page cache** covers the record store, with spare header pages. -/
theorem run_covered (hn : n ≤ 2 ^ 50) {x : HF α} {hf : HeapFile PageCache} {s : Store}
    (h : CachedSpare n hf s) (hx : Prog.Meets Store.step AlignedOp x s) :
    Covers (CachedSpare n) (runCached x hf) (Store.run x s) := by
  refine Prog.run_covers (fun β op hf s hop h b s₁ hs => ?_) x h hx
  obtain ⟨db', db, hq, hpad, hA, rfl⟩ := h
  obtain ⟨hf₁, hstep, hg, rfl⟩ := (step_agrees β op ⟨db, hf.counters⟩ hA).of_ok hs
  have hpadded : PaddedAs n ⟨db', hf.counters⟩ ⟨db, hf.counters⟩ := ⟨hpad, rfl⟩
  have hcached : CachedAs hf ⟨db', hf.counters⟩ := ⟨hq, rfl⟩
  obtain ⟨hf₁', hstep', hpad', hc'⟩ := step_padded op hop hn hpadded hstep hg
  obtain ⟨hf₂, hcache, hq', hc⟩ := (step_follows op hop hcached).of_ok hstep'
  refine ⟨hf₂, hcache, hf₁'.cache, hf₁.cache, hq', hpad', hg, ?_⟩
  rw [hc, hc']

end HeapFile

end Goedb
