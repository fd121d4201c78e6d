import Goedb.Io.PhysicalDatabase
import Goedb.Lib.Program

/-!
# Cache — the calls that reach a page

What the access layer asks of the page cache: pin and unpin a page, read and write the bytes of a
pinned page, add a page of records.  `PageOp` is the signature of these calls, so that the access
layer is written once and can be run on more than one machine:

* `flat` here, where a page *is* its bytes in the file and a pin only checks the bounds;
* the page cache, with its frames, its page maps and its eviction.
-/

namespace Goedb

open Lib

/-- The identity of a page, as the arguments of `pin_page`. -/
structure PageKey where
  fk : FileKind
  ft : FileType
  pageNo : ℕ
  deriving DecidableEq, Repr

/-- The calls that reach a page. -/
inductive PageOp : Type → Type where
  /-- `pdb->records[ft]->num_pages`. -/
  | numPages (ft : FileType) : PageOp ℕ
  /-- `pin_page`. -/
  | pinPage (k : PageKey) : PageOp Unit
  /-- `unpin_page`. -/
  | unpinPage (k : PageKey) : PageOp Unit
  /-- The check `p->pin_count < 1` of the page accessors, with their message. -/
  | requirePinned (k : PageKey) (msg : String) : PageOp Unit
  /-- `p->data`. -/
  | getData (k : PageKey) : PageOp PageData
  /-- Bytes stored to `p->data`, and `p->dirty = true`. -/
  | putData (k : PageKey) (data : PageData) : PageOp Unit
  /-- `new_page`, with the number of the page, which is pinned. -/
  | newPage (ft : FileType) : PageOp ℕ
  /-- The run stops here. -/
  | stop (f : Fault) : PageOp Empty

namespace PhyDatabase

/-- The disk file of a kind and a type. -/
def file (db : PhyDatabase) : FileKind → FileType → DiskFile
  | .catalogue, _ => db.catalogue
  | .header, ft => db.header ft
  | .records, ft => db.records ft

/-- The database with the bytes of one page replaced. -/
def setPage (db : PhyDatabase) (k : PageKey) (data : PageData) : PhyDatabase :=
  let df := (db.file k.fk k.ft).setPage k.pageNo data
  match k.fk with
  | .catalogue => { db with catalogue := df }
  | .header => { db with header := Function.update db.header k.ft df }
  | .records => { db with records := Function.update db.records k.ft df }

/-- The bounds check of `pin_page`, which `unpin_page` repeats. -/
def checkBounds (P : ℕ) (db : PhyDatabase) (k : PageKey) : Except Fault Unit :=
  if maxPageNo P ≤ k.pageNo ∨ (db.file k.fk k.ft).numPages ≤ k.pageNo then
    .error (.exit "page cache - pin page: Page Number out of bounds!")
  else .ok ()

/-- The pages as a flat array: no page is ever in two places. -/
def flat (P : ℕ) : Handler PageOp PhyDatabase Fault
  | _, .numPages ft, db => .ok ((db.records ft).numPages, db)
  | _, .pinPage k, db =>
      if k.fk = .catalogue ∧ k.ft ≠ .node then
        .error (.exit "page cache - pin page: Invalid Arguments!")
      else do
        db.checkBounds P k
        return ((), db)
  | _, .unpinPage k, db => do
      db.checkBounds P k
      return ((), db)
  | _, .requirePinned _ _, db => .ok ((), db)
  | _, .getData k, db => .ok ((db.file k.fk k.ft).page k.pageNo, db)
  | _, .putData k data, db => .ok ((), db.setPage k data)
  | _, .newPage ft, db => do
      let db ← db.allocatePages P ft 1
      let pageNo := (db.records ft).numPages - 1
      db.checkBounds P ⟨.records, ft, pageNo⟩
      return (pageNo, db)
  | _, .stop f, _ => .error f

/-! ### Runs over flat pages -/

variable {P : ℕ} {db : PhyDatabase} {k : PageKey}

/-- A page that is there. -/
def InFile (db : PhyDatabase) (k : PageKey) : Prop := k.pageNo < (db.file k.fk k.ft).numPages

instance (db : PhyDatabase) (k : PageKey) : Decidable (db.InFile k) :=
  inferInstanceAs (Decidable (_ < _))

theorem checkBounds_ok (hmax : k.pageNo < maxPageNo P) (h : db.InFile k) :
    db.checkBounds P k = .ok () :=
  if_neg (by rw [InFile] at h; omega)

theorem checkBounds_error (h : ¬ db.InFile k) : ∃ e, db.checkBounds P k = .error e :=
  ⟨_, if_pos (.inr (not_lt.mp h))⟩

@[simp] theorem numPages_file_setPage (db : PhyDatabase) (k k' : PageKey) (data : PageData) :
    ((db.setPage k data).file k'.fk k'.ft).numPages = (db.file k'.fk k'.ft).numPages := by
  obtain ⟨fk, ft, n⟩ := k
  obtain ⟨fk', ft', n'⟩ := k'
  cases fk <;> cases fk' <;> simp only [setPage, file]
  · simp
  all_goals
    by_cases h : ft' = ft
    · subst h
      simp
    · simp [Function.update_of_ne h]

theorem page_file_setPage (h : db.InFile k) (hk : k.fk ≠ .catalogue) (k' : PageKey)
    (data : PageData) :
    ((db.setPage k data).file k'.fk k'.ft).page k'.pageNo =
      if k' = k then data else (db.file k'.fk k'.ft).page k'.pageNo := by
  obtain ⟨fk, ft, n⟩ := k
  obtain ⟨fk', ft', n'⟩ := k'
  simp only [InFile] at h
  cases fk <;> cases fk' <;> simp only [setPage, file, PageKey.mk.injEq] at h hk ⊢
  all_goals first | exact absurd rfl hk | skip
  all_goals first | simp; done | skip
  all_goals
    by_cases hft : ft' = ft
    · subst hft
      simp [DiskFile.page_setPage h]
    · simp [hft]

end PhyDatabase

end Goedb
