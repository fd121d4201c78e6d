import Goedb.Basic

/-!
# Io — disk files

`disk_file.c`: a file as the sequence of its pages.  The code only ever creates a file empty and
grows it by whole pages, so its size is `numPages * PAGE_SIZE`.  A write is read back as it was
written; the stdio buffer and the read and write counters are not modelled.
-/

namespace Goedb

/-- `disk_file`: the bytes of its pages. -/
structure DiskFile where
  pages : List PageData

namespace DiskFile

/-- `num_pages`. -/
def numPages (df : DiskFile) : ℕ := df.pages.length

/-- The bytes of a page; zeros beyond the end of the file. -/
def page (df : DiskFile) (pageNo : ℕ) : PageData := df.pages.getD pageNo zeroPage

/-- `file_size`. -/
def fileSize (P : ℕ) (df : DiskFile) : ℕ := df.numPages * P

/-- `disk_file_create`: an empty file. -/
def create : DiskFile := ⟨[]⟩

/-- The file with the bytes of one page replaced. -/
def setPage (df : DiskFile) (pageNo : ℕ) (data : PageData) : DiskFile := ⟨df.pages.set pageNo data⟩

/-- `disk_file_grow`: pages of zeros at the end. -/
def grow (P : ℕ) (df : DiskFile) (byNumPages : ℕ) : Except Fault DiskFile :=
  if maxPageNo P ≤ (df.numPages + byNumPages) % 2 ^ 64 then
    .error (.exit "disk file - grow: Cannot grow database! Exceeds max database size")
  -- `calloc` refuses a product that does not fit
  else if 2 ^ 64 ≤ byNumPages * P then
    .error (.exit "disk page - grow: Failed to allocate memory!")
  else .ok ⟨df.pages ++ List.replicate byNumPages zeroPage⟩

/-- `read_page`.  At `page_no = num_pages` the bounds check passes and `fread` comes up short. -/
def readPage (P : ℕ) (df : DiskFile) (pageNo : ℕ) : Except Fault PageData :=
  if maxPageNo P < pageNo ∨ df.numPages < pageNo then
    .error (.exit "disk file - read pages: One of the page numbers you specified are too large!")
  else if pageNo = df.numPages then
    .error (.exit "disk file - read pages: Failed to read the pages")
  else .ok (df.page pageNo)

/-- `write_page`. -/
def writePage (P : ℕ) (df : DiskFile) (pageNo : ℕ) (data : PageData) : Except Fault DiskFile :=
  if maxPageNo P < pageNo then
    .error (.exit "disk file - write page: One of the page numbers you specified are too large!")
  else if df.numPages < pageNo + 1 then
    .error (.exit "disk file - write: File not large enough!")
  else .ok (df.setPage pageNo data)

@[simp] theorem numPages_setPage (df : DiskFile) (n : ℕ) (data : PageData) :
    (df.setPage n data).numPages = df.numPages := List.length_set

theorem page_setPage {df : DiskFile} {n : ℕ} (h : n < df.numPages) (data : PageData) (i : ℕ) :
    (df.setPage n data).page i = if i = n then data else df.page i := by
  unfold numPages at h
  simp only [page, setPage, List.getD_eq_getElem?_getD, List.getElem?_set]
  by_cases hi : n = i
  · subst hi
    simp [h]
  · simp [hi, Ne.symm hi]

/-- A file is given by its pages. -/
theorem eq_of {df df' : DiskFile} (hn : df.numPages = df'.numPages)
    (hp : ∀ i, df.page i = df'.page i) : df = df' := by
  obtain ⟨pages⟩ := df
  obtain ⟨pages'⟩ := df'
  refine congrArg mk (List.ext_getElem hn fun i h h' => ?_)
  have := hp i
  simpa [page, h, h'] using this

/-- `df'` is `df` with `n` pages of zeros at its end. -/
structure GrownBy (df : DiskFile) (n : ℕ) (df' : DiskFile) : Prop where
  numPages : df'.numPages = df.numPages + n
  page : ∀ i, df'.page i = df.page i

theorem GrownBy.refl (df : DiskFile) : df.GrownBy 0 df := ⟨rfl, fun _ => rfl⟩

theorem grownBy_append (df : DiskFile) (n : ℕ) :
    df.GrownBy n ⟨df.pages ++ List.replicate n zeroPage⟩ where
  numPages := by simp [DiskFile.numPages]
  page i := by
    simp only [DiskFile.page, List.getD_eq_getElem?_getD, List.getElem?_append]
    split
    · rfl
    · rename_i h
      rw [List.getElem?_eq_none (l := df.pages) (by omega), List.getElem?_replicate]
      split <;> rfl

theorem grow_ok {P : ℕ} {df : DiskFile} {n : ℕ} (hn : df.numPages + n < maxPageNo P) :
    ∃ df', df.grow P n = .ok df' ∧ df.GrownBy n df' := by
  have hle : maxPageNo P ≤ 2 ^ 63 - 1 := Nat.div_le_self _ _
  have hmul : maxPageNo P * P ≤ 2 ^ 63 - 1 := Nat.div_mul_le_self _ _
  have hnP : n * P ≤ maxPageNo P * P := Nat.mul_le_mul_right P (by omega)
  rw [grow, if_neg (by omega), if_neg (by omega)]
  exact ⟨_, rfl, df.grownBy_append n⟩

/-- What the code lets grow stays below `MAX_PAGE_NO`: the sum of its bounds check does not wrap
for a number of pages that `calloc` accepts. -/
theorem lt_of_grow {P : ℕ} {df df' : DiskFile} {n : ℕ} (h : df.grow P n = .ok df')
    (hlt : df.numPages < maxPageNo P) (hP : 2 ≤ P) : df.numPages + n < maxPageNo P := by
  have hle : maxPageNo P ≤ 2 ^ 63 - 1 := Nat.div_le_self _ _
  unfold grow at h
  split at h
  · cases h
  · rename_i hbound
    split at h
    · cases h
    · rename_i hcalloc
      have hn : n * 2 ≤ n * P := Nat.mul_le_mul_left n hP
      rw [Nat.mod_eq_of_lt (by omega)] at hbound
      omega

theorem readPage_ok {P : ℕ} {df : DiskFile} {n : ℕ} (h : n < df.numPages)
    (hm : n ≤ maxPageNo P) : df.readPage P n = .ok (df.page n) := by
  rw [readPage, if_neg (by omega), if_neg (by omega)]

theorem writePage_ok {P : ℕ} {df : DiskFile} {n : ℕ} (h : n < df.numPages)
    (hm : n ≤ maxPageNo P) (data : PageData) :
    df.writePage P n data = .ok (df.setPage n data) := by
  rw [writePage, if_neg (by omega), if_neg (by omega)]

end DiskFile

end Goedb
