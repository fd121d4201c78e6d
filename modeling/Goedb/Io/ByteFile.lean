import Goedb.Io.DiskFile
import Goedb.Lib.Steps
import Goedb.Lib.Stream
import Mathlib.Data.List.GetD

/-!
# Io — the bytes of a disk file

`disk_file.c` once more, over the stream that `fopen` returns: every function seeks to a byte offset and
reads or writes there, and `num_pages` is computed from the size that `ftell` reports.

The rest of the model takes a file for the sequence of its pages (`DiskFile`).  `ByteFile.run_alike`: on
a file of whole pages the two cannot be told apart by any sequence of calls, faults included; writing or
reading several pages at once is writing or reading each of them, and `disk_file_shrink` drops pages from
the end but never the last one.
-/

namespace Goedb

open Lib

/-- A line of the log file of a disk file. -/
inductive FileLogLine where
  | growFile (byNumPages : ℕ)
  | shrinkFile (byNumPages : ℕ)
  | writePages (fstPage lstPage : ℕ)
  | readPages (fstPage lstPage : ℕ)
  deriving DecidableEq, Repr

/-- `disk_file`. -/
structure ByteFile where
  file : Lib.Stream Uchar
  fileSize : ℕ
  numPages : ℕ
  readCount : ℕ
  writeCount : ℕ
  logFile : List FileLogLine
  deriving DecidableEq, Repr

/-- The refusal of a range of pages that ends before it begins. -/
def wrongOrder (what : String) : Fault :=
  .exit (what ++ ": The number of the last page to be read needs to be larger than the number of " ++
    "the first page to be read!")

namespace ByteFile

/-- `disk_file_open`, of a file that holds `bytes`. -/
def openFile (P : ℕ) (bytes : List Uchar) (logFile : List FileLogLine) : ByteFile :=
  let file := (Lib.Stream.openBytes bytes).seekEnd
  { file := file, fileSize := file.tell, numPages := file.tell / P, readCount := 0, writeCount := 0
    logFile := logFile }

/-- `disk_file_create`: `fopen` with mode `wb` truncates the file. -/
def create (P : ℕ) (logFile : List FileLogLine) : ByteFile := openFile P [] logFile

/-- `disk_file_destroy`: the bytes that stay. -/
def destroy (bf : ByteFile) : List Uchar := bf.file.bytes

/-- A line of the log, if asked for. -/
def logLine (bf : ByteFile) (log : Bool) (line : FileLogLine) : List FileLogLine :=
  if log then bf.logFile ++ [line] else bf.logFile

/-- `disk_file_grow`. -/
def grow (P : ℕ) (bf : ByteFile) (byNumPages : ℕ) (log : Bool) : Except Fault ByteFile :=
  if maxPageNo P ≤ (bf.numPages + byNumPages) % 2 ^ 64 then
    .error (.exit "disk file - grow: Cannot grow database! Exceeds max database size")
  else if 2 ^ 64 ≤ byNumPages * P then
    .error (.exit "disk page - grow: Failed to allocate memory!")
  else
    let file := bf.file.seekEnd.write 0#8 (List.replicate (byNumPages * P) 0#8)
    .ok { file := file, fileSize := file.tell, numPages := file.tell / P
          readCount := bf.readCount, writeCount := bf.writeCount + 1
          logFile := bf.logLine log (.growFile byNumPages) }

/-- `disk_file_shrink`.  The difference of the page numbers is unsigned, so that the bounds check refuses
only the number of all pages; more pages than there are make a negative length for `ftruncate`. -/
def shrink (P : ℕ) (bf : ByteFile) (byNumPages : ℕ) (log : Bool) : Except Fault ByteFile :=
  if maxPageNo P < byNumPages then .error (.exit "disk file - shrink: invalid Arguments!")
  else if (bf.numPages + 2 ^ 64 - byNumPages) % 2 ^ 64 ≤ 0 then
    .error (.exit "disk file - shrink: Cannot shrink database! The database would have less than 0 pages!")
  else
    let length : ℤ := (bf.fileSize : ℤ) - ((P * byNumPages : ℕ) : ℤ)
    if length < 0 then .error (.exit "disk file - shrink: Failed to truncate the file")
    else
      let file := (bf.file.truncate 0#8 length.toNat).seekEnd
      .ok { file := file, fileSize := file.tell, numPages := file.tell / P
            readCount := bf.readCount, writeCount := bf.writeCount + 1
            logFile := bf.logLine log (.shrinkFile byNumPages) }

/-- `write_pages`.  `fwrite` takes the bytes of the pages from `data`. -/
def writePages (P : ℕ) (bf : ByteFile) (fstPage lstPage : ℕ) (data : List Uchar) (log : Bool) :
    Except Fault ByteFile :=
  if maxPageNo P < fstPage ∨ maxPageNo P < lstPage then
    .error (.exit "disk file - write page: One of the page numbers you specified are too large!")
  else if lstPage < fstPage then
    .error (wrongOrder "disk file - write pages")
  else if bf.numPages < lstPage + 1 then
    .error (.exit "disk file - write: File not large enough!")
  else
    let numPagesWrite := 1 + (lstPage - fstPage)
    if data.length < P * numPagesWrite then .error .undefined
    else
      let file := (bf.file.seek (P * fstPage)).write 0#8 (data.take (P * numPagesWrite))
      .ok { bf with file := file, writeCount := bf.writeCount + 1
                    logFile := bf.logLine log (.writePages fstPage lstPage) }

/-- `write_page`. -/
def writePage (P : ℕ) (bf : ByteFile) (pageNo : ℕ) (data : List Uchar) (log : Bool) :
    Except Fault ByteFile :=
  bf.writePages P pageNo pageNo data log

/-- `read_pages`: what is read into the buffer. -/
def readPages (P : ℕ) (bf : ByteFile) (fstPage lstPage : ℕ) (log : Bool) :
    Except Fault (List Uchar × ByteFile) :=
  if maxPageNo P < fstPage ∨ maxPageNo P < lstPage ∨ bf.numPages < fstPage ∨ bf.numPages < lstPage then
    .error (.exit "disk file - read pages: One of the page numbers you specified are too large!")
  else if lstPage < fstPage then
    .error (wrongOrder "disk file - read pages")
  else
    let numPagesRead := 1 + (lstPage - fstPage)
    let (count, buf, file) := (bf.file.seek (P * fstPage)).read P numPagesRead
    if count ≠ numPagesRead then
      .error (.exit "disk file - read pages: Failed to read the pages")
    else
      .ok (buf, { bf with file := file, readCount := bf.readCount + 1
                          logFile := bf.logLine log (.readPages fstPage lstPage) })

/-- `read_page`. -/
def readPage (P : ℕ) (bf : ByteFile) (pageNo : ℕ) (log : Bool) : Except Fault (List Uchar × ByteFile) :=
  bf.readPages P pageNo pageNo log

/-- `clear_page`. -/
def clearPage (P : ℕ) (bf : ByteFile) (pageNo : ℕ) (log : Bool) : Except Fault ByteFile :=
  bf.writePage P pageNo (List.replicate P 0#8) log

end ByteFile

/-! ### The file as its pages -/

namespace DiskFile

/-- The bytes of a page. -/
def bytesOf (P : ℕ) (page : PageData) : List Uchar := (List.range P).map page

/-- The pages at the beginning of a buffer. -/
def pagesOf (P : ℕ) (data : List Uchar) (n : ℕ) : List PageData :=
  (List.range n).map fun i j => (data.drop (i * P)).getD j 0#8

/-- `disk_file_shrink`: what is left of the pages. -/
def shrink (P : ℕ) (df : DiskFile) (byNumPages : ℕ) : Except Fault DiskFile :=
  if maxPageNo P < byNumPages then .error (.exit "disk file - shrink: invalid Arguments!")
  else if byNumPages = df.numPages then
    .error (.exit "disk file - shrink: Cannot shrink database! The database would have less than 0 pages!")
  else if df.numPages < byNumPages then
    .error (.exit "disk file - shrink: Failed to truncate the file")
  else .ok ⟨df.pages.take (df.numPages - byNumPages)⟩

/-- `write_page` for one page after the other. -/
def writeEach (P : ℕ) : (pageNo : ℕ) → List PageData → DiskFile → Except Fault DiskFile
  | _, [], df => .ok df
  | pageNo, page :: pages, df => do
      let df ← df.writePage P pageNo page
      writeEach P (pageNo + 1) pages df

/-- `read_page` for one page after the other. -/
def readEach (P : ℕ) (df : DiskFile) : (pageNo n : ℕ) → Except Fault (List PageData)
  | _, 0 => .ok []
  | pageNo, n + 1 => do
      let page ← df.readPage P pageNo
      let pages ← readEach P df (pageNo + 1) n
      return page :: pages

/-- `write_pages`, page by page. -/
def writePages (P : ℕ) (df : DiskFile) (fstPage lstPage : ℕ) (data : List Uchar) :
    Except Fault DiskFile :=
  if maxPageNo P < fstPage ∨ maxPageNo P < lstPage then
    .error (.exit "disk file - write page: One of the page numbers you specified are too large!")
  else if lstPage < fstPage then .error (wrongOrder "disk file - write pages")
  else if df.numPages < lstPage + 1 then
    .error (.exit "disk file - write: File not large enough!")
  else if data.length < P * (1 + (lstPage - fstPage)) then .error .undefined
  else df.writeEach P fstPage (pagesOf P data (1 + (lstPage - fstPage)))

/-- `read_pages`, page by page. -/
def readPages (P : ℕ) (df : DiskFile) (fstPage lstPage : ℕ) : Except Fault (List Uchar) :=
  if maxPageNo P < fstPage ∨ maxPageNo P < lstPage ∨ df.numPages < fstPage ∨ df.numPages < lstPage then
    .error (.exit "disk file - read pages: One of the page numbers you specified are too large!")
  else if lstPage < fstPage then .error (wrongOrder "disk file - read pages")
  else do
    let pages ← df.readEach P fstPage (1 + (lstPage - fstPage))
    return pages.flatMap (bytesOf P)

end DiskFile

/-- A call of a function of `disk_file.c` on an open file. -/
inductive FileCall where
  | grow (byNumPages : Ulong) (log : Bool)
  | shrink (byNumPages : Ulong) (log : Bool)
  | writePage (pageNo : Ulong) (data : List Uchar) (log : Bool)
  | writePages (fstPage lstPage : Ulong) (data : List Uchar) (log : Bool)
  | readPage (pageNo : Ulong) (log : Bool)
  | readPages (fstPage lstPage : Ulong) (log : Bool)
  | clearPage (pageNo : Ulong) (log : Bool)
  /-- `disk_file_destroy`, then `disk_file_open`. -/
  | reopen
  deriving DecidableEq, Repr

/-- The line of the log, if asked for. -/
def FileCall.lines : FileCall → List FileLogLine
  | .grow n log => if log then [.growFile n.toNat] else []
  | .shrink n log => if log then [.shrinkFile n.toNat] else []
  | .writePage n _ log => if log then [.writePages n.toNat n.toNat] else []
  | .writePages m n _ log => if log then [.writePages m.toNat n.toNat] else []
  | .readPage n log => if log then [.readPages n.toNat n.toNat] else []
  | .readPages m n log => if log then [.readPages m.toNat n.toNat] else []
  | .clearPage n log => if log then [.writePages n.toNat n.toNat] else []
  | .reopen => []

/-- A disk file and what was read from it. -/
structure ByteSession where
  file : ByteFile
  reads : List (List Uchar)
  deriving DecidableEq, Repr

/-- The pages of a disk file, what was read from it, and its log. -/
structure PageSession where
  file : DiskFile
  reads : List (List Uchar)
  log : List FileLogLine

namespace ByteSession

/-- One call, on the bytes. -/
def exec (P : ℕ) (call : FileCall) (s : ByteSession) : Except Fault ByteSession :=
  match call with
  | .grow n log => do
      let file ← s.file.grow P n.toNat log
      return { s with file := file }
  | .shrink n log => do
      let file ← s.file.shrink P n.toNat log
      return { s with file := file }
  | .writePage n data log => do
      let file ← s.file.writePage P n.toNat data log
      return { s with file := file }
  | .writePages m n data log => do
      let file ← s.file.writePages P m.toNat n.toNat data log
      return { s with file := file }
  | .readPage n log => do
      let (buf, file) ← s.file.readPage P n.toNat log
      return ⟨file, s.reads ++ [buf]⟩
  | .readPages m n log => do
      let (buf, file) ← s.file.readPages P m.toNat n.toNat log
      return ⟨file, s.reads ++ [buf]⟩
  | .clearPage n log => do
      let file ← s.file.clearPage P n.toNat log
      return { s with file := file }
  | .reopen => .ok { s with file := ByteFile.openFile P s.file.destroy s.file.logFile }

end ByteSession

namespace PageSession

/-- What becomes of the pages. -/
def change (P : ℕ) (df : DiskFile) : FileCall → Except Fault DiskFile
  | .grow n _ => df.grow P n.toNat
  | .shrink n _ => df.shrink P n.toNat
  | .writePage n data _ => df.writePages P n.toNat n.toNat data
  | .writePages m n data _ => df.writePages P m.toNat n.toNat data
  | .clearPage n _ => df.writePage P n.toNat zeroPage
  | _ => .ok df

/-- What is read from the pages. -/
def answer (P : ℕ) (df : DiskFile) : FileCall → Except Fault (List (List Uchar))
  | .readPage n _ => do
      let page ← df.readPage P n.toNat
      return [DiskFile.bytesOf P page]
  | .readPages m n _ => do
      let buf ← df.readPages P m.toNat n.toNat
      return [buf]
  | _ => .ok []

/-- One call, on the pages. -/
def exec (P : ℕ) (call : FileCall) (t : PageSession) : Except Fault PageSession := do
  let file ← change P t.file call
  let bufs ← answer P t.file call
  return ⟨file, t.reads ++ bufs, t.log ++ call.lines⟩

end PageSession

namespace DiskFile

variable {P : ℕ} {df : DiskFile}

@[simp] theorem length_bytesOf (page : PageData) : (bytesOf P page).length = P := by simp [bytesOf]

@[simp] theorem length_pagesOf (data : List Uchar) (n : ℕ) : (pagesOf P data n).length = n := by
  simp [pagesOf]

theorem bytesOf_zeroPage : bytesOf P zeroPage = List.replicate P 0#8 := by
  rw [bytesOf, List.eq_replicate_iff]
  simp [zeroPage]

theorem flatMap_zeroPages (n : ℕ) :
    (List.replicate n zeroPage).flatMap (bytesOf P) = List.replicate (n * P) 0#8 := by
  induction n with
  | zero => simp
  | succ n ih =>
      rw [List.replicate_succ, List.flatMap_cons, ih, bytesOf_zeroPage, List.replicate_append_replicate,
        Nat.succ_mul, Nat.add_comm]

/-- The first page of a buffer, and the pages behind it. -/
theorem pagesOf_succ (data : List Uchar) (n : ℕ) :
    pagesOf P data (n + 1) = (fun j => data.getD j 0#8) :: pagesOf P (data.drop P) n := by
  simp only [pagesOf, List.range_succ_eq_map, List.map_cons, List.map_map, Nat.zero_mul, List.drop_zero,
    List.cons.injEq, true_and]
  refine List.map_congr_left fun i _ => funext fun j => ?_
  rw [Function.comp_apply, List.drop_drop, Nat.succ_mul, Nat.add_comm]

theorem bytesOf_getD {data : List Uchar} (h : P ≤ data.length) :
    bytesOf P (fun j => data.getD j 0#8) = data.take P := by
  refine List.ext_getElem ?_ fun i hi _ => ?_
  · rw [length_bytesOf, List.length_take, Nat.min_eq_left h]
  · rw [length_bytesOf] at hi
    have hid : i < data.length := Nat.lt_of_lt_of_le hi h
    simp only [bytesOf, List.getElem_map, List.getElem_range, List.getElem_take,
      List.getD_eq_getElem data 0#8 hid]

/-- The bytes of the pages of a buffer are those at its beginning. -/
theorem flatMap_pagesOf (n : ℕ) : ∀ {data : List Uchar}, P * n ≤ data.length →
    (pagesOf P data n).flatMap (bytesOf P) = data.take (P * n) := by
  induction n with
  | zero => simp [pagesOf]
  | succ n ih =>
      intro data h
      rw [Nat.mul_succ] at h
      rw [pagesOf_succ, List.flatMap_cons, bytesOf_getD (by omega),
        ih (by rw [List.length_drop]; omega), Nat.mul_succ, Nat.add_comm, List.take_add]

/-- `write_page` for pages of the file. -/
theorem writeEach_ok (pages : List PageData) : ∀ {df : DiskFile} {pageNo : ℕ},
    pageNo + pages.length ≤ df.numPages → df.numPages < maxPageNo P →
    df.writeEach P pageNo pages =
      .ok ⟨df.pages.take pageNo ++ pages ++ df.pages.drop (pageNo + pages.length)⟩ := by
  induction pages with
  | nil =>
      intro df pageNo _ _
      rw [writeEach, List.append_nil, List.length_nil, Nat.add_zero, List.take_append_drop]
  | cons page pages ih =>
      intro df pageNo h hmax
      rw [List.length_cons] at h
      have hlt : pageNo < df.pages.length := by
        rw [← numPages]
        omega
      rw [writeEach, writePage_ok (by omega) (by omega), ok_bind,
        ih (by rw [numPages_setPage]; omega) (by rw [numPages_setPage]; exact hmax)]
      congr 2
      have htake : (df.setPage pageNo page).pages.take (pageNo + 1) = df.pages.take pageNo ++ [page] := by
        rw [setPage, List.take_succ_eq_append_getElem (by rw [List.length_set]; exact hlt),
          List.take_set_of_le (Nat.le_refl _), List.getElem_set_self]
      have hdrop : (df.setPage pageNo page).pages.drop (pageNo + 1 + pages.length) =
          df.pages.drop (pageNo + (pages.length + 1)) := by
        rw [setPage, List.drop_set_of_lt (by omega)]
        congr 1
        omega
      rw [htake, hdrop, List.length_cons, List.append_assoc (df.pages.take pageNo), List.singleton_append]

/-- `read_page` for pages of the file. -/
theorem readEach_ok (n : ℕ) : ∀ {pageNo : ℕ}, pageNo + n ≤ df.numPages → df.numPages < maxPageNo P →
    df.readEach P pageNo n = .ok ((df.pages.drop pageNo).take n) := by
  induction n with
  | zero =>
      intro pageNo _ _
      rw [readEach, List.take_zero]
  | succ n ih =>
      intro pageNo h hmax
      have hlt : pageNo < df.pages.length := by
        rw [← numPages]
        omega
      rw [readEach, readPage_ok (by omega) (by omega), ok_bind, ih (by omega) hmax,
        List.drop_eq_getElem_cons hlt, List.take_succ_cons]
      rw [page, List.getD_eq_getElem _ _ hlt]
      rfl

/-- `read_page` up to the end of the file, and once more. -/
theorem readEach_end (n : ℕ) : ∀ {pageNo : ℕ}, pageNo + n = df.numPages → df.numPages < maxPageNo P →
    df.readEach P pageNo (n + 1) =
      .error (.exit "disk file - read pages: Failed to read the pages") := by
  induction n with
  | zero =>
      intro pageNo h hmax
      rw [readEach, readPage, if_neg (by omega), if_pos (by omega), error_bind]
  | succ n ih =>
      intro pageNo h hmax
      rw [readEach, readPage_ok (by omega) (by omega), ok_bind, ih (by omega) hmax, error_bind]

/-- `read_pages` of one page is `read_page`. -/
theorem readPages_self (pageNo : ℕ) :
    df.readPages P pageNo pageNo = df.readPage P pageNo >>= fun page => .ok (bytesOf P page) := by
  rw [readPages, if_neg (Nat.lt_irrefl _), Nat.sub_self, readEach]
  by_cases hbad : maxPageNo P < pageNo ∨ df.numPages < pageNo
  · rw [readPage, if_pos hbad, if_pos (by tauto)]
    rfl
  · rw [if_neg (by tauto)]
    cases df.readPage P pageNo with
    | error e => rfl
    | ok page => exact congrArg Except.ok (List.append_nil _)

/-- `write_pages` of one page is `write_page`. -/
theorem writePages_self (pageNo : ℕ) {data : List Uchar} (hdata : P ≤ data.length) :
    df.writePages P pageNo pageNo data = df.writePage P pageNo fun j => data.getD j 0#8 := by
  rw [writePages, if_neg (Nat.lt_irrefl _), Nat.sub_self, Nat.add_zero, Nat.mul_one,
    if_neg (Nat.not_lt.mpr hdata), pagesOf_succ, writeEach]
  by_cases hmax : maxPageNo P < pageNo
  · rw [writePage, if_pos hmax, if_pos (.inl hmax)]
  · by_cases hnum : df.numPages < pageNo + 1
    · rw [writePage, if_neg hmax, if_pos hnum, if_neg (by tauto), if_pos hnum]
    · rw [if_neg (by tauto), if_neg hnum]
      cases df.writePage P pageNo fun j => data.getD j 0#8 with
      | error e => rfl
      | ok df' => rfl

/-- `clear_page` writes a page of zeros. -/
theorem writePages_zero (pageNo : ℕ) :
    df.writePages P pageNo pageNo (List.replicate P 0#8) = df.writePage P pageNo zeroPage := by
  rw [writePages_self pageNo (List.length_replicate ..).ge]
  congr 1
  funext j
  rw [List.getD_eq_getElem?_getD, List.getElem?_replicate]
  split <;> rfl

end DiskFile

namespace ByteFile

open DiskFile

/-- The bytes are those of the pages, and the fields say how many there are. -/
structure Holds (P : ℕ) (bf : ByteFile) (df : DiskFile) : Prop where
  bytes : bf.file.bytes = df.pages.flatMap (bytesOf P)
  fileSize : bf.fileSize = df.numPages * P
  numPages : bf.numPages = df.numPages
  bound : df.numPages < maxPageNo P

variable {P : ℕ} {bf : ByteFile} {df : DiskFile} (h : bf.Holds P df) (log : Bool)

/-- A file of whole pages, opened. -/
theorem openFile_holds (hP : 0 < P) (logFile : List FileLogLine) (hmax : df.numPages < maxPageNo P) :
    (openFile P (df.pages.flatMap (bytesOf P)) logFile).Holds P df where
  bytes := rfl
  fileSize := Lib.Stream.length_blocks length_bytesOf df.pages
  numPages := by
    show (df.pages.flatMap (bytesOf P)).length / P = df.numPages
    rw [Lib.Stream.length_blocks length_bytesOf, Nat.mul_div_cancel _ hP, DiskFile.numPages]
  bound := hmax

include h

/-- The stream at the end of the file. -/
theorem Holds.seekEnd : bf.file.seekEnd = ⟨df.pages.flatMap (bytesOf P), df.numPages * P⟩ := by
  rw [Lib.Stream.seekEnd, h.bytes, Lib.Stream.length_blocks length_bytesOf, DiskFile.numPages]

/-- The stream at a page. -/
theorem Holds.seek (pageNo : ℕ) :
    bf.file.seek (P * pageNo) = ⟨df.pages.flatMap (bytesOf P), pageNo * P⟩ := by
  rw [Lib.Stream.seek, h.bytes, Nat.mul_comm]

theorem Holds.grow (hP : 2 ≤ P) (n : ℕ) :
    Alike (fun bf' df' => bf'.Holds P df' ∧ bf'.logFile = bf.logLine log (.growFile n))
      (bf.grow P n log) (df.grow P n) := by
  have hinv : ∀ df', df.grow P n = .ok df' → df.numPages + n < maxPageNo P :=
    fun df' he => lt_of_grow he h.bound hP
  rw [ByteFile.grow, DiskFile.grow, h.numPages]
  rw [DiskFile.grow] at hinv
  split
  · exact .error _
  · rename_i hsum
    split
    · exact .error _
    · rename_i hcalloc
      rw [if_neg hsum, if_neg hcalloc] at hinv
      have hlt := hinv _ rfl
      have hfile : bf.file.seekEnd.write 0#8 (List.replicate (n * P) 0#8) =
          ⟨(df.pages ++ List.replicate n zeroPage).flatMap (bytesOf P), (df.numPages + n) * P⟩ := by
        rw [h.seekEnd, ← flatMap_zeroPages, DiskFile.numPages,
          Lib.Stream.write_blocks length_bytesOf _ (Nat.le_refl _), List.take_length,
          List.drop_eq_nil_of_le (by omega), List.append_nil, List.length_replicate]
      have hpages : (df.pages ++ List.replicate n zeroPage).length = df.numPages + n := by
        rw [List.length_append, List.length_replicate, DiskFile.numPages]
      rw [hfile]
      refine .ok ⟨⟨rfl, ?_, ?_, ?_⟩, rfl⟩
      · exact congrArg (· * P) hpages.symm
      · exact (Nat.mul_div_cancel _ (by omega)).trans hpages.symm
      · rw [DiskFile.numPages, hpages]
        exact hlt

/-- **`disk_file_shrink`**: the unsigned difference of the page numbers is zero for the number of all
pages only, and for more pages the length of the file is negative. -/
theorem Holds.shrink (hP : 2 ≤ P) (n : ℕ) :
    Alike (fun bf' df' => bf'.Holds P df' ∧ bf'.logFile = bf.logLine log (.shrinkFile n))
      (bf.shrink P n log) (df.shrink P n) := by
  have hle : maxPageNo P ≤ 2 ^ 63 - 1 := Nat.div_le_self _ _
  have hbound := h.bound
  rw [ByteFile.shrink, DiskFile.shrink, h.numPages, h.fileSize]
  split
  · exact .error _
  · rename_i hmax
    by_cases hall : n = df.numPages
    · rw [if_pos (by omega), if_pos hall]
      exact .error _
    · rw [if_neg (by omega), if_neg hall]
      have hlength : (((df.numPages * P : ℕ) : ℤ) - ((P * n : ℕ) : ℤ)) =
          ((df.numPages : ℤ) - n) * P := by
        push_cast
        ring
      by_cases hmore : df.numPages < n
      · rw [if_pos hmore, if_pos]
        · exact .error _
        · rw [hlength]
          exact Int.mul_neg_of_neg_of_pos (by omega) (by omega)
      · have hnat : ((df.numPages : ℤ) - n) * P = (((df.numPages - n) * P : ℕ) : ℤ) := by
          push_cast [Nat.le_of_not_lt hmore]
          ring
        rw [if_neg hmore, if_neg (by rw [hlength, hnat]; omega)]
        have hk : df.numPages - n ≤ df.pages.length := Nat.sub_le _ _
        have hpages : (df.pages.take (df.numPages - n)).length = df.numPages - n := by
          rw [List.length_take, Nat.min_eq_left hk]
        have hfile : bf.file.truncate 0#8 ((df.numPages - n) * P) =
            ⟨(df.pages.take (df.numPages - n)).flatMap (bytesOf P), bf.file.pos⟩ := by
          rw [← Lib.Stream.truncate_blocks length_bytesOf _ _ hk, ← h.bytes]
        rw [hlength, hnat, Int.toNat_natCast, hfile]
        have hsize : ((df.pages.take (df.numPages - n)).flatMap (bytesOf P)).length =
            (df.numPages - n) * P := by
          rw [Lib.Stream.length_blocks length_bytesOf, hpages]
        refine .ok ⟨⟨rfl, ?_, ?_, ?_⟩, rfl⟩
        · exact hsize.trans (congrArg (· * P) hpages.symm)
        · exact (congrArg (· / P) hsize).trans ((Nat.mul_div_cancel _ (by omega)).trans hpages.symm)
        · rw [DiskFile.numPages, hpages]
          exact Nat.lt_of_le_of_lt (Nat.sub_le _ _) h.bound

/-- **`write_pages`** writes page by page. -/
theorem Holds.writePages (fstPage lstPage : ℕ) (data : List Uchar) :
    Alike (fun bf' df' => bf'.Holds P df' ∧ bf'.logFile = bf.logLine log (.writePages fstPage lstPage))
      (bf.writePages P fstPage lstPage data log) (df.writePages P fstPage lstPage data) := by
  rw [ByteFile.writePages, DiskFile.writePages, h.numPages]
  split
  · exact .error _
  · split
    · exact .error _
    · split
      · exact .error _
      · dsimp only
        split
        · exact .error _
        · rename_i _ horder henough hdata
          have hdata := flatMap_pagesOf _ (Nat.le_of_not_lt hdata)
          have hnum : fstPage + (pagesOf P data (1 + (lstPage - fstPage))).length ≤ df.pages.length := by
            rw [length_pagesOf]
            rw [DiskFile.numPages] at henough
            omega
          generalize pagesOf P data (1 + (lstPage - fstPage)) = new at hdata hnum ⊢
          have hpages : (df.pages.take fstPage ++ new ++ df.pages.drop (fstPage + new.length)).length =
              df.numPages := by
            simp only [List.length_append, List.length_take, List.length_drop, DiskFile.numPages]
            omega
          rw [writeEach_ok new hnum h.bound, h.seek, ← hdata,
            Lib.Stream.write_blocks length_bytesOf _ (Nat.le_trans (Nat.le_add_right _ _) hnum)]
          refine .ok ⟨⟨rfl, ?_, ?_, ?_⟩, rfl⟩
          · exact h.fileSize.trans (congrArg (· * P) hpages.symm)
          · exact hpages.symm
          · rw [DiskFile.numPages, hpages]
            exact h.bound

/-- **`read_pages`** reads page by page. -/
theorem Holds.readPages (hP : 2 ≤ P) (fstPage lstPage : ℕ) :
    Alike (fun r buf => r.1 = buf ∧ r.2.Holds P df ∧
        r.2.logFile = bf.logLine log (.readPages fstPage lstPage))
      (bf.readPages P fstPage lstPage log) (df.readPages P fstPage lstPage) := by
  rw [ByteFile.readPages, DiskFile.readPages, h.numPages]
  split
  · exact .error _
  · rename_i hmax
    split
    · exact .error _
    · rename_i horder
      rw [h.seek]
      by_cases hend : lstPage < df.numPages
      · have hnum : fstPage + (1 + (lstPage - fstPage)) ≤ df.pages.length := by
          rw [DiskFile.numPages] at hend
          omega
        dsimp only
        rw [Lib.Stream.read_blocks length_bytesOf (Nat.lt_of_lt_of_le Nat.zero_lt_two hP) hnum,
          readEach_ok _ hnum h.bound]
        dsimp only
        rw [if_neg (not_not.mpr rfl)]
        exact .ok ⟨rfl, ⟨rfl, h.fileSize, rfl, h.bound⟩, rfl⟩
      · have hlst : fstPage + (lstPage - fstPage) = df.numPages := by omega
        have hshort : (Lib.Stream.read ⟨df.pages.flatMap (bytesOf P), fstPage * P⟩ P
            (1 + (lstPage - fstPage))).1 < 1 + (lstPage - fstPage) :=
          Lib.Stream.read_short length_bytesOf (Nat.lt_of_lt_of_le Nat.zero_lt_two hP)
            (by rw [DiskFile.numPages] at hlst; omega) (by omega)
        dsimp only
        rw [if_pos (Nat.ne_of_lt hshort), Nat.add_comm 1, readEach_end _ hlst h.bound]
        exact .error _

end ByteFile

/-- The session is on the bytes what the other is on the pages. -/
structure ByteSession.Follows (P : ℕ) (s : ByteSession) (t : PageSession) : Prop where
  holds : s.file.Holds P t.file
  reads : s.reads = t.reads
  log : s.file.logFile = t.log

namespace ByteSession

open DiskFile

variable {P : ℕ} {s : ByteSession} {t : PageSession} (h : s.Follows P t)
include h

/-- A call that changes the file. -/
theorem Follows.change {call : FileCall} {line : FileLogLine} {log : Bool} {x : Except Fault ByteFile}
    (hline : call.lines = if log then [line] else []) (hreads : ∀ df, PageSession.answer P df call = .ok [])
    (hx : Alike (fun bf' df' => bf'.Holds P df' ∧ bf'.logFile = s.file.logLine log line) x
      (PageSession.change P t.file call)) :
    Alike (Follows P) (x >>= fun file => .ok { s with file := file }) (PageSession.exec P call t) := by
  refine hx.bind fun bf df hbf => ?_
  rw [hreads, ok_bind]
  refine .ok ⟨hbf.1, ?_, ?_⟩
  · rw [List.append_nil]
    exact h.reads
  · rw [hbf.2, ByteFile.logLine, h.log, hline]
    cases log
    · exact (List.append_nil _).symm
    · rfl

/-- A call that reads from it. -/
theorem Follows.read {call : FileCall} {line : FileLogLine} {log : Bool}
    {x : Except Fault (List Uchar × ByteFile)} {y : Except Fault (List Uchar)}
    (hline : call.lines = if log then [line] else []) (hsame : PageSession.change P t.file call = .ok t.file)
    (hy : PageSession.answer P t.file call = y >>= fun buf => .ok [buf])
    (hx : Alike (fun r buf => r.1 = buf ∧ r.2.Holds P t.file ∧ r.2.logFile = s.file.logLine log line)
      x y) :
    Alike (Follows P) (x >>= fun r => .ok ⟨r.2, s.reads ++ [r.1]⟩) (PageSession.exec P call t) := by
  rw [PageSession.exec, hsame, ok_bind, hy]
  cases hx with
  | error e => exact .error e
  | ok hr =>
      obtain ⟨rfl, hbf, hlog⟩ := hr
      refine .ok ⟨hbf, ?_, ?_⟩
      · rw [h.reads]
      · rw [hlog, ByteFile.logLine, h.log, hline]
        cases log
        · exact (List.append_nil _).symm
        · rfl

/-- **One call** ends alike on the bytes and on the pages. -/
theorem Follows.exec (hP : 2 ≤ P) (call : FileCall) :
    Alike (Follows P) (s.exec P call) (PageSession.exec P call t) := by
  cases call with
  | grow n log => exact h.change rfl (fun _ => rfl) (h.holds.grow log hP n.toNat)
  | shrink n log => exact h.change rfl (fun _ => rfl) (h.holds.shrink log hP n.toNat)
  | writePage n data log =>
      exact h.change rfl (fun _ => rfl) (h.holds.writePages log n.toNat n.toNat data)
  | writePages m n data log =>
      exact h.change rfl (fun _ => rfl) (h.holds.writePages log m.toNat n.toNat data)
  | readPage n log =>
      have hy : PageSession.answer P t.file (.readPage n log) =
          t.file.readPages P n.toNat n.toNat >>= fun buf => .ok [buf] := by
        rw [readPages_self]
        show t.file.readPage P n.toNat >>= _ = _
        cases t.file.readPage P n.toNat <;> rfl
      exact h.read rfl rfl hy (h.holds.readPages log hP n.toNat n.toNat)
  | readPages m n log => exact h.read rfl rfl rfl (h.holds.readPages log hP m.toNat n.toNat)
  | clearPage n log =>
      refine h.change rfl (fun _ => rfl) ?_
      rw [PageSession.change, ← writePages_zero]
      exact h.holds.writePages log n.toNat n.toNat _
  | reopen =>
      refine .ok ⟨?_, h.reads.trans (List.append_nil _).symm, h.log.trans (List.append_nil _).symm⟩
      show (ByteFile.openFile P s.file.file.bytes s.file.logFile).Holds P t.file
      rw [h.holds.bytes]
      exact ByteFile.openFile_holds (Nat.lt_of_lt_of_le Nat.zero_lt_two hP) _ h.holds.bound

end ByteSession

/-- **A disk file is its pages.**  Every sequence of calls on a file of whole pages ends on the bytes as
it ends on the pages: with the same fault, or with the bytes of the same pages, the same bytes read and
the same log. -/
theorem ByteSession.run_alike {P : ℕ} (hP : 2 ≤ P) {df : DiskFile} (hmax : df.numPages < maxPageNo P)
    (calls : List FileCall) :
    Alike (Follows P)
      (runSteps (exec P) calls ⟨.openFile P (df.pages.flatMap (DiskFile.bytesOf P)) [], []⟩)
      (runSteps (PageSession.exec P) calls ⟨df, [], []⟩) :=
  runSteps_alike (fun _ _ call h => h.exec hP call) calls
    ⟨ByteFile.openFile_holds (Nat.lt_of_lt_of_le Nat.zero_lt_two hP) [] hmax, rfl, rfl⟩

/-- Two pages of four bytes, written at once; the first is read after the second is cut off. -/
def shrinkingCalls : List FileCall :=
  [.grow 2#64 true, .writePages 0#64 1#64 [1#8, 2#8, 3#8, 4#8, 5#8, 6#8, 7#8, 8#8] true,
    .shrink 1#64 false, .reopen, .readPage 0#64 true]

theorem ByteSession.run_alike_shrinking : ∃ s t,
    runSteps (exec 4) shrinkingCalls ⟨.openFile 4 [] [], []⟩ = .ok s ∧
    runSteps (PageSession.exec 4) shrinkingCalls ⟨⟨[]⟩, [], []⟩ = .ok t ∧
    t.reads = [[1#8, 2#8, 3#8, 4#8]] ∧ t.file.numPages = 1 ∧ s.Follows 4 t := by
  have hempty : (⟨[]⟩ : DiskFile).numPages < maxPageNo 4 := by decide
  have halike := run_alike (P := 4) (by decide) hempty shrinkingCalls
  have hrun : runSteps (exec 4) shrinkingCalls ⟨.openFile 4 [] [], []⟩ =
      .ok ⟨⟨⟨[1#8, 2#8, 3#8, 4#8], 4⟩, 4, 1, 1, 0,
        [.growFile 2, .writePages 0 1, .readPages 0 0]⟩, [[1#8, 2#8, 3#8, 4#8]]⟩ := by
    decide +kernel
  have hstart : runSteps (exec 4) shrinkingCalls
      ⟨.openFile 4 ((⟨[]⟩ : DiskFile).pages.flatMap (DiskFile.bytesOf 4)) [], []⟩ = _ := hrun
  rw [hstart] at halike
  generalize hspec : runSteps (PageSession.exec 4) shrinkingCalls ⟨⟨[]⟩, [], []⟩ = y at halike
  cases halike with
  | ok h => exact ⟨_, _, hrun, rfl, h.reads.symm, h.holds.numPages.symm, h⟩

end Goedb
