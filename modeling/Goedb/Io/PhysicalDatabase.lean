import Goedb.Io.DiskFile
import Goedb.Lib.Bytes

/-!
# Io — the physical database

`physical_database.c`: one catalogue, and for nodes and for relationships a header file and a
record file.  The catalogue's first page holds, for each file type, the number of slots of its
record file; a header page holds one bit for each slot; `remainingHeaderBits` counts the header
bits that no slot uses.

`allocatePages` grows the three together.  `create` makes the files anew, `openFiles` takes the files
that an earlier `close` left and checks them.
-/

namespace Goedb

open Lib

/-- `phy_database`. -/
structure PhyDatabase where
  catalogue : DiskFile
  header : FileType → DiskFile
  records : FileType → DiskFile
  remainingHeaderBits : FileType → ℕ

/-- The files of a database, as `phy_database_close` leaves them. -/
structure DbFiles where
  catalogue : DiskFile
  header : FileType → DiskFile
  records : FileType → DiskFile

namespace PhyDatabase

/-- The catalogue's entry for `ft`. -/
def entryOf (buf : PageData) (ft : FileType) : Ulong := loadWord buf (ft.toNat * 8)

/-- `phy_database_validate_empty_header`. -/
def validateEmptyHeader (P : ℕ) (db : PhyDatabase) (ft : FileType) :
    Except Fault (Bool × PhyDatabase) := do
  let marked (db : PhyDatabase) : Bool × PhyDatabase :=
    (true, { db with remainingHeaderBits :=
      Function.update db.remainingHeaderBits ft (P * charBit) })
  if (db.header ft).fileSize P ≠ 0 then
    let buf ← db.catalogue.readPage P 0
    if entryOf buf ft ≠ 0 ∨ (db.header ft).fileSize P ≠ P then
      return (false, db)
    let buf ← (db.header ft).readPage P 0
    if (List.range P).any fun i => buf i != 0 then
      return (false, db)
    return marked db
  else
    let h ← (db.header ft).grow P 1
    return marked { db with header := Function.update db.header ft h }

/-- `phy_database_validate_header`. -/
def validateHeader (P : ℕ) (db : PhyDatabase) (ft : FileType) :
    Except Fault (Bool × PhyDatabase) := do
  if (db.header ft).fileSize P = 0 then
    return (false, db)
  let buf ← db.catalogue.readPage P 0
  let size := (entryOf buf ft).toNat
  if size ≠ (db.records ft).fileSize P / slotSize then
    return (false, db)
  let remaining := ((db.header ft).fileSize P * charBit % 2 ^ 64 + 2 ^ 64 - size) % 2 ^ 64
  return (true,
    { db with remainingHeaderBits := Function.update db.remainingHeaderBits ft remaining })

/-- One turn of the loop of `phy_database_create_internal` over the file types. -/
def validate (P : ℕ) (opened : Bool) (db : PhyDatabase) (ft : FileType) :
    Except Fault PhyDatabase := do
  let (valid, db) ←
    if opened = false ∨ (db.records ft).fileSize P = 0 then validateEmptyHeader P db ft
    else validateHeader P db ft
  if valid then return db
  else .error (.exit "physical database: failed to open database - Invalid header!")

/-- `phy_database_create_internal`, after the files are open. -/
def createInternal (P : ℕ) (opened : Bool) (files : DbFiles) : Except Fault PhyDatabase := do
  let db ← validate P opened
    { catalogue := files.catalogue, header := files.header, records := files.records
      remainingHeaderBits := fun _ => 0 } .node
  validate P opened db .relationship

/-- `phy_database_create`: every file is truncated, the catalogue gets one page. -/
def create (P : ℕ) : Except Fault PhyDatabase := do
  let catalogue ← DiskFile.create.grow P 1
  createInternal P false
    { catalogue := catalogue, header := fun _ => DiskFile.create
      records := fun _ => DiskFile.create }

/-- `phy_database_open`.  Without files `fopen` fails. -/
def openFiles (P : ℕ) : Option DbFiles → Except Fault PhyDatabase
  | none => .error (.exit "disk file - create: failed to fopen")
  | some files => createInternal P true files

/-- `phy_database_close`. -/
def close (db : PhyDatabase) : DbFiles :=
  { catalogue := db.catalogue, header := db.header, records := db.records }

/-- A quotient rounded up, as `allocate_pages` writes it. -/
def divUp (x d : ℕ) : ℕ := x / d + if x % d ≠ 0 then 1 else 0

/-- The header's part of `allocate_pages`: the header file and its remaining bits, once
`neccessaryBits` more of them are used. -/
def growHeader (P : ℕ) (header : DiskFile) (remaining neccessaryBits : ℕ) :
    Except Fault (DiskFile × ℕ) := do
  if remaining < neccessaryBits then
    let additionalBits := neccessaryBits - remaining
    let additionalBytes := divUp additionalBits charBit
    let additionalPages := divUp additionalBytes P
    let header ← header.grow P additionalPages
    return (header,
      (additionalPages * P * charBit % 2 ^ 64 + 2 ^ 64 - additionalBits) % 2 ^ 64)
  else return (header, remaining - neccessaryBits)

/-- `allocate_pages`. -/
def allocatePages (P : ℕ) (db : PhyDatabase) (ft : FileType) (numPages : ℕ) :
    Except Fault PhyDatabase := do
  let records ← (db.records ft).grow P numPages
  let neccessaryBits := numPages * slotsPerPage P % 2 ^ 64
  let (header, remaining) ←
    growHeader P (db.header ft) (db.remainingHeaderBits ft) neccessaryBits
  let buf ← db.catalogue.readPage P 0
  let bits := entryOf buf ft + BitVec.ofNat 64 neccessaryBits
  let catalogue ← db.catalogue.writePage P 0 (storeWord buf (ft.toNat * 8) bits)
  return { catalogue := catalogue
           header := Function.update db.header ft header
           records := Function.update db.records ft records
           remainingHeaderBits := Function.update db.remainingHeaderBits ft remaining }

end PhyDatabase

end Goedb
