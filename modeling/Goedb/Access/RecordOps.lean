import Goedb.Access.Records

/-!
# Access — the calls that reach a record

The functions of `heap_file.c` that touch pages, in terms of `PageOp`: the existence check, the
page parts of the four `*_internal` readers and writers, the header bits of a record, a new page of
records.  Everything else of the heap file is written over `RecordOp`, the signature of these calls
and of the heap file's own counters; `HeapFile.step` runs it over any machine for the pages.
-/

namespace Goedb

open Lib

namespace OnPages

/-- The header page of an absolute slot. -/
def headerKey (P : ℕ) (ft : FileType) (absoluteSlot : ℕ) : PageKey :=
  ⟨.header, ft, absoluteSlot / (P * charBit)⟩

/-- `check_record_exists`. -/
def checkRecordExists (P : ℕ) (ft : FileType) (id : Ulong) : Prog PageOp Bool := do
  let slots := numSlotsPer ft
  if id.toNat % slots ≠ 0 then return false
  else if (slotOf id + (slots - 1)) % slotsPerPage P < slotOf id % slotsPerPage P then return false
  else
    let key := headerKey P ft (absoluteSlot P id)
    let bitOffset := absoluteSlot P id % (P * charBit)
    Prog.perform (.pinPage key)
    let data ← Prog.perform (.getData key)
    let result ← PageOp.lift <| compareBits data (P * charBit) ucharMax bitOffset slots
    Prog.perform (.unpinPage key)
    return result

/-- The page of a record. -/
def recordKey (ft : FileType) (id : Ulong) : PageKey := ⟨.records, ft, pageOf id⟩

/-- The page part of `read_node_internal`. -/
def readNode (P : ℕ) (id : Ulong) : Prog PageOp Node := do
  Prog.perform (.pinPage (recordKey .node id))
  let node ← nodeRead P { newNode with id := id } (recordKey .node id)
  Prog.perform (.unpinPage (recordKey .node id))
  return node

/-- The page part of `read_relationship_internal`. -/
def readRelationship (P : ℕ) (id : Ulong) : Prog PageOp Relationship := do
  Prog.perform (.pinPage (recordKey .relationship id))
  let rel ← relationshipRead P { newRelationship with id := id } (recordKey .relationship id)
  Prog.perform (.unpinPage (recordKey .relationship id))
  return rel

/-- The page part of `update_node_internal`. -/
def writeNode (P : ℕ) (node : Node) : Prog PageOp Unit := do
  Prog.perform (.pinPage (recordKey .node node.id))
  nodeWrite P node (recordKey .node node.id)
  Prog.perform (.unpinPage (recordKey .node node.id))

/-- The page part of `update_relationship_internal`. -/
def writeRelationship (P : ℕ) (rel : Relationship) : Prog PageOp Unit := do
  Prog.perform (.pinPage (recordKey .relationship rel.id))
  relationshipWrite P rel (recordKey .relationship rel.id)
  Prog.perform (.unpinPage (recordKey .relationship rel.id))

/-- The header bits of the record at `id` set or cleared, as `next_free_slots`, the two deletions
and the two swaps do it. -/
def setBits (P : ℕ) (ft : FileType) (id : Ulong) (used : Bool) : Prog PageOp Unit := do
  let slot := absoluteSlot P id
  let key := headerKey P ft slot
  let byteOffset := BitVec.ofNat 16 (slot / charBit % P)
  let bitOffset := slot % charBit
  Prog.perform (.pinPage key)
  writeBits P (numSlotsPer ft + 1) key byteOffset bitOffset (numSlotsPer ft)
    [if used then ucharMax else 0#8]
  Prog.perform (.unpinPage key)

/-- The new page of `next_free_slots`. -/
def newPage (ft : FileType) : Prog PageOp ℕ := do
  let pageNo ← Prog.perform (.newPage ft)
  if 2 ^ 64 - 2 ^ charBit < pageNo then
    PageOp.abort (.exit "heap file - next free slot: Reached size limit of Database")
  else
    Prog.perform (.unpinPage ⟨.records, ft, pageNo⟩)
    return pageNo

end OnPages

/-- The lines of the heap file's log that tell where records live. -/
inductive LogEntry where
  | createNode (id label : Ulong)
  | createRel (id label : Ulong)
  | deleteNode (id label : Ulong)
  | deleteRel (id label : Ulong)
  | swapNodes (fst fstLabel snd sndLabel : Ulong)
  | swapRelationships (fst snd : Ulong)
  deriving DecidableEq, Repr

/-- The fields of `heap_file` besides the cache.  The log is the newest line first. -/
structure Counters where
  nNodes : Ulong
  nRels : Ulong
  lastAllocNodeId : Ulong
  lastAllocRelId : Ulong
  log : List LogEntry
  deriving DecidableEq, Repr

/-- `heap_file`, over the pages of some machine. -/
structure HeapFile (σ : Type) where
  cache : σ
  counters : Counters

/-- The calls that reach a record or the heap file's own fields. -/
inductive RecordOp : Type → Type where
  | numPages (ft : FileType) : RecordOp ℕ
  | checkRecordExists (ft : FileType) (id : Ulong) : RecordOp Bool
  | readNode (id : Ulong) : RecordOp Node
  | readRelationship (id : Ulong) : RecordOp Relationship
  | writeNode (node : Node) : RecordOp Unit
  | writeRelationship (rel : Relationship) : RecordOp Unit
  | setBits (ft : FileType) (id : Ulong) (used : Bool) : RecordOp Unit
  | newPage (ft : FileType) : RecordOp ℕ
  | getCounters : RecordOp Counters
  | setCounters (c : Counters) : RecordOp Unit
  | stop (f : Fault) : RecordOp Empty

/-- A function of the heap file. -/
abbrev HF := Prog RecordOp

namespace HeapFile

variable {σ α : Type}

/-- Code over pages, run on the pages of the heap file. -/
def onPages (h : Handler PageOp σ Fault) (hf : HeapFile σ) (x : Prog PageOp α) :
    Except Fault (α × HeapFile σ) :=
  match x.run h hf.cache with
  | .ok (a, cache) => .ok (a, { hf with cache := cache })
  | .error f => .error f

/-- What each call does to the heap file, given what the calls of `PageOp` do to its pages. -/
def step (P : ℕ) (h : Handler PageOp σ Fault) : Handler RecordOp (HeapFile σ) Fault
  | _, .numPages ft, hf => hf.onPages h (.perform (.numPages ft))
  | _, .checkRecordExists ft id, hf => hf.onPages h (OnPages.checkRecordExists P ft id)
  | _, .readNode id, hf => hf.onPages h (OnPages.readNode P id)
  | _, .readRelationship id, hf => hf.onPages h (OnPages.readRelationship P id)
  | _, .writeNode node, hf => hf.onPages h (OnPages.writeNode P node)
  | _, .writeRelationship rel, hf => hf.onPages h (OnPages.writeRelationship P rel)
  | _, .setBits ft id used, hf => hf.onPages h (OnPages.setBits P ft id used)
  | _, .newPage ft, hf => hf.onPages h (OnPages.newPage ft)
  | _, .getCounters, hf => .ok (hf.counters, hf)
  | _, .setCounters c, hf => .ok ((), { hf with counters := c })
  | _, .stop f, _ => .error f

end HeapFile

end Goedb
