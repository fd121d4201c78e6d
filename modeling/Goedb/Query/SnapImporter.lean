import Goedb.Access.InMemoryGraph
import Goedb.Cache.PageCache
import Goedb.DataStruct.Dict

/-!
# Query — the importer

`import_from_txt` and `in_memory_import_from_txt` of `snap_importer.c`.  Both read a file line by line
and create a node for every id they have not seen before and a relationship for every line; they
differ in the functions they create with (`Importer`).

A file is the list of its lines, and a line is what `sscanf` makes of it.  The two functions print how
far they are, which is left out here, and so is the function that downloads a file.
-/

namespace Goedb

open Lib

/-- `dataset_t`. -/
inductive Dataset where
  | cElegans
  | emailEuCore
  | dblp
  | amazon
  | youtube
  | wikipedia
  | liveJournal
  | orkut
  | friendster
  deriving DecidableEq, Repr

/-- `get_no_nodes`. -/
def getNoNodes : Dataset → ℕ
  | .cElegans => 131
  | .emailEuCore => 1005
  | .dblp => 317080
  | .amazon => 334863
  | .youtube => 1134890
  | .wikipedia => 1791489
  | .liveJournal => 3997962
  | .orkut => 3072441
  | .friendster => 65608366

/-- `get_no_rels`. -/
def getNoRels : Dataset → ℕ
  | .cElegans => 764
  | .emailEuCore => 25571
  | .dblp => 1049866
  | .amazon => 925872
  | .youtube => 2987624
  | .wikipedia => 28511807
  | .liveJournal => 34681189
  | .orkut => 117185083
  | .friendster => 1806067135

/-- A line of the file: a comment, which starts with `#`, or two ids and perhaps a weight, or
anything else. -/
inductive Line where
  | comment
  | fields (fromId toId : Ulong) (weight : Option Double)
  | other
  deriving DecidableEq, Repr

/-- What `sscanf` reads from a line that is not a comment: with `weighted` there has to be a weight,
without it the weight is not looked at. -/
def Line.scan (weighted : Bool) : Line → Option (Ulong × Ulong × Option Double)
  | .fields fromId toId weight =>
      if weighted then
        match weight with
        | some w => some (fromId, toId, some w)
        | none => none
      else some (fromId, toId, none)
  | _ => none

/-- The functions that an import creates records with. -/
structure Importer (Op : Type → Type) where
  createNode : (label : Ulong) → Prog Op Ulong
  createRelationship : (fromId toId label : Ulong) → Prog Op Ulong
  createRelationshipWeighted : (fromId toId : Ulong) → (weight : Double) → (label : Ulong) →
    Prog Op Ulong
  stop : Fault → Op Empty

namespace Importer

variable {Op : Type → Type} (I : Importer Op)

/-- A fault. -/
def abort {α : Type} (f : Fault) : Prog Op α := Prog.call (I.stop f) Empty.elim

/-- The record of an id of the file, which is created if the id is new, and the map with it. -/
def nodeFor (txtToDbIdN : Dict) (id : Ulong) : Prog Op (Ulong × Dict) :=
  match txtToDbIdN.lookup id with
  | some dbId => pure (dbId, txtToDbIdN)
  | none => do
      let dbId ← I.createNode id
      return (dbId, txtToDbIdN.insert id dbId)

/-- The loop over `from_to`, with `n` fields to go from field `i` on.  The array is rewritten in
place. -/
def translate : (n i : ℕ) → (fromTo : List Ulong) → (txtToDbIdN : Dict) →
    Prog Op (List Ulong × Dict)
  | 0, _, fromTo, txtToDbIdN => pure (fromTo, txtToDbIdN)
  | n + 1, i, fromTo, txtToDbIdN =>
      match fromTo[i]? with
      | none => I.abort .undefined
      | some id => do
          let (dbId, txtToDbIdN) ← I.nodeFor txtToDbIdN id
          translate n (i + 1) (fromTo.set i dbId) txtToDbIdN

/-- `import_fields`. -/
def importFields (weighted : Bool) : ℕ := if weighted then 3 else 2

/-- The relationship of a line. -/
def createFor (fromTo : List Ulong) (weight : Option Double) (label : Ulong) : Prog Op Ulong :=
  match fromTo[0]?, fromTo[1]? with
  | some fromId, some toId =>
      match weight with
      | some w => I.createRelationshipWeighted fromId toId w label
      | none => I.createRelationship fromId toId label
  | _, _ => I.abort .undefined

/-- The loop over the lines of the file: `lines` is the number of those that were imported. -/
def importLines (weighted : Bool) : (file : List Line) → (lines : Ulong) →
    (txtToDbIdN txtToDbIdR : Dict) → Prog Op (Dict × Dict)
  | [], _, txtToDbIdN, txtToDbIdR => pure (txtToDbIdN, txtToDbIdR)
  | line :: file, lines, txtToDbIdN, txtToDbIdR =>
      if line = .comment then importLines weighted file lines txtToDbIdN txtToDbIdR
      else
        match line.scan weighted with
        | none => I.abort (.exit "snap importer - import from txt: Failed to read input\n")
        | some (fromId, toId, weight) => do
            let (fromTo, txtToDbIdN) ← I.translate (importFields weighted) 0 [fromId, toId] txtToDbIdN
            let dbId ← I.createFor fromTo weight lines
            importLines weighted file (lines + 1) txtToDbIdN (txtToDbIdR.insert lines dbId)

end Importer

/-- A call with `log = false`: the log stays as it is. -/
def HF.unlogged {α : Type} (x : HF α) : HF α := do
  let c ← Prog.perform .getCounters
  let a ← x
  HF.modifyCounters fun c' => { c' with log := c.log }
  return a

/-- The functions of the heap file. -/
def HF.importer (P fuel : ℕ) : Importer RecordOp where
  createNode label := HF.unlogged (HF.createNode P fuel label)
  createRelationship fromId toId label :=
    HF.unlogged (HF.createRelationship P fuel fromId toId doubleOne label)
  createRelationshipWeighted fromId toId weight label :=
    HF.unlogged (HF.createRelationship P fuel fromId toId weight label)
  stop := .stop

/-- The functions of the in-memory graph. -/
def Mem.importer : Importer MemOp where
  createNode := Mem.createNode
  createRelationship := Mem.createRelationship
  createRelationshipWeighted := Mem.createRelationshipWeighted
  stop := .stop

/-- The pages that `n` records of a type take. -/
def pagesFor (P : ℕ) (ft : FileType) (n : ℕ) : ℕ :=
  n * numSlotsPer ft / slotsPerPage P + if n * numSlotsPer ft % slotsPerPage P ≠ 0 then 1 else 0

namespace HeapFile

/-- `hf->cache->bulk_import` set. -/
def setBulkImport (hf : HeapFile PageCache) (on : Bool) : HeapFile PageCache :=
  { hf with cache := { hf.cache with bulkImport := on } }

/-- `allocate_pages` on the files of the heap file. -/
def allocatePages (P : ℕ) (hf : HeapFile PageCache) (ft : FileType) (n : ℕ) :
    Except Fault (HeapFile PageCache) := do
  let pdb ← hf.cache.pdb.allocatePages P ft n
  return { hf with cache := { hf.cache with pdb := pdb } }

/-- `import_from_txt`. -/
def importFromTxt (P fuel : ℕ) (hf : HeapFile PageCache) (file : List Line) (weighted : Bool)
    (dataset : Dataset) : Except Fault ((Dict × Dict) × HeapFile PageCache) := do
  let hf := hf.setBulkImport true
  let hf ← hf.allocatePages P .node (pagesFor P .node (getNoNodes dataset))
  let hf ← hf.allocatePages P .relationship (pagesFor P .relationship (getNoRels dataset))
  let (result, hf) ← Prog.run (step P (PageCache.handler P))
    ((HF.importer P fuel).importLines weighted file 0 ∅ ∅) hf
  return (result, hf.setBulkImport false)

end HeapFile

/-- `in_memory_import_from_txt`.  The data set is only used for what is printed. -/
def inMemoryImportFromTxt (g : InMemoryGraph) (file : List Line) (weighted : Bool) :
    Except Fault ((Dict × Dict) × InMemoryGraph) :=
  InMemoryGraph.run (Mem.importer.importLines weighted file 0 ∅ ∅) g

end Goedb
