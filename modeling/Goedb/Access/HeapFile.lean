import Goedb.Access.RecordOps

/-!
# Access — the heap file

`heap_file.c` over the calls of `RecordOp`.  A loop of the source takes the number of turns it may
make as an argument `fuel` and stops with `Fault.diverge` after them.

A relationship record that a function holds in memory is an object; two variables of the function
may point to the same one.  `Obj` names the objects by the order in which they come into being, an
`Objs` holds their contents, and a pointer variable is an `Obj`.
-/

namespace Goedb

open Lib

/-- `direction_t`. -/
inductive Direction where
  | outgoing
  | incoming
  | both
  deriving DecidableEq, Repr

/-- The last id handed out for a file type. -/
def Counters.lastAlloc (c : Counters) : FileType → Ulong
  | .node => c.lastAllocNodeId
  | .relationship => c.lastAllocRelId

/-- The counters with the last id handed out replaced. -/
def Counters.setLastAlloc (c : Counters) (ft : FileType) (id : Ulong) : Counters :=
  match ft with
  | .node => { c with lastAllocNodeId := id }
  | .relationship => { c with lastAllocRelId := id }

namespace HF

/-- The run stops. -/
def abort {α : Type} (f : Fault) : HF α := Prog.call (.stop f) Empty.elim

/-- `exit(EXIT_FAILURE)` after a message. -/
def exit {α : Type} (msg : String) : HF α := abort (.exit msg)

/-- A change of the heap file's own fields. -/
def modifyCounters (f : Counters → Counters) : HF Unit := do
  let c ← Prog.perform .getCounters
  Prog.perform (.setCounters (f c))

/-- A line of the log. -/
def log (e : LogEntry) : HF Unit := modifyCounters fun c => { c with log := e :: c.log }

/-- A statement under a condition. -/
def when (c : Prop) [Decidable c] (x : HF Unit) : HF Unit := if c then x else pure ()

/-- `check_record_exists`. -/
def checkRecordExists (ft : FileType) (id : Ulong) : HF Bool :=
  Prog.perform (.checkRecordExists ft id)

/-- The existence check of the internal readers and writers, if it is asked for. -/
def checkIf (checkExists : Bool) (ft : FileType) (id : Ulong) : HF Bool :=
  if checkExists then checkRecordExists ft id else pure true

/-! ### Scanning slots -/

/-- `(record_page_id << CHAR_BIT) | slot_in_page`. -/
def recordId (page slot : ℕ) : Ulong := (BitVec.ofNat 64 page <<< charBit) ||| BitVec.ofNat 64 slot

/-- The page and the slot after a record of `n` slots; the slot is an `unsigned char`. -/
def nextSlot (P n page slot : ℕ) : ℕ × ℕ :=
  if (slot + n) % slotsPerPage P < slot % slotsPerPage P then (page + 1, 0)
  else (page, (slot + n) % 2 ^ charBit)

/-- The search loop of `next_free_slots`. -/
def findFreeSlot (P : ℕ) (ft : FileType) : (fuel : ℕ) → (curId : Ulong) → (page slot : ℕ) →
    HF (Option Ulong)
  | 0, _, _, _ => abort .diverge
  | fuel + 1, curId, page, slot => do
      let numPages ← Prog.perform (.numPages ft)
      if page < numPages then
        let found ← checkRecordExists ft curId
        if found = false ∧
            slot % slotsPerPage P ≤ (slot + (numSlotsPer ft - 1)) % slotsPerPage P then
          return some curId
        else
          let (page, slot) := nextSlot P (numSlotsPer ft) page slot
          findFreeSlot P ft fuel (recordId page slot) page slot
      else return none

/-- The slot that was found, or the first one of a new page. -/
def orNewPage (ft : FileType) : Option Ulong → HF Ulong
  | some id => pure id
  | none => do
      let pageNo ← Prog.perform (.newPage ft)
      return BitVec.ofNat 64 pageNo <<< charBit

/-- `next_free_slots`. -/
def nextFreeSlots (P fuel : ℕ) (ft : FileType) : HF Unit := do
  let c ← Prog.perform .getCounters
  let prev := c.lastAlloc ft
  let found ← findFreeSlot P ft fuel prev (pageOf prev) (slotOf prev)
  let id ← orNewPage ft found
  modifyCounters (·.setLastAlloc ft id)
  Prog.perform (.setBits ft id true)

/-! ### Reading and updating records -/

/-- `read_node_internal`. -/
def readNodeInternal (id : Ulong) (checkExists : Bool) : HF Node := do
  if id = uninitializedLong then exit "heap file - read node internal: Invalid Arguments!"
  else
    let found ← checkIf checkExists .node id
    if found = false then exit "heap file - read node internal: Node does not exist!"
    else Prog.perform (.readNode id)

/-- `read_relationship_internal`. -/
def readRelationshipInternal (id : Ulong) (checkExists : Bool) : HF Relationship := do
  if id = uninitializedLong then
    exit "heap file - read relationship internal: Invalid Arguments!"
  else
    let found ← checkIf checkExists .relationship id
    if found = false then
      exit "heap file - read relationship internal: Relationship does not exist!"
    else Prog.perform (.readRelationship id)

/-- `update_node_internal`. -/
def updateNodeInternal (node : Node) (checkExists : Bool) : HF Unit := do
  if node.id = uninitializedLong then exit "heap file - update node: Invalid Arguments!"
  else
    let found ← checkIf checkExists .node node.id
    if found = false then exit "heap file - update node internal: Node does not exist!"
    else Prog.perform (.writeNode node)

/-- `update_relationship_internal`. -/
def updateRelationshipInternal (rel : Relationship) (checkExists : Bool) : HF Unit := do
  if rel.id = uninitializedLong ∨ rel.sourceNode = uninitializedLong ∨
      rel.targetNode = uninitializedLong ∨ rel.weight = uninitializedWeight then
    exit "heap file - update relationship: Invalid Arguments!"
  else
    let found ← checkIf checkExists .relationship rel.id
    if found = false then
      exit "heap file - update relationship internal: Relationship does not exist!"
    else Prog.perform (.writeRelationship rel)

/-- `read_node`. -/
def readNode (id : Ulong) : HF Node := readNodeInternal id true

/-- `read_relationship`. -/
def readRelationship (id : Ulong) : HF Relationship := readRelationshipInternal id true

/-- `update_node`. -/
def updateNode (node : Node) : HF Unit := updateNodeInternal node true

/-- `update_relationship`. -/
def updateRelationship (rel : Relationship) : HF Unit := updateRelationshipInternal rel true

/-- `create_node`. -/
def createNode (P fuel : ℕ) (label : Ulong) : HF Ulong := do
  nextFreeSlots P fuel .node
  let c ← Prog.perform .getCounters
  let nodeId := c.lastAllocNodeId
  updateNodeInternal { newNode with id := nodeId, label := label } false
  log (.createNode nodeId label)
  modifyCounters fun c => { c with nNodes := c.nNodes + 1 }
  return nodeId

end HF

/-! ### Relationship objects -/

/-- The relationship objects of a function: its own one, and those it reads. -/
inductive Obj where
  | rel
  | first
  | second
  | third
  | fourth
  deriving DecidableEq, Repr

/-- The contents of the objects. -/
abbrev Objs := Obj → Relationship

/-- An assignment through a pointer. -/
def Objs.modify (o : Objs) (p : Obj) (f : Relationship → Relationship) : Objs :=
  Function.update o p (f (o p))

namespace HF

/-! ### Creating relationships -/

/-- The object of the relationship `id`: one that is there already, where `id` is the id the code
compares with, or else read into `fresh`. -/
def loadOr (o : Objs) (id : Ulong) (fresh : Obj) : List (Ulong × Obj) → HF (Objs × Obj)
  | [] => do
      let r ← readRelationship id
      return (Function.update o fresh r, fresh)
  | (id', p) :: ps => if id = id' then pure (o, p) else loadOr o id fresh ps

/-- The first and the last relationship of the source node's chain. -/
def sourceChainEnds (fromNode : Node) (o : Objs) : HF (Objs × Obj × Obj) := do
  if fromNode.firstRelationship = uninitializedLong then return (o, .rel, .rel)
  else
    let (o, firstRel) ← loadOr o fromNode.firstRelationship .first []
    let tempId := (o firstRel).prevAt fromNode.id
    let (o, lastRel) ← loadOr o tempId .second [(fromNode.firstRelationship, firstRel)]
    return (o, firstRel, lastRel)

/-- The first and the last relationship of the target node's chain, which may be among those of the
source node. -/
def targetChainEnds (toNode : Node) (o : Objs) (firstFrom lastFrom : Obj) :
    HF (Objs × Obj × Obj) := do
  if toNode.firstRelationship = uninitializedLong then return (o, .rel, .rel)
  else
    let (o, firstRel) ← loadOr o toNode.firstRelationship .third
      [((o firstFrom).id, firstFrom), ((o lastFrom).id, lastFrom)]
    let tempId := (o firstRel).prevAt toNode.id
    let (o, lastRel) ← loadOr o tempId .fourth
      [((o firstFrom).id, firstFrom), ((o lastFrom).id, lastFrom),
        (toNode.firstRelationship, firstRel)]
    return (o, firstRel, lastRel)

/-- The pointer assignments of `create_relationship`. -/
def linkNew (fromId toId : Ulong) (firstFrom lastFrom firstTo lastTo : Obj) (o : Objs) : Objs :=
  let relId := (o .rel).id
  let o := o.modify .rel fun r => { r with
    prevRelSource := (o lastFrom).id, nextRelSource := (o firstFrom).id
    prevRelTarget := (o lastTo).id, nextRelTarget := (o firstTo).id }
  let o := o.modify lastFrom (·.setNext fromId relId)
  let o := o.modify lastTo (·.setNext toId relId)
  let o := o.modify firstFrom (·.setPrev fromId relId)
  o.modify firstTo (·.setPrev toId relId)

/-- `first_relationship` set where the chain was empty. -/
def setFirstRelationship (node : Node) (relId : Ulong) : HF Unit :=
  when (node.firstRelationship = uninitializedLong) <|
    updateNode { node with firstRelationship := relId }

/-- The objects written back, each of them once. -/
def writeBack (o : Objs) (a b c d : Obj) : HF Unit := do
  when (a ≠ .rel ∧ a ≠ b ∧ a ≠ c ∧ a ≠ d) (updateRelationshipInternal (o a) false)
  when (b ≠ .rel ∧ b ≠ c ∧ b ≠ d) (updateRelationshipInternal (o b) false)
  when (c ≠ .rel ∧ c ≠ d) (updateRelationshipInternal (o c) false)
  when (d ≠ .rel) (updateRelationshipInternal (o d) false)

/-- `create_relationship`. -/
def createRelationship (P fuel : ℕ) (fromId toId : Ulong) (weight : Double) (label : Ulong) :
    HF Ulong := do
  if fromId = uninitializedLong ∨ toId = uninitializedLong ∨ weight = uninitializedWeight then
    exit "heap file - create relationship: Invalid Arguments"
  else
    nextFreeSlots P fuel .relationship
    let c ← Prog.perform .getCounters
    let relId := c.lastAllocRelId
    let rel := { newRelationship with
      id := relId, sourceNode := fromId, targetNode := toId, weight := weight, label := label }
    let fromNode ← readNode fromId
    let toNode ← readNode toId
    let (o, firstFrom, lastFrom) ← sourceChainEnds fromNode fun _ => rel
    let (o, firstTo, lastTo) ← targetChainEnds toNode o firstFrom lastFrom
    let o := linkNew fromId toId firstFrom lastFrom firstTo lastTo o
    setFirstRelationship fromNode relId
    setFirstRelationship toNode relId
    writeBack o firstFrom lastFrom firstTo lastTo
    updateRelationshipInternal (o .rel) false
    log (.createRel relId label)
    modifyCounters fun c => { c with nRels := c.nRels + 1 }
    return relId

/-! ### Deleting relationships and nodes -/

/-- The pointer assignments of `delete_relationship`. -/
def unlink (rel : Relationship) (prevFrom nextFrom prevTo nextTo : Obj) (o : Objs) : Objs :=
  let o := o.modify prevFrom (·.setNext rel.sourceNode rel.nextRelSource)
  let o := o.modify nextFrom (·.setPrev rel.sourceNode rel.prevRelSource)
  let o := o.modify prevTo (·.setNext rel.targetNode rel.nextRelTarget)
  o.modify nextTo (·.setPrev rel.targetNode rel.prevRelTarget)

/-- The neighbours of `rel` in its two chains: before and after it at its source, before and after
it at its target. -/
def loadNeighbours (rel : Relationship) : HF (Objs × Obj × Obj × Obj × Obj) := do
  let o : Objs := fun _ => rel
  let (o, prevFrom) ← loadOr o rel.prevRelSource .first []
  let (o, nextFrom) ← loadOr o rel.nextRelSource .second [((o prevFrom).id, prevFrom)]
  let (o, prevTo) ← loadOr o rel.prevRelTarget .third
    [((o prevFrom).id, prevFrom), ((o nextFrom).id, nextFrom)]
  let (o, nextTo) ← loadOr o rel.nextRelTarget .fourth
    [((o prevFrom).id, prevFrom), ((o nextFrom).id, nextFrom), ((o prevTo).id, prevTo)]
  return (o, prevFrom, nextFrom, prevTo, nextTo)

/-- The neighbours of `rel` linked to each other. -/
def unlinkNeighbours (rel : Relationship) : HF Unit := do
  let (o, prevFrom, nextFrom, prevTo, nextTo) ← loadNeighbours rel
  let o := unlink rel prevFrom nextFrom prevTo nextTo o
  writeBack o nextFrom prevFrom nextTo prevTo

/-- The first relationship of an endpoint moved on, if it is the one that is deleted. -/
def moveFirstRelationship (nodeId relId next : Ulong) : HF Unit := do
  let node ← readNodeInternal nodeId true
  when (node.firstRelationship = relId) <|
    updateNode { node with firstRelationship := if next = relId then uninitializedLong else next }

/-- `delete_relationship`. -/
def deleteRelationship (relId : Ulong) : HF Unit := do
  if relId = uninitializedLong then exit "heap file - delete relationship: Invalid Arguments!"
  else
    let rel ← readRelationship relId
    when (relId ≠ rel.prevRelSource) (unlinkNeighbours rel)
    moveFirstRelationship rel.sourceNode rel.id rel.nextRelSource
    moveFirstRelationship rel.targetNode rel.id rel.nextRelTarget
    log (.deleteRel relId rel.label)
    Prog.perform (.setBits .relationship relId false)
    modifyCounters fun c =>
      { c with lastAllocRelId := if relId < c.lastAllocRelId then relId else c.lastAllocRelId
               nRels := c.nRels - 1 }

/-- The loop of `delete_node` backwards along the chain. -/
def deleteChain (nodeId : Ulong) : (fuel : ℕ) → (prevRelId lastId : Ulong) → HF Unit
  | 0, _, _ => abort .diverge
  | fuel + 1, prevRelId, lastId => do
      if prevRelId = lastId then pure ()
      else
        let rel ← readRelationship prevRelId
        if nodeId = rel.sourceNode then
          deleteRelationship rel.id
          deleteChain nodeId fuel rel.prevRelSource prevRelId
        else if nodeId = rel.targetNode then
          deleteRelationship rel.id
          deleteChain nodeId fuel rel.prevRelTarget prevRelId
        else exit "heap file - delete node: Invalid Reationship in chain!"

/-- The end of `delete_node`, after the relationships are gone. -/
def dropNode (nodeId label : Ulong) : HF Unit := do
  log (.deleteNode nodeId label)
  Prog.perform (.setBits .node nodeId false)
  modifyCounters fun c =>
    { c with lastAllocNodeId := if nodeId < c.lastAllocNodeId then nodeId else c.lastAllocNodeId
             nNodes := c.nNodes - 1 }

/-- `delete_node`. -/
def deleteNode (fuel : ℕ) (nodeId : Ulong) : HF Unit := do
  if nodeId = uninitializedLong then exit "heap file - delete node: Invalid Arguments!"
  else
    let node ← readNodeInternal nodeId true
    when (node.firstRelationship ≠ uninitializedLong) do
      let rel ← readRelationship node.firstRelationship
      deleteChain nodeId fuel (rel.prevAt nodeId) uninitializedLong
    dropNode nodeId node.label

/-! ### Listing records -/

/-- The record at `id`, if one is found there. -/
def readIf {α : Type} (read : Ulong → HF α) (id : Ulong) (found : Bool) : HF (List α) :=
  if found then do
    let r ← read id
    return [r]
  else pure []

/-- The loop of `get_nodes` and `get_relationships`: the records that exist, in the order of the
slots. -/
def scan {α : Type} (P : ℕ) (ft : FileType) (read : Ulong → HF α) :
    (fuel : ℕ) → (curId : Ulong) → (page slot : ℕ) → HF (List α)
  | 0, _, _, _ => abort .diverge
  | fuel + 1, curId, page, slot => do
      let found ← checkRecordExists ft curId
      let here ← readIf read curId found
      let (page, slot) := nextSlot P (numSlotsPer ft) page slot
      let numPages ← Prog.perform (.numPages ft)
      if page < numPages then
        let rest ← scan P ft read fuel (recordId page slot) page slot
        return here ++ rest
      else return here

/-- `get_nodes`. -/
def getNodes (P fuel : ℕ) : HF (List Node) :=
  scan P .node (readNodeInternal · false) fuel 0#64 0 0

/-- `get_relationships`. -/
def getRelationships (P fuel : ℕ) : HF (List Relationship) :=
  scan P .relationship (readRelationshipInternal · false) fuel 0#64 0 0

/-- The part of `heap_file_create` after the other fields are zero. -/
def countRecords (P fuel : ℕ) : HF Unit := do
  let nodes ← getNodes P fuel
  modifyCounters fun c => { c with nNodes := BitVec.ofNat 64 nodes.length }
  let rels ← getRelationships P fuel
  modifyCounters fun c => { c with nRels := BitVec.ofNat 64 rels.length }

end HF

/-- `heap_file_create`.  The log is what is appended to the log file from here on. -/
def HeapFile.create {σ : Type} (P fuel : ℕ) (h : Handler PageOp σ Fault) (cache : σ) :
    Except Fault (HeapFile σ) := do
  let counters : Counters :=
    { nNodes := 0, nRels := 0, lastAllocNodeId := 0, lastAllocRelId := 0, log := [] }
  let (_, hf) ← Prog.run (HeapFile.step P h) (HF.countRecords P fuel) ⟨cache, counters⟩
  return hf

end Goedb
