import Goedb.Cache.PageCache
import Goedb.Order.Reorder

/-!
# Order — layouts by sequence

The functions of `reorder_records.c` that work out the new places of the records themselves.  The
`*_by_sequence` functions are given the records in their new order, and take the ids from a temporary
database: the ids that `next_free_slots` hands out there, one for each record, with a page cache of as
many frames as there are header pages to fill.  `reorder_relationships_by_nodes` orders the
relationships by their source nodes.  `sort_incidence_list` moves no record, and links the
relationships of each node in the order of their ids.
-/

namespace Goedb

open Lib

namespace HF

/-- The ids that `n` calls of `next_free_slots` hand out. -/
def takeSlots (P fuel : ℕ) (ft : FileType) : (n : ℕ) → HF (List Ulong)
  | 0 => pure []
  | n + 1 => do
      nextFreeSlots P fuel ft
      let c ← Prog.perform .getCounters
      let ids ← takeSlots P fuel ft n
      return c.lastAlloc ft :: ids

end HF

/-- The ids of `n` records in a temporary database with a page cache of `nPages` frames.  What is done
to its files before is `prepare`. -/
def tempIds (P fuel : ℕ) (ft : FileType) (prepare : PhyDatabase → Except Fault PhyDatabase)
    (nPages n : ℕ) : Except Fault (List Ulong) := do
  let tempPdb ← PhyDatabase.create P
  let tempPdb ← prepare tempPdb
  let tempPc ← PageCache.create tempPdb nPages
  let tempHf ← HeapFile.create P fuel (PageCache.handler P) tempPc
  let (ids, tempHf) ← Prog.run (HeapFile.step P (PageCache.handler P)) (HF.takeSlots P fuel ft n) tempHf
  let _ ← tempHf.cache.destroy P
  return ids

/-- `disk_file_grow` on the header of the relationships. -/
def growRelationshipHeader (P n : ℕ) (db : PhyDatabase) : Except Fault PhyDatabase := do
  let header ← (db.header .relationship).grow P n
  return { db with header := Function.update db.header .relationship header }

/-- The records of a sequence with their new ids inserted into a dictionary.  The sequence is an array
that is read up to the number of ids. -/
def insertAll (newIds : Dict) : (sequence ids : List Ulong) → Except Fault Dict
  | _, [] => .ok newIds
  | [], _ :: _ => .error .undefined
  | x :: sequence, id :: ids => insertAll (newIds.insert x id) sequence ids

/-- The number of frames of `reorder_nodes_by_sequence`: whether a page is begun is seen from the
number of relationships. -/
def nPagesOfNodes (P : ℕ) (c : Counters) : ℕ :=
  c.nNodes.toNat * numSlotsPer .node / (P * charBit) +
    if c.nRels.toNat * numSlotsPer .node % (P * charBit) ≠ 0 then 1 else 0

/-- The number of frames of `reorder_relationships_by_sequence`. -/
def nPagesOfRels (P : ℕ) (c : Counters) : ℕ :=
  c.nRels.toNat * numSlotsPer .relationship % 2 ^ 64 / (P * charBit) +
    if c.nRels.toNat * numSlotsPer .relationship % 2 ^ 64 % (P * charBit) ≠ 0 then 1 else 0

namespace HF

/-- `reorder_nodes_by_sequence`. -/
def reorderNodesBySequence (P fuel : ℕ) (sequence : List Ulong) : HF Unit := do
  let c ← Prog.perform .getCounters
  let ids ← lift (tempIds P fuel .node .ok (nPagesOfNodes P c) c.nNodes.toNat)
  let newIds ← lift (insertAll ∅ sequence ids)
  reorderNodes P fuel newIds

/-- `reorder_relationships_by_sequence`. -/
def reorderRelationshipsBySequence (P fuel : ℕ) (sequence : List Ulong) : HF Unit := do
  let c ← Prog.perform .getCounters
  let nPages := nPagesOfRels P c
  let ids ← lift (tempIds P fuel .relationship (growRelationshipHeader P nPages) nPages
    c.nRels.toNat)
  let newIds ← lift (insertAll ∅ sequence ids)
  reorderRelationships P fuel newIds

/-- Relationships written to `new_order`, of which `free` places are left. -/
def fillOrder (free : ℕ) (rels : List Relationship) : Except Fault (List Ulong × ℕ) :=
  if rels.length ≤ free then .ok (rels.map Relationship.id, free - rels.length)
  else .error .undefined

/-- The loop of `reorder_relationships_by_nodes`, with `n` nodes to go. -/
def collectOrder (fuel : ℕ) : (n : ℕ) → (nodes : List Node) → (free : ℕ) → HF (List Ulong × ℕ)
  | 0, _, free => pure ([], free)
  | _ + 1, [], _ => exit "List - get: Buffer overflow!"
  | n + 1, node :: nodes, free => do
      let rels ← expand fuel node.id .outgoing
      let (ids, free) ← lift (fillOrder free rels)
      let (rest, free) ← collectOrder fuel n nodes free
      return (ids ++ rest, free)

/-- `reorder_relationships_by_nodes`.  The places of `new_order` that are not written hold zeros. -/
def reorderRelationshipsByNodes (P fuel : ℕ) : HF Unit := do
  let c ← Prog.perform .getCounters
  let nodes ← getNodes P fuel
  let (ids, free) ← collectOrder fuel c.nNodes.toNat nodes c.nRels.toNat
  reorderRelationshipsBySequence P fuel (ids ++ List.replicate free 0#64)

/-! ### `sort_incidence_list` -/

/-- The pointers of a relationship at a node set. -/
def setPointers (nodeId prev next : Ulong) (rel : Relationship) : Relationship :=
  if rel.sourceNode = nodeId then { rel with prevRelSource := prev, nextRelSource := next }
  else { rel with prevRelTarget := prev, nextRelTarget := next }

/-- A relationship linked between two others. -/
def relink (nodeId prev id next : Ulong) : HF Unit := do
  let rel ← readRelationship id
  updateRelationship (setPointers nodeId prev next rel)

/-- The loop over the relationships that are neither the first nor the last one. -/
def relinkInner (nodeId : Ulong) : List Ulong → HF Unit
  | prev :: id :: next :: ids => do
      relink nodeId prev id next
      relinkInner nodeId (id :: next :: ids)
  | _ => pure ()

/-- The relationships of a node linked in the order of the list. -/
def relinkAll (nodeId : Ulong) (ids : List Ulong) : HF Unit :=
  match ids with
  | first :: second :: _ => do
      let last := ids.getLastD first
      relink nodeId last first second
      relinkInner nodeId ids
      relink nodeId (ids.dropLast.getLastD first) last first
  | _ => abort .undefined

/-- The ids of relationships as `qsort` leaves the elements of the set. -/
def sortedIds (rels : List Relationship) : List Ulong :=
  (rels.map Relationship.id).dedup.mergeSort fun x y => x.toNat ≤ y.toNat

/-- What the loop does at one node. -/
def sortNode (fuel : ℕ) (nodeId : Ulong) : HF Unit := do
  let rels ← expand fuel nodeId .both
  if rels.length < 3 then pure ()
  else if (sortedIds rels).length < rels.length then abort .undefined
  else relinkAll nodeId (sortedIds rels)

/-- The loop over the nodes, with `n` to go. -/
def sortNodes (fuel : ℕ) : (n : ℕ) → (nodes : List Node) → HF Unit
  | 0, _ => pure ()
  | _ + 1, [] => exit "List - get: Buffer overflow!"
  | n + 1, node :: nodes => do
      sortNode fuel node.id
      sortNodes fuel n nodes

/-- `sort_incidence_list`. -/
def sortIncidenceList (P fuel : ℕ) : HF Unit := do
  let nodes ← getNodes P fuel
  let c ← Prog.perform .getCounters
  sortNodes fuel c.nNodes.toNat nodes

end HF

end Goedb
