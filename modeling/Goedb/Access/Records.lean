import Goedb.Access.HeaderPage

/-!
# Access — records in slots

`node.c`, `relationship.c` and the accessors of `page.c` they use: a record of id `id` lies in the
slots of page `id >> CHAR_BIT` from slot `id & UCHAR_MAX` on, one word after the other.  A node
takes one slot, a relationship four.
-/

namespace Goedb

open Lib

/-- `node_t`. -/
structure Node where
  id : Ulong
  firstRelationship : Ulong
  label : Ulong
  deriving DecidableEq, Repr

/-- `relationship_t`. -/
structure Relationship where
  id : Ulong
  sourceNode : Ulong
  targetNode : Ulong
  prevRelSource : Ulong
  nextRelSource : Ulong
  prevRelTarget : Ulong
  nextRelTarget : Ulong
  weight : Double
  label : Ulong
  deriving DecidableEq, Repr

/-- The previous pointer at `node`, as the code picks the side. -/
def Relationship.prevAt (node : Ulong) (r : Relationship) : Ulong :=
  if node = r.sourceNode then r.prevRelSource else r.prevRelTarget

/-- The next pointer set on every side of the relationship that is at `node`. -/
def Relationship.setNext (node id : Ulong) (r : Relationship) : Relationship :=
  { r with
    nextRelSource := if r.sourceNode = node then id else r.nextRelSource
    nextRelTarget := if r.targetNode = node then id else r.nextRelTarget }

/-- The previous pointer set on every side of the relationship that is at `node`. -/
def Relationship.setPrev (node id : Ulong) (r : Relationship) : Relationship :=
  { r with
    prevRelSource := if r.sourceNode = node then id else r.prevRelSource
    prevRelTarget := if r.targetNode = node then id else r.prevRelTarget }

/-- `node_clear`, as `new_node` calls it. -/
def newNode : Node :=
  { id := uninitializedLong, firstRelationship := uninitializedLong, label := uninitializedLong }

/-- `relationship_clear`, as `new_relationship` calls it. -/
def newRelationship : Relationship :=
  { id := uninitializedLong
    sourceNode := uninitializedLong
    targetNode := uninitializedLong
    prevRelSource := uninitializedLong
    nextRelSource := uninitializedLong
    prevRelTarget := uninitializedLong
    nextRelTarget := uninitializedLong
    weight := uninitializedWeight
    label := uninitializedLong }

/-- `NUM_SLOTS_PER_NODE` and `NUM_SLOTS_PER_REL`. -/
def numSlotsPer : FileType → ℕ
  | .node => 1
  | .relationship => 4

/-- `id >> CHAR_BIT`, the page of a record. -/
def pageOf (id : Ulong) : ℕ := (id >>> charBit).toNat

/-- `id & UCHAR_MAX`, its first slot in the page. -/
def slotOf (id : Ulong) : ℕ := (id &&& 0xFF#64).toNat

/-- `record_page_id * SLOTS_PER_PAGE + slot_in_page`. -/
def absoluteSlot (P : ℕ) (id : Ulong) : ℕ :=
  (pageOf id * slotsPerPage P + slotOf id) % 2 ^ 64

theorem pageOf_eq (id : Ulong) : pageOf id = id.toNat / 256 := by
  simp [pageOf, charBit, BitVec.toNat_ushiftRight, Nat.shiftRight_eq_div_pow]

theorem slotOf_eq (id : Ulong) : slotOf id = id.toNat % 256 := by
  rw [slotOf, BitVec.toNat_and]
  exact Nat.and_two_pow_sub_one_eq_mod id.toNat 8

theorem absoluteSlot_eq (id : Ulong) : absoluteSlot 4096 id = id.toNat := by
  have h := id.isLt
  rw [absoluteSlot, pageOf_eq, slotOf_eq, show slotsPerPage 4096 = 256 from rfl]
  omega

/-! ### Accessors of a pinned page -/

/-- `read_ulong`; `read_double` differs by its message. -/
def readUlong (P : ℕ) (msg : String) (k : PageKey) (offset : ℕ) : Prog PageOp Ulong := do
  if P - 8 < offset then PageOp.abort (.exit msg)
  else
    Prog.perform (.requirePinned k msg)
    let data ← Prog.perform (.getData k)
    return loadWord data offset

/-- `write_ulong`; `write_double` differs by its message. -/
def writeUlong (P : ℕ) (msg : String) (k : PageKey) (offset : ℕ) (value : Ulong) :
    Prog PageOp Unit := do
  if P - 8 < offset then PageOp.abort (.exit msg)
  else
    Prog.perform (.requirePinned k msg)
    let data ← Prog.perform (.getData k)
    Prog.perform (.putData k (storeWord data offset value))

/-- The words of a record written one after the other, each with the message of its accessor. -/
def writeWords (P : ℕ) (k : PageKey) (offset : ℕ) : List (String × Ulong) → Prog PageOp Unit
  | [] => pure ()
  | (msg, w) :: ws => do
      writeUlong P msg k offset w
      writeWords P k (offset + 8) ws

/-! ### Nodes -/

/-- `node_read`. -/
def nodeRead (P : ℕ) (record : Node) (k : PageKey) : Prog PageOp Node := do
  Prog.perform (.requirePinned k "node - node read: Invalid Arguments!")
  let firstSlot := slotOf record.id * slotSize
  let first ← readUlong P "page - read ulong: Invalid arguments!" k firstSlot
  let label ← readUlong P "page - read ulong: Invalid arguments!" k (firstSlot + 8)
  return { record with firstRelationship := first, label := label }

/-- `node_write`. -/
def nodeWrite (P : ℕ) (record : Node) (k : PageKey) : Prog PageOp Unit := do
  Prog.perform (.requirePinned k "node - node write: Invalid Arguments!")
  let firstSlot := slotOf record.id * slotSize
  writeWords P k firstSlot
    [("page - write ulong: Invalid arguments!", record.firstRelationship),
      ("page - write ulong: Invalid arguments!", record.label)]

/-! ### Relationships -/

/-- `relationship_read`. -/
def relationshipRead (P : ℕ) (record : Relationship) (k : PageKey) :
    Prog PageOp Relationship := do
  let firstSlot := slotOf record.id * slotSize
  let ulong := readUlong P "page - read ulong: Invalid arguments!" k
  let double := readUlong P "page - read double: Invalid arguments!" k
  let sourceNode ← ulong firstSlot
  let targetNode ← ulong (firstSlot + 8)
  let prevRelSource ← ulong (firstSlot + 8 + 8)
  let nextRelSource ← ulong (firstSlot + 8 + 8 + 8)
  let prevRelTarget ← ulong (firstSlot + 8 + 8 + 8 + 8)
  let nextRelTarget ← ulong (firstSlot + 8 + 8 + 8 + 8 + 8)
  let weight ← double (firstSlot + 8 + 8 + 8 + 8 + 8 + 8)
  let label ← ulong (firstSlot + 8 + 8 + 8 + 8 + 8 + 8 + 8)
  return { id := record.id, sourceNode, targetNode, prevRelSource, nextRelSource, prevRelTarget
           nextRelTarget, weight, label }

/-- `relationship_write`. -/
def relationshipWrite (P : ℕ) (record : Relationship) (k : PageKey) : Prog PageOp Unit :=
  writeWords P k (slotOf record.id * slotSize)
    [("page - write ulong: Invalid arguments!", record.sourceNode),
      ("page - write ulong: Invalid arguments!", record.targetNode),
      ("page - write ulong: Invalid arguments!", record.prevRelSource),
      ("page - write ulong: Invalid arguments!", record.nextRelSource),
      ("page - write ulong: Invalid arguments!", record.prevRelTarget),
      ("page - write ulong: Invalid arguments!", record.nextRelTarget),
      ("page - write double: Invalid arguments!", record.weight),
      ("page - write ulong: Invalid arguments!", record.label)]

end Goedb
