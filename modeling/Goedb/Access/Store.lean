import Goedb.Access.HeapFile

/-!
# Access — the record store

The heap file of 4 KiB pages without its bytes: the number of pages of each record file, one bit
for each slot, and the record files as arrays of words, two for a slot.  `Store.step` says what
each call of `RecordOp` does to it.  That these are the calls of the heap file over flat pages is
`HeapFile.step_agrees`; everything about whole functions of the heap file is proved on this
machine and carried over by `HeapFile.run_agrees`.
-/

namespace Goedb

open Lib

/-- The slots and the words of a heap file. -/
structure Store where
  pages : FileType → ℕ
  bit : FileType → ℕ → Bool
  word : FileType → ℕ → Ulong
  counters : Counters

namespace Store

theorem eq_of {s t : Store} (hp : s.pages = t.pages) (hb : ∀ ft n, s.bit ft n = t.bit ft n)
    (hw : ∀ ft n, s.word ft n = t.word ft n) (hc : s.counters = t.counters) : s = t := by
  obtain ⟨p, b, w, c⟩ := s
  obtain ⟨p', b', w', c'⟩ := t
  have hb' : b = b' := funext fun ft => funext (hb ft)
  have hw' : w = w' := funext fun ft => funext (hw ft)
  simp only at hp hc
  subst hp hb' hw' hc
  rfl

/-- The number of header pages beside `n` record pages. -/
def headerPages (n : ℕ) : ℕ := max 1 ((n + 127) / 128)

/-- The header file has the bit of a slot. -/
def HasBit (s : Store) (ft : FileType) (slot : ℕ) : Prop := slot / 32768 < headerPages (s.pages ft)

instance (s : Store) (ft : FileType) (slot : ℕ) : Decidable (s.HasBit ft slot) :=
  inferInstanceAs (Decidable (_ < _))

/-- The bits of the record at `id` are set. -/
def isUsed (s : Store) (ft : FileType) (id : Ulong) : Bool :=
  (List.range (numSlotsPer ft)).all fun i => s.bit ft (id.toNat + i)

/-- The node in the slot of `id`. -/
def nodeAt (s : Store) (id : Ulong) : Node :=
  { id := id
    firstRelationship := s.word .node (2 * id.toNat)
    label := s.word .node (2 * id.toNat + 1) }

/-- The relationship in the slots from `id` on. -/
def relAt (s : Store) (id : Ulong) : Relationship :=
  { id := id
    sourceNode := s.word .relationship (2 * id.toNat)
    targetNode := s.word .relationship (2 * id.toNat + 1)
    prevRelSource := s.word .relationship (2 * id.toNat + 2)
    nextRelSource := s.word .relationship (2 * id.toNat + 3)
    prevRelTarget := s.word .relationship (2 * id.toNat + 4)
    nextRelTarget := s.word .relationship (2 * id.toNat + 5)
    weight := s.word .relationship (2 * id.toNat + 6)
    label := s.word .relationship (2 * id.toNat + 7) }

/-- Words written from `n` on. -/
def setWords (s : Store) (ft : FileType) (n : ℕ) (ws : List Ulong) : Store :=
  { s with word := fun gt m =>
      if gt = ft ∧ n ≤ m ∧ m < n + ws.length then ws.getD (m - n) 0#64 else s.word gt m }

/-- A node written to its slot. -/
def setNode (s : Store) (node : Node) : Store :=
  s.setWords .node (2 * node.id.toNat) [node.firstRelationship, node.label]

/-- A relationship written to its slots. -/
def setRel (s : Store) (rel : Relationship) : Store :=
  s.setWords .relationship (2 * rel.id.toNat)
    [rel.sourceNode, rel.targetNode, rel.prevRelSource, rel.nextRelSource, rel.prevRelTarget,
      rel.nextRelTarget, rel.weight, rel.label]

/-- The slot lies behind a range of `n` bits that starts in the last bits of a byte, in the byte in
which the range ends.  `write_bits` computes the mask for that byte from `n % CHAR_BIT` plus the
bit offset and clears it; at the end of a header page the range is split and the byte is kept. -/
def Clobbered (n start slot : ℕ) : Prop :=
  8 < n % 8 + start % 8 ∧ start % 32768 + n ≤ 32768 ∧ start + n ≤ slot ∧
    slot / 8 = (start + n - 1) / 8

instance (n start slot : ℕ) : Decidable (Clobbered n start slot) :=
  inferInstanceAs (Decidable (_ ∧ _))

/-- The bits of the record at `id` set or cleared. -/
def setBits (s : Store) (ft : FileType) (id : Ulong) (used : Bool) : Store :=
  { s with bit := fun gt m =>
      if gt = ft ∧ id.toNat ≤ m ∧ m < id.toNat + numSlotsPer ft then used
      else if gt = ft ∧ Clobbered (numSlotsPer ft) id.toNat m then false
      else s.bit gt m }

/-- One more page of records. -/
def addPage (s : Store) (ft : FileType) : Store :=
  { s with pages := Function.update s.pages ft (s.pages ft + 1) }

/-- The heap file's own fields replaced. -/
def setCounters (s : Store) (c : Counters) : Store := { s with counters := c }

/-- A call that stops the run; the fault is that of the page that is out of bounds. -/
def outOfBounds {α : Type} : Except Fault α :=
  .error (.exit "page cache - pin page: Page Number out of bounds!")

/-- What each call does to the store. -/
def step : Handler RecordOp Store Fault
  | _, .numPages ft, s => .ok (s.pages ft, s)
  | _, .checkRecordExists ft id, s =>
      if id.toNat % numSlotsPer ft ≠ 0 then .ok (false, s)
      else if s.HasBit ft id.toNat then .ok (s.isUsed ft id, s)
      else outOfBounds
  | _, .readNode id, s =>
      if id.toNat / 256 < s.pages .node then .ok (s.nodeAt id, s) else outOfBounds
  | _, .readRelationship id, s =>
      if id.toNat / 256 < s.pages .relationship ∧ id.toNat % 256 ≤ 252 then .ok (s.relAt id, s)
      else outOfBounds
  | _, .writeNode node, s =>
      if node.id.toNat / 256 < s.pages .node then .ok ((), s.setNode node) else outOfBounds
  | _, .writeRelationship rel, s =>
      if rel.id.toNat / 256 < s.pages .relationship ∧ rel.id.toNat % 256 ≤ 252 then
        .ok ((), s.setRel rel)
      else outOfBounds
  | _, .setBits ft id used, s =>
      if s.HasBit ft id.toNat ∧ s.HasBit ft (id.toNat + numSlotsPer ft - 1) then
        .ok ((), s.setBits ft id used)
      else outOfBounds
  | _, .newPage ft, s =>
      if s.pages ft + 1 < maxPageNo 4096 then .ok (s.pages ft, s.addPage ft) else outOfBounds
  | _, .getCounters, s => .ok (s.counters, s)
  | _, .setCounters c, s => .ok ((), s.setCounters c)
  | _, .stop f, _ => .error f

end Store

end Goedb
