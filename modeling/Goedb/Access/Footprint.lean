import Goedb.Access.Expand
import Goedb.Lib.Follows

/-!
# Access — which calls the functions make

A function of the heap file that only reads records makes only the calls of `RecordOp.Reads`; one
that also writes records, but leaves the slots and the counters alone, makes those of
`RecordOp.OnWords`.
-/

namespace Goedb

open Lib

open Prog (Always)

namespace RecordOp

/-- The calls that read. -/
def Reads : ∀ β, RecordOp β → Prop
  | _, .numPages _ => True
  | _, .checkRecordExists _ _ => True
  | _, .readNode _ => True
  | _, .readRelationship _ => True
  | _, .stop _ => True
  | _, .writeNode _ => False
  | _, .writeRelationship _ => False
  | _, .setBits _ _ _ => False
  | _, .newPage _ => False
  | _, .getCounters => False
  | _, .setCounters _ => False

/-- The calls that read, and those that write the words of records. -/
def OnWords : ∀ β, RecordOp β → Prop
  | _, .writeNode _ => True
  | _, .writeRelationship _ => True
  | β, op => Reads β op

theorem Reads.onWords {β : Type} {op : RecordOp β} (h : Reads β op) : OnWords β op := by
  cases op <;> trivial

/-! ### Functions that read -/

namespace Reads

variable {α : Type}

theorem abort (f : Fault) : Always Reads (HF.abort f : HF α) := ⟨trivial, fun b => b.elim⟩

theorem checkIf (b : Bool) (ft : FileType) (id : Ulong) : Always Reads (HF.checkIf b ft id) :=
  .ite (Always.perform.mpr trivial) (.pure true)

theorem readNodeInternal (id : Ulong) (b : Bool) : Always Reads (HF.readNodeInternal id b) :=
  .ite (abort _) (.bind (checkIf b .node id) fun _ => .ite (abort _) (Always.perform.mpr trivial))

theorem readRelationshipInternal (id : Ulong) (b : Bool) :
    Always Reads (HF.readRelationshipInternal id b) :=
  .ite (abort _) (.bind (checkIf b .relationship id) fun _ =>
    .ite (abort _) (Always.perform.mpr trivial))

theorem loadOr (o : Objs) (id : Ulong) (fresh : Obj) (known : List (Ulong × Obj)) :
    Always Reads (HF.loadOr o id fresh known) := by
  induction known with
  | nil => exact .bind (readRelationshipInternal id true) fun r => .pure _
  | cons p known ih => exact .ite (.pure _) ih

theorem sourceChainEnds (nd : Node) (o : Objs) : Always Reads (HF.sourceChainEnds nd o) :=
  .ite (.pure _) (.bind (loadOr _ _ _ _) fun _ => .bind (loadOr _ _ _ _) fun _ => .pure _)

theorem targetChainEnds (nd : Node) (o : Objs) (p q : Obj) :
    Always Reads (HF.targetChainEnds nd o p q) :=
  .ite (.pure _) (.bind (loadOr _ _ _ _) fun _ => .bind (loadOr _ _ _ _) fun _ => .pure _)

theorem scan {read : Ulong → HF α} (hr : ∀ id, Always Reads (read id)) (P : ℕ) (ft : FileType)
    (fuel : ℕ) : ∀ curId page slot, Always Reads (HF.scan P ft read fuel curId page slot) := by
  induction fuel with
  | zero =>
      intro curId page slot
      exact abort _
  | succ fuel ih =>
      intro curId page slot
      exact .bind (Always.perform.mpr trivial) fun _ =>
        .bind (.ite (.bind (hr curId) fun _ => .pure _) (.pure _)) fun _ =>
        .bind (Always.perform.mpr trivial) fun _ =>
        .ite (.bind (ih _ _ _) fun _ => .pure _) (.pure _)

theorem getNodes (P fuel : ℕ) : Always Reads (HF.getNodes P fuel) :=
  scan (fun id => readNodeInternal id false) P .node fuel _ _ _

theorem getRelationships (P fuel : ℕ) : Always Reads (HF.getRelationships P fuel) :=
  scan (fun id => readRelationshipInternal id false) P .relationship fuel _ _ _

theorem nextLoop {read : Ulong → HF Relationship} {follow : Relationship → HF Ulong}
    (hr : ∀ x, Always Reads (read x)) (hf : ∀ r, Always Reads (follow r)) (n : Ulong)
    (direction : Direction) (start : Ulong) (fuel : ℕ) :
    ∀ x, Always Reads (Goedb.nextLoop .stop n direction read follow start fuel x) := by
  induction fuel with
  | zero =>
      intro x
      exact abort _
  | succ fuel ih =>
      intro x
      exact .bind (hr x) fun r => .ite (.pure _) (.bind (hf r) fun y => .ite (.pure _) (ih y))

theorem collect {read : Ulong → HF Relationship} {nextId : Relationship → HF Ulong}
    (hr : ∀ x, Always Reads (read x)) (hn : ∀ r, Always Reads (nextId r)) (start : Ulong)
    (fuel : ℕ) : ∀ x, Always Reads (Goedb.collect .stop read nextId start fuel x) := by
  induction fuel with
  | zero =>
      intro x
      exact abort _
  | succ fuel ih =>
      intro x
      exact .ite (.pure _) (.bind (hr x) fun r => .bind (hn r) fun y =>
        .ite (.pure _) (.bind (ih y) fun _ => .pure _))

theorem expand (fuel : ℕ) (n : Ulong) (direction : Direction) :
    Always Reads (HF.expand fuel n direction) := by
  have hread : ∀ x, Always Reads (HF.readRelationship x) := fun x => readRelationshipInternal x true
  have hfollow : ∀ r, Always Reads (HF.follow n r) := fun r =>
    .ite (.pure _) (.ite (.pure _) (abort _))
  have hnext : ∀ r, Always Reads (HF.nextRelationshipId fuel n r direction) := fun r =>
    .ite (abort _) (.bind (hfollow r) fun _ => nextLoop hread hfollow n direction r.id fuel _)
  exact .bind (readNodeInternal n true) fun nd => .ite (.pure _) (.bind (hread _) fun r =>
    .ite (collect hread hnext _ fuel _) (.bind (hnext r) fun _ => collect hread hnext _ fuel _))

end Reads

/-! ### Functions that write records -/

namespace OnWords

variable {α : Type}

theorem of_reads {x : HF α} (h : Always Reads x) : Always OnWords x := h.mono fun _ _ => Reads.onWords

theorem when {c : Prop} [Decidable c] {x : HF Unit} (hx : Always OnWords x) :
    Always OnWords (HF.when c x) := .ite hx (.pure ())

theorem updateNodeInternal (nd : Node) (b : Bool) :
    Always OnWords (HF.updateNodeInternal nd b) :=
  .ite (of_reads (Reads.abort _)) (.bind (of_reads (Reads.checkIf b .node nd.id)) fun _ =>
    .ite (of_reads (Reads.abort _)) (Always.perform.mpr trivial))

theorem updateRelationshipInternal (r : Relationship) (b : Bool) :
    Always OnWords (HF.updateRelationshipInternal r b) :=
  .ite (of_reads (Reads.abort _)) (.bind (of_reads (Reads.checkIf b .relationship r.id)) fun _ =>
    .ite (of_reads (Reads.abort _)) (Always.perform.mpr trivial))

theorem writeBack (o : Objs) (a b c d : Obj) : Always OnWords (HF.writeBack o a b c d) :=
  .bind (when (updateRelationshipInternal _ _)) fun _ =>
    .bind (when (updateRelationshipInternal _ _)) fun _ =>
      .bind (when (updateRelationshipInternal _ _)) fun _ => when (updateRelationshipInternal _ _)

theorem unlinkNeighbours (rel : Relationship) : Always OnWords (HF.unlinkNeighbours rel) :=
  .bind (of_reads (.bind (Reads.loadOr _ _ _ _) fun _ => .bind (Reads.loadOr _ _ _ _) fun _ =>
    .bind (Reads.loadOr _ _ _ _) fun _ => .bind (Reads.loadOr _ _ _ _) fun _ => .pure _)) fun _ =>
      writeBack _ _ _ _ _

theorem moveFirstRelationship (nodeId relId next : Ulong) :
    Always OnWords (HF.moveFirstRelationship nodeId relId next) :=
  .bind (of_reads (Reads.readNodeInternal nodeId true)) fun _ => when (updateNodeInternal _ _)

theorem setFirstRelationship (nd : Node) (relId : Ulong) :
    Always OnWords (HF.setFirstRelationship nd relId) := when (updateNodeInternal _ _)

end OnWords

end RecordOp

end Goedb
