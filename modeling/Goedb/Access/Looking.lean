import Goedb.Access.HeapFile

/-!
# Access — looking at records

The existence check and the readers of records change no page, whatever the size of a page.
-/

namespace Goedb

open Lib

open Prog (Keeps)

namespace PhyDatabase

variable {P : ℕ} {α : Type}

theorem same_pinPage (k : PageKey) : Keeps (flat P) (· = ·) (.perform (.pinPage k)) := by
  refine .perform fun db a db' hr => ?_
  rw [flat] at hr
  split at hr
  · cases hr
  · obtain ⟨u, -, hr⟩ := bind_inv hr
    cases hr
    rfl

theorem same_unpinPage (k : PageKey) : Keeps (flat P) (· = ·) (.perform (.unpinPage k)) := by
  refine .perform fun db a db' hr => ?_
  rw [flat] at hr
  obtain ⟨u, -, hr⟩ := bind_inv hr
  cases hr
  rfl

theorem same_requirePinned (k : PageKey) (msg : String) :
    Keeps (flat P) (· = ·) (.perform (.requirePinned k msg)) :=
  .perform fun db a db' hr => by
    cases hr
    rfl

theorem same_getData (k : PageKey) : Keeps (flat P) (· = ·) (.perform (.getData k)) :=
  .perform fun db a db' hr => by
    cases hr
    rfl

theorem same_abort (f : Fault) : Keeps (flat P) (· = ·) (PageOp.abort f : Prog PageOp α) :=
  fun _ _ _ hr => by cases hr

theorem same_lift (x : Except Fault α) : Keeps (flat P) (· = ·) (PageOp.lift x) := by
  cases x with
  | error f => exact same_abort f
  | ok a => exact .pure a

theorem same_readUlong (msg : String) (k : PageKey) (off : ℕ) :
    Keeps (flat P) (· = ·) (readUlong P msg k off) :=
  .ite (same_abort _) <| .bind (same_requirePinned k msg) fun _ =>
    .bind (same_getData k) fun _ => .pure _

/-- `check_record_exists`. -/
theorem same_checkRecordExists (ft : FileType) (id : Ulong) :
    Keeps (flat P) (· = ·) (OnPages.checkRecordExists P ft id) :=
  .ite (.pure _) <| .ite (.pure _) <| .bind (same_pinPage _) fun _ =>
    .bind (same_getData _) fun _ => .bind (same_lift _) fun _ => .bind (same_unpinPage _) fun _ =>
      .pure _

/-- `read_node`. -/
theorem same_readNode (id : Ulong) : Keeps (flat P) (· = ·) (OnPages.readNode P id) :=
  .bind (same_pinPage _) fun _ => .bind (.bind (same_requirePinned _ _) fun _ =>
    .bind (same_readUlong _ _ _) fun _ => .bind (same_readUlong _ _ _) fun _ => .pure _) fun _ =>
      .bind (same_unpinPage _) fun _ => .pure _

/-- `read_relationship`. -/
theorem same_readRelationship (id : Ulong) :
    Keeps (flat P) (· = ·) (OnPages.readRelationship P id) :=
  .bind (same_pinPage _) fun _ => .bind (.bind (same_readUlong _ _ _) fun _ =>
    .bind (same_readUlong _ _ _) fun _ => .bind (same_readUlong _ _ _) fun _ =>
    .bind (same_readUlong _ _ _) fun _ => .bind (same_readUlong _ _ _) fun _ =>
    .bind (same_readUlong _ _ _) fun _ => .bind (same_readUlong _ _ _) fun _ =>
    .bind (same_readUlong _ _ _) fun _ => .pure _) fun _ =>
      .bind (same_unpinPage _) fun _ => .pure _

end PhyDatabase

namespace HeapFile

open PhyDatabase

variable {P : ℕ} {α β : Type}

/-- A call on pages that changes no page. -/
theorem same_perform {op : RecordOp β} {x : Prog PageOp β} (hx : Keeps (flat P) (· = ·) x)
    (hop : ∀ hf, step P (flat P) β op hf = onPages (flat P) hf x) :
    Keeps (step P (flat P)) (· = ·) (.perform op) := by
  refine .perform fun hf a hf' hr => ?_
  rw [hop, onPages] at hr
  cases hd : x.run (flat P) hf.cache with
  | error e =>
      rw [hd] at hr
      cases hr
  | ok p =>
      rw [hd] at hr
      cases hr
      rw [← hx _ _ _ hd]

theorem same_exit (msg : String) : Keeps (step P (flat P)) (· = ·) (HF.exit msg : HF α) :=
  fun _ _ _ hr => by cases hr

theorem same_check (ft : FileType) (id : Ulong) :
    Keeps (step P (flat P)) (· = ·) (HF.checkRecordExists ft id) :=
  same_perform (same_checkRecordExists ft id) fun _ => rfl

/-- `read_node_internal` without the existence check. -/
theorem same_readNodeInternal (id : Ulong) :
    Keeps (step P (flat P)) (· = ·) (HF.readNodeInternal id false) :=
  .ite (same_exit _) <| .bind (.pure _) fun _ => .ite (same_exit _) <|
    same_perform (same_readNode id) fun _ => rfl

/-- `read_relationship_internal` without the existence check. -/
theorem same_readRelationshipInternal (id : Ulong) :
    Keeps (step P (flat P)) (· = ·) (HF.readRelationshipInternal id false) :=
  .ite (same_exit _) <| .bind (.pure _) fun _ => .ite (same_exit _) <|
    same_perform (same_readRelationship id) fun _ => rfl

end HeapFile

end Goedb
