import Goedb.Access.Creation
import Goedb.Access.Looking
import Mathlib.Order.CompletePartialOrder

/-!
# Access — the law of the record store

A record that is written is read back, and no other record changes.  In the bytes: the records lie in
ranges of their pages that do not overlap (`recordBytes_disjoint`), and a record is written inside of
its range (`keeps_updateNode`, `keeps_updateRelationship`).

* `HeapFile.updates_read`: reading after `update_node` and after `update_relationship`.
-/

namespace Goedb

open Lib

open Prog (Keeps)

/-! ### The bytes of a record -/

/-- The bytes of the record at `id`. -/
def recordBytes (ft : FileType) (id : Ulong) : Set (PageKey × ℕ) :=
  {b | b.1 = OnPages.recordKey ft id ∧ slotOf id * slotSize ≤ b.2 ∧
    b.2 < (slotOf id + numSlotsPer ft) * slotSize}

section Bytes

variable {ft : FileType} {x y : Ulong} {b : PageKey × ℕ}

/-- An aligned record lies in its page. -/
theorem lt_of_mem_recordBytes (hx : x.toNat % numSlotsPer ft = 0) (hb : b ∈ recordBytes ft x) :
    b.2 < 4096 := by
  have h := hb.2.2
  rw [slotOf_eq, slotSize] at h
  cases ft
  · simp only [numSlotsPer] at h
    omega
  · simp only [numSlotsPer] at h hx
    omega

/-- **Two records** have no byte in common. -/
theorem recordBytes_disjoint (hx : x.toNat % numSlotsPer ft = 0)
    (hy : y.toNat % numSlotsPer ft = 0) (hne : x ≠ y) :
    Disjoint (recordBytes ft x) (recordBytes ft y) := by
  rw [Set.disjoint_left]
  rintro ⟨k, n⟩ ⟨hk, hlo, hhi⟩ ⟨hk', hlo', hhi'⟩
  have hpage : pageOf x = pageOf y := congrArg PageKey.pageNo (hk.symm.trans hk')
  have hnat : x.toNat ≠ y.toNat := fun e => hne (BitVec.eq_of_toNat_eq e)
  simp only [pageOf_eq, slotOf_eq, slotSize] at hpage hlo hhi hlo' hhi'
  cases ft
  · simp only [numSlotsPer] at hhi hhi'
    omega
  · simp only [numSlotsPer] at hhi hhi' hx hy
    omega

end Bytes

/-! ### What a write leaves alone -/

namespace PhyDatabase

variable {B : Set (PageKey × ℕ)} {db : PhyDatabase} {k : PageKey}

/-- A byte of a page. -/
def byte (db : PhyDatabase) (b : PageKey × ℕ) : Uchar := (db.file b.1.fk b.1.ft).page b.1.pageNo b.2

/-- The bytes that are not in `B` are the same. -/
def SameOutside (B : Set (PageKey × ℕ)) (db db' : PhyDatabase) : Prop :=
  ∀ b ∉ B, db'.byte b = db.byte b

instance : Std.Refl (SameOutside B) := ⟨fun _ _ _ => rfl⟩

instance : IsTrans PhyDatabase (SameOutside B) :=
  ⟨fun _ _ _ h₁ h₂ b hb => (h₂ b hb).trans (h₁ b hb)⟩

theorem setPage_of_not_inFile (hk : k.fk = .records) (h : ¬ db.InFile k) (data : PageData) :
    db.setPage k data = db := by
  obtain ⟨fk, ft, n⟩ := k
  cases hk
  have hsame : (db.records ft).setPage n data = db.records ft :=
    congrArg DiskFile.mk (List.set_eq_of_length_le (not_lt.mp h))
  simp only [setPage, file, hsame, Function.update_eq_self]

theorem keeps_writeUlong {off : ℕ} {msg : String} {v : Ulong} (hk : k.fk = .records)
    (hB : ∀ i, off ≤ i → i < off + 8 → (k, i) ∈ B) :
    Keeps (flat 4096) (SameOutside B) (writeUlong 4096 msg k off v) := by
  intro db a db' hr
  by_cases hoff : off ≤ 4088
  · rw [run_writeUlong db hoff] at hr
    cases hr
    intro b hb
    by_cases hin : db.InFile k
    · have hpage := page_file_setPage hin (by rw [hk]; decide) b.1
        (storeWord ((db.file k.fk k.ft).page k.pageNo) off v)
      rw [byte, hpage]
      split
      · rename_i e
        subst e
        exact if_neg fun h => hb (hB b.2 h.1 h.2)
      · rfl
    · rw [setPage_of_not_inFile hk hin]
  · rw [run_writeUlong_error (not_le.mp hoff)] at hr
    cases hr

theorem keeps_writeWords (hk : k.fk = .records) (ws : List (String × Ulong)) : ∀ {off : ℕ},
    (∀ i, off ≤ i → i < off + 8 * ws.length → (k, i) ∈ B) →
      Keeps (flat 4096) (SameOutside B) (writeWords 4096 k off ws) := by
  induction ws with
  | nil => exact fun _ => .pure ()
  | cons w ws ih =>
      intro off hB
      rw [List.length_cons] at hB
      exact .bind (keeps_writeUlong hk fun i h₁ h₂ => hB i h₁ (by omega)) fun _ =>
        ih fun i h₁ h₂ => hB i (by omega) (by omega)

theorem keeps_of_same {α : Type} {x : Prog PageOp α} (hx : Keeps (flat 4096) (· = ·) x) :
    Keeps (flat 4096) (SameOutside B) x :=
  fun db a db' hr => (hx db a db' hr) ▸ refl_of (SameOutside B) db

theorem keeps_checkRecordExists (ft : FileType) (id : Ulong) :
    Keeps (flat 4096) (SameOutside B) (OnPages.checkRecordExists 4096 ft id) :=
  keeps_of_same (same_checkRecordExists ft id)

theorem keeps_writeNode (nd : Node) :
    Keeps (flat 4096) (SameOutside (recordBytes .node nd.id)) (OnPages.writeNode 4096 nd) := by
  refine .bind (keeps_of_same (same_pinPage _)) fun _ => .bind (.bind
    (keeps_of_same (same_requirePinned _ _)) fun _ => keeps_writeWords rfl _ fun i h₁ h₂ =>
      ⟨rfl, h₁, ?_⟩) fun _ => keeps_of_same (same_unpinPage _)
  simp only [List.length_cons, List.length_nil, numSlotsPer, slotSize] at h₂ ⊢
  omega

theorem keeps_writeRelationship (r : Relationship) :
    Keeps (flat 4096) (SameOutside (recordBytes .relationship r.id))
      (OnPages.writeRelationship 4096 r) := by
  refine .bind (keeps_of_same (same_pinPage _)) fun _ => .bind (keeps_writeWords rfl _
    fun i h₁ h₂ => ⟨rfl, h₁, ?_⟩) fun _ => keeps_of_same (same_unpinPage _)
  simp only [List.length_cons, List.length_nil, numSlotsPer, slotSize] at h₂ ⊢
  omega

end PhyDatabase

namespace HeapFile

open PhyDatabase

variable {B : Set (PageKey × ℕ)} {hf : HeapFile PhyDatabase}

/-- The bytes of the pages that are not in `B` are the same. -/
def SameOutside (B : Set (PageKey × ℕ)) (hf hf' : HeapFile PhyDatabase) : Prop :=
  hf.cache.SameOutside B hf'.cache

instance : Std.Refl (SameOutside B) := ⟨fun hf => refl_of (PhyDatabase.SameOutside B) hf.cache⟩

instance : IsTrans (HeapFile PhyDatabase) (SameOutside B) :=
  ⟨fun _ _ _ h₁ h₂ => trans_of (PhyDatabase.SameOutside B) h₁ h₂⟩

theorem keeps_perform {β : Type} {op : RecordOp β} {x : Prog PageOp β}
    (hx : Keeps (flat 4096) (PhyDatabase.SameOutside B) x)
    (hop : ∀ hf, step 4096 (flat 4096) β op hf = onPages (flat 4096) hf x) :
    Keeps (step 4096 (flat 4096)) (SameOutside B) (.perform op) := by
  refine .perform fun hf a hf' hr => ?_
  rw [hop, onPages] at hr
  cases hd : x.run (flat 4096) hf.cache with
  | error e =>
      rw [hd] at hr
      cases hr
  | ok p =>
      rw [hd] at hr
      cases hr
      exact hx _ _ _ hd

theorem keeps_exit {α : Type} (msg : String) :
    Keeps (step 4096 (flat 4096)) (SameOutside B) (HF.exit msg : HF α) :=
  fun _ _ _ hr => by cases hr

/-- `update_node` writes to the bytes of the node. -/
theorem keeps_updateNode (nd : Node) :
    Keeps (step 4096 (flat 4096)) (SameOutside (recordBytes .node nd.id)) (HF.updateNode nd) :=
  .ite (keeps_exit _) <| .bind (keeps_perform (keeps_checkRecordExists _ _) fun _ => rfl) fun _ =>
    .ite (keeps_exit _) (keeps_perform (keeps_writeNode nd) fun _ => rfl)

/-- `update_relationship` writes to the bytes of the relationship. -/
theorem keeps_updateRelationship (r : Relationship) :
    Keeps (step 4096 (flat 4096)) (SameOutside (recordBytes .relationship r.id))
      (HF.updateRelationship r) :=
  .ite (keeps_exit _) <| .bind (keeps_perform (keeps_checkRecordExists _ _) fun _ => rfl) fun _ =>
    .ite (keeps_exit _) (keeps_perform (keeps_writeRelationship r) fun _ => rfl)

/-! ### What is read after a write -/

/-- `read_node` returns the node. -/
def ReadsNode (hf : HeapFile PhyDatabase) (id : Ulong) (nd : Node) : Prop :=
  ∃ hf₁, run (HF.readNode id) hf = .ok (nd, hf₁)

/-- `read_relationship` returns the relationship. -/
def ReadsRelationship (hf : HeapFile PhyDatabase) (id : Ulong) (r : Relationship) : Prop :=
  ∃ hf₁, run (HF.readRelationship id) hf = .ok (r, hf₁)

theorem readsNode_of_graph (hg : hf.Good) (hv : (Store.of hf).Valid) {x : Ulong} {nd : Node}
    (h : hf.graph.node x = some nd) : hf.ReadsNode x nd := by
  obtain ⟨hf₁, hrun, -, -⟩ := run_ok hg (Store.run_readNode hv h)
  exact ⟨hf₁, hrun⟩

theorem readsRelationship_of_graph (hg : hf.Good) (hv : (Store.of hf).Valid) {x : Ulong}
    {r : Relationship} (h : hf.graph.rel x = some r) : hf.ReadsRelationship x r := by
  obtain ⟨hf₁, hrun, -, -⟩ := run_ok hg (Store.run_readRelationship hv h)
  exact ⟨hf₁, hrun⟩

/-- The record of type `ft` at `id` was written: no other byte changed, and every other record that
lives is read as it was. -/
structure Updated (ft : FileType) (id : Ulong) (hf hf' : HeapFile PhyDatabase) : Prop where
  bytes : SameOutside (recordBytes ft id) hf hf'
  live : ∀ gt x, (Store.of hf').Live gt x ↔ (Store.of hf).Live gt x
  nodes : ∀ x, (Store.of hf).Live .node x → (ft = .node → x ≠ id) →
    ∃ nd, hf.ReadsNode x nd ∧ hf'.ReadsNode x nd
  relationships : ∀ x, (Store.of hf).Live .relationship x → (ft = .relationship → x ≠ id) →
    ∃ r, hf.ReadsRelationship x r ∧ hf'.ReadsRelationship x r

/-- **A node** that is written is read back. -/
theorem run_updateNode (hg : hf.Good) (hv : (Store.of hf).Valid) {nd : Node}
    (hl : (Store.of hf).Live .node nd.id) : ∃ hf', run (HF.updateNode nd) hf = .ok ((), hf') ∧
      hf'.ReadsNode nd.id nd ∧ Updated .node nd.id hf hf' := by
  obtain ⟨hf', hrun, hg', hs'⟩ := run_ok hg (Store.run_updateNodeInternal hv hl true)
  have hv' : (Store.of hf').Valid := hs' ▸ hv.setNode nd
  have hgraph : hf'.graph = hf.graph.setNode nd := by
    rw [graph, hs']
    exact Store.graph_setNode hl
  refine ⟨hf', hrun, readsNode_of_graph hg' hv' ?_,
    keeps_updateNode nd _ _ _ hrun, fun gt x => ?_, fun x hx hne => ?_, fun x hx _ => ?_⟩
  · rw [hgraph]
    exact Function.update_self ..
  · rw [hs']
    exact Iff.rfl
  · have hx' := Store.node_eq_some.mpr ⟨hx, rfl⟩
    refine ⟨_, readsNode_of_graph hg hv hx', readsNode_of_graph hg' hv' ?_⟩
    rw [hgraph]
    exact (Function.update_of_ne (hne rfl) ..).trans hx'
  · have hx' := Store.rel_eq_some.mpr ⟨hx, rfl⟩
    refine ⟨_, readsRelationship_of_graph hg hv hx', readsRelationship_of_graph hg' hv' ?_⟩
    rw [hgraph]
    exact hx'

/-- **A relationship** that is written is read back. -/
theorem run_updateRelationship (hg : hf.Good) (hv : (Store.of hf).Valid) {r : Relationship}
    (hl : (Store.of hf).Live .relationship r.id) (hw : Store.Writable r) :
    ∃ hf', run (HF.updateRelationship r) hf = .ok ((), hf') ∧
      hf'.ReadsRelationship r.id r ∧ Updated .relationship r.id hf hf' := by
  obtain ⟨hf', hrun, hg', hs'⟩ := run_ok hg (Store.run_updateRelationshipInternal hv hl hw true)
  have hv' : (Store.of hf').Valid := hs' ▸ hv.setRel r
  have hgraph : hf'.graph = hf.graph.setRel r := by
    rw [graph, hs']
    exact Store.graph_setRel hl
  refine ⟨hf', hrun, readsRelationship_of_graph hg' hv' ?_,
    keeps_updateRelationship r _ _ _ hrun, fun gt x => ?_, fun x hx _ => ?_, fun x hx hne => ?_⟩
  · rw [hgraph]
    exact Function.update_self ..
  · rw [hs']
    exact Iff.rfl
  · have hx' := Store.node_eq_some.mpr ⟨hx, rfl⟩
    refine ⟨_, readsNode_of_graph hg hv hx', readsNode_of_graph hg' hv' ?_⟩
    rw [hgraph]
    exact hx'
  · have hx' := Store.rel_eq_some.mpr ⟨hx, rfl⟩
    refine ⟨_, readsRelationship_of_graph hg hv hx', readsRelationship_of_graph hg' hv' ?_⟩
    rw [hgraph]
    exact (Function.update_of_ne (hne rfl) ..).trans hx'

/-- What `next_free_slots` hands out is aligned. -/
theorem aligned_of_run_nextFreeSlots (hg : hf.Good) (hv : (Store.of hf).Valid) {fuel : ℕ}
    {ft : FileType} {hf' : HeapFile PhyDatabase}
    (hrun : run (HF.nextFreeSlots 4096 fuel ft) hf = .ok ((), hf')) :
    (hf'.counters.lastAlloc ft).toNat % numSlotsPer ft = 0 := by
  obtain ⟨-, hs⟩ := run_inv hg hrun
  rcases Store.run_nextFreeSlots hv fuel ft with ⟨e, he, -⟩ | ⟨o, s', hs', -, hA⟩
  · rw [he] at hs
    cases hs
  · rw [hs'] at hs
    cases hs
    have hcounters : hf'.counters = _ := hA.counters
    rw [hcounters]
    cases ft
    · exact Nat.mod_one _
    · exact hA.live_self.1

/-- **The law of the record store**: what `update_node` and `update_relationship` write is read back,
no other record changes, and the records that `next_free_slots` hands out lie apart in their pages. -/
theorem updates_read (hg : hf.Good) (hv : (Store.of hf).Valid) :
    (∀ nd : Node, (Store.of hf).Live .node nd.id →
      ∃ hf', run (HF.updateNode nd) hf = .ok ((), hf') ∧ hf'.ReadsNode nd.id nd ∧
        Updated .node nd.id hf hf') ∧
    (∀ r : Relationship, (Store.of hf).Live .relationship r.id → Store.Writable r →
      ∃ hf', run (HF.updateRelationship r) hf = .ok ((), hf') ∧ hf'.ReadsRelationship r.id r ∧
        Updated .relationship r.id hf hf') ∧
    (∀ fuel ft hf', run (HF.nextFreeSlots 4096 fuel ft) hf = .ok ((), hf') →
      (hf'.counters.lastAlloc ft).toNat % numSlotsPer ft = 0) ∧
    ∀ ft (x y : Ulong), x.toNat % numSlotsPer ft = 0 → y.toNat % numSlotsPer ft = 0 →
      (∀ b ∈ recordBytes ft x, b.2 < 4096) ∧
      (x ≠ y → Disjoint (recordBytes ft x) (recordBytes ft y)) :=
  ⟨fun _ hl => run_updateNode hg hv hl, fun _ hl hw => run_updateRelationship hg hv hl hw,
    fun _ _ _ hrun => aligned_of_run_nextFreeSlots hg hv hrun,
    fun _ _ _ hx hy => ⟨fun _ hb => lt_of_mem_recordBytes hx hb, recordBytes_disjoint hx hy⟩⟩

/-- A node and a loop. -/
theorem updates_read_loop : ∃ db hf₀ hf ids, PhyDatabase.create 4096 = .ok db ∧
    create 4096 1000 (PhyDatabase.flat 4096) db = .ok hf₀ ∧
    run (HF.creations 4096 1000 [.node 7#64, .relationship 0#64 0#64 0#64 0#64]) hf₀ =
      .ok (ids, hf) ∧
    ∃ hf', run (HF.updateNode ⟨0#64, 0#64, 9#64⟩) hf = .ok ((), hf') ∧
      hf'.ReadsNode 0#64 ⟨0#64, 0#64, 9#64⟩ ∧ Updated .node 0#64 hf hf' := by
  have h : Prog.check Store.step (HF.creations 4096 1000
      [.node 7#64, .relationship 0#64 0#64 0#64 0#64]) Store.empty
      (fun _ s => decide (s.Live .node 0#64)) = true := by
    decide +kernel
  obtain ⟨ids, s, hrun, hp⟩ := Prog.check_inv _ h
  obtain ⟨db, hf₀, hf, hdb, hcreate, hrun', hw, rfl⟩ := exists_created hrun
  exact ⟨db, hf₀, hf, ids, hdb, hcreate, hrun',
    (updates_read hw.good hw.store.valid).1 ⟨0#64, 0#64, 9#64⟩ (of_decide_eq_true hp)⟩

end HeapFile

end Goedb
