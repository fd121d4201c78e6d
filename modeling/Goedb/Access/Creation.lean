import Goedb.Access.CreateRelationship

/-!
# Access — the graphs that are created

A heap file is well-formed when its pages keep their accounts and its records form a well-formed
graph.  Every sequence of `create_node` and `create_relationship` on a fresh database leaves one.

* `Graph.Extends`: a graph with one relationship more, the last one of the chains of its endpoints.
* `HeapFile.creation_wellFormed`: `create_relationship` extends a well-formed heap file, and every
  run of creations ends in a well-formed one.
-/

namespace Goedb

open Lib

namespace Graph

/-- `g'` is `g` with one relationship more: `id`, at the end of the chains of its endpoints.  Nothing
else is said differently. -/
structure Extends (g g' : Graph) (id : Ulong) (r : Relationship) : Prop where
  fresh : g.rel id = none
  new : (g'.rel id).map Relationship.payload = some r.payload
  others : ∀ y, y ≠ id → (g'.rel y).map Relationship.payload = (g.rel y).map Relationship.payload
  labels : ∀ n, (g'.node n).map Node.label = (g.node n).map Node.label
  chains : ∀ n nd l, g.node n = some nd → g.Chain n nd.firstRelationship l →
    ∃ nd', g'.node n = some nd' ∧
      g'.Chain n nd'.firstRelationship (if r.At n then l ++ [id] else l)

variable {g : Graph} {rel : Relationship} {nf nt : Node}

theorem WellFormed.extends_link (hw : g.WellFormed) (hk : g.Keyed) (hx : g.rel rel.id = none)
    (hU : rel.id ≠ uninitializedLong) (hnf : g.node rel.sourceNode = some nf)
    (hnt : g.node rel.targetNode = some nt) :
    g.Extends (g.link rel nf.firstRelationship nt.firstRelationship) rel.id rel := by
  obtain ⟨lF, hF⟩ := hw.chain _ _ hnf
  obtain ⟨lT, hT⟩ := hw.chain _ _ hnt
  refine ⟨hx, ?_, fun y hy => ?_, fun n => ?_, fun n nd l hn hl => ?_⟩
  · rw [link_rel_self, Option.map_some, keeps_relinkNew.payload]
    rfl
  · rw [link_rel_of_ne hy]
    cases g.rel y with
    | none => rfl
    | some r => exact congrArg some (keeps_relinkNew.payload r)
  · simp only [Graph.link]
    cases g.node n with
    | none => rfl
    | some nd =>
        simp only [Option.map_some]
        split <;> rfl
  · have hnode : (g.link rel nf.firstRelationship nt.firstRelationship).node n =
        some (if nd.firstRelationship = uninitializedLong ∧ rel.At n then
          { nd with firstRelationship := rel.id } else nd) := by
      simp only [Graph.link, hn, Option.map_some]
    refine ⟨_, hnode, ?_⟩
    by_cases ha : rel.At n
    · have hs : n = rel.sourceNode → nd.firstRelationship = nf.firstRelationship := by
        rintro rfl
        rw [hn] at hnf
        cases hnf
        rfl
      have ht : n = rel.targetNode → nd.firstRelationship = nt.firstRelationship := by
        rintro rfl
        rw [hn] at hnt
        cases hnt
        rfl
      have := link_chain_of_at hk hx hF hT hl hU ha hs ht
      rw [if_pos ha]
      by_cases h : nd.firstRelationship = uninitializedLong
      · rw [if_pos h] at this
        rwa [if_pos ⟨h, ha⟩]
      · rw [if_neg h] at this
        rwa [if_neg fun h' => h h'.1]
    · rw [if_neg ha, if_neg fun h => ha h.2]
      exact link_chain_of_not_at hk hx hF hT hl ha

/-- A new node has no relationships. -/
theorem WellFormed.setNode (hw : g.WellFormed) {nd : Node} (hx : g.node nd.id = none)
    (hfirst : nd.firstRelationship = uninitializedLong) : (g.setNode nd).WellFormed where
  chain n nd' hn := by
    by_cases h : n = nd.id
    · subst h
      have : nd = nd' := by simpa [Graph.setNode] using hn
      subst this
      refine ⟨[], List.nodup_nil, fun x => ⟨fun hx => absurd hx List.not_mem_nil, ?_⟩, Ring.nil,
        hfirst, by simp [hfirst]⟩
      rintro ⟨r, hr, ha⟩
      obtain ⟨⟨m₁, h₁⟩, m₂, h₂⟩ := hw.endpoints x r hr
      rcases ha with ha | ha
      · rw [ha, hx] at h₁
        cases h₁
      · rw [ha, hx] at h₂
        cases h₂
    · have hn' : g.node n = some nd' := by
        simpa [Graph.setNode, Function.update_of_ne h] using hn
      obtain ⟨l, hl⟩ := hw.chain n nd' hn'
      exact ⟨l, hl.nodup, hl.mem, hl.ring, hl.first_eq, hl.first_eq_iff⟩
  loops := hw.loops
  endpoints x r hr := by
    have hnode : ∀ {m}, (∃ nd', g.node m = some nd') → ∃ nd', (g.setNode nd).node m = some nd' := by
      rintro m ⟨nd', hm⟩
      by_cases h : m = nd.id
      · exact ⟨nd, by rw [h]; exact Function.update_self ..⟩
      · exact ⟨nd', by simpa [Graph.setNode, Function.update_of_ne h] using hm⟩
    exact ⟨hnode (hw.endpoints x r hr).1, hnode (hw.endpoints x r hr).2⟩

end Graph

namespace Store

variable {s : Store} {nf nt : Node} {fromId toId weight label : Ulong}

/-- **`create_relationship` keeps a store well-formed** and extends its graph. -/
theorem createRelationship_wellFormed (hw : s.WellFormed) (hnf : s.graph.node fromId = some nf)
    (hnt : s.graph.node toId = some nt) (hwt : weight ≠ uninitializedWeight) {fuel : ℕ}
    {id : Ulong} {s' : Store}
    (h : run (HF.createRelationship 4096 fuel fromId toId weight label) s = .ok (id, s')) :
    s'.WellFormed ∧ s.graph.Extends s'.graph id (relOf id fromId toId weight label) := by
  rcases run_createRelationship hw hnf hnt hwt fuel label with ⟨e, he, -⟩ | ⟨id', s₁, h₁, hC, hg⟩
  · rw [he] at h
    cases h
  · rw [h₁] at h
    cases h
    have hx : s.graph.rel id = none := rel_eq_none.mpr hC.fresh
    have hv := hC.valid fun _ => rfl
    have hU : id ≠ uninitializedLong :=
      hv.ne_uninitialized ((hC.live _ _).mpr (.inr ⟨rfl, rfl⟩)).2.1
    have hE := hw.graph.extends_link s.keyed
      (show s.graph.rel (relOf id fromId toId weight label).id = none from hx) hU hnf hnt
    obtain ⟨lF, hF⟩ := hw.graph.chain _ _ hnf
    obtain ⟨lT, hT⟩ := hw.graph.chain _ _ hnt
    refine ⟨⟨hv, fun y r hr => ?_, ?_⟩, hg ▸ hE⟩
    · rw [hg] at hr
      by_cases hy : y = id
      · have hp := hE.new
        rw [← hy, show (relOf y fromId toId weight label).id = y from rfl] at hp
        subst hy
        rw [hr] at hp
        have : r.weight = weight := congrArg (·.2.2.1) (Option.some.inj hp)
        rwa [this]
      · have hp := hE.others y hy
        rw [hr] at hp
        cases hy' : s.graph.rel y with
        | none => rw [hy'] at hp; cases hp
        | some r' =>
            rw [hy'] at hp
            have : r.weight = r'.weight := congrArg (·.2.2.1) (Option.some.inj hp)
            rw [this]
            exact hw.weights y r' hy'
    · rw [hg]
      exact Graph.WellFormed.link s.keyed hx hF hT hw.graph hU hnf hnt rfl rfl

theorem createNode_wellFormed (hw : s.WellFormed) {fuel : ℕ} {id : Ulong} {s' : Store}
    (h : run (HF.createNode 4096 fuel label) s = .ok (id, s')) : s'.WellFormed := by
  rcases run_createNode hw.valid fuel label with ⟨e, he, -⟩ | ⟨id', s₁, h₁, hC, hg⟩
  · rw [he] at h
    cases h
  · rw [h₁] at h
    cases h
    refine ⟨hC.valid fun _ => rfl, fun y r hr => ?_, ?_⟩
    · rw [hg] at hr
      exact hw.weights y r hr
    · rw [hg]
      exact hw.graph.setNode (node_eq_none.mpr hC.fresh) rfl

end Store

/-! ### Runs of creations -/

/-- A call that creates a record. -/
inductive Creation where
  | node (label : Ulong)
  | relationship (fromId toId : Ulong) (weight : Double) (label : Ulong)
  deriving DecidableEq, Repr

namespace HF

/-- The call, with the id it returns. -/
def creation (P fuel : ℕ) : Creation → HF Ulong
  | .node label => createNode P fuel label
  | .relationship fromId toId weight label => createRelationship P fuel fromId toId weight label

/-- One call after the other. -/
def creations (P fuel : ℕ) : List Creation → HF (List Ulong)
  | [] => pure []
  | c :: cs => do
      let id ← creation P fuel c
      let ids ← creations P fuel cs
      return id :: ids

end HF

namespace Store

variable {s : Store}

/-- One call keeps the store well-formed. -/
theorem creation_keeps (hw : s.WellFormed) {fuel : ℕ} {c : Creation} {id : Ulong} {s' : Store}
    (h : run (HF.creation 4096 fuel c) s = .ok (id, s')) : s'.WellFormed := by
  cases c with
  | node label => exact createNode_wellFormed hw h
  | relationship fromId toId weight label =>
      obtain ⟨⟨nf, hnf⟩, ⟨nt, hnt⟩, hwt⟩ := createRelationship_inv hw.valid h
      exact (createRelationship_wellFormed hw hnf hnt hwt h).1

/-- So does every sequence of calls. -/
theorem creations_wellFormed {fuel : ℕ} (cs : List Creation) : ∀ {s : Store}, s.WellFormed →
    ∀ {ids s'}, run (HF.creations 4096 fuel cs) s = .ok (ids, s') → s'.WellFormed := by
  induction cs with
  | nil =>
      intro s hw ids s' h
      cases h
      exact hw
  | cons c cs ih =>
      intro s hw ids s' h
      obtain ⟨id, s₁, h₁, h⟩ := Prog.run_bind_inv _ h
      obtain ⟨ids', s₂, h₂, h⟩ := Prog.run_bind_inv _ h
      cases h
      exact ih (creation_keeps hw h₁) h₂

/-- The store without records. -/
def empty : Store where
  pages _ := 0
  bit _ _ := false
  word _ _ := 0#64
  counters := { nNodes := 0, nRels := 0, lastAllocNodeId := 0, lastAllocRelId := 0, log := [] }

theorem not_live_empty (ft : FileType) (id : Ulong) : ¬ empty.Live ft id := fun h =>
  Nat.not_lt_zero _ h.2.1

theorem graph_empty : empty.graph = ⟨fun _ => none, fun _ => none⟩ :=
  Graph.ext (funext fun _ => node_eq_none.mpr (not_live_empty _ _))
    (funext fun _ => rel_eq_none.mpr (not_live_empty _ _))

theorem empty_wellFormed : empty.WellFormed where
  valid := ⟨fun _ => show 0 < maxPageNo 4096 by decide, fun _ _ _ => rfl, rfl⟩
  weights x r h := by rw [graph_empty] at h; cases h
  graph := by
    rw [graph_empty]
    exact ⟨fun _ _ h => by (cases h), fun _ _ h => by (cases h), fun _ _ h => by (cases h)⟩

end Store

/-! ### Heap files -/

namespace HeapFile

/-- The records of a heap file. -/
def graph (hf : HeapFile PhyDatabase) : Graph := (Store.of hf).graph

/-- The pages keep their accounts, and the records form a well-formed graph. -/
structure WellFormed (hf : HeapFile PhyDatabase) : Prop where
  good : hf.Good
  store : (Store.of hf).WellFormed

theorem WellFormed.graph {hf : HeapFile PhyDatabase} (h : hf.WellFormed) : hf.graph.WellFormed :=
  h.store.graph

/-- There is a slot left for one more record, and `fuel` suffices to find it. -/
def HasRoom (hf : HeapFile PhyDatabase) (ft : FileType) (fuel : ℕ) : Prop :=
  (hf.cache.records ft).numPages * 256 < fuel ∧
    (hf.cache.records ft).numPages + 1 < maxPageNo 4096

theorem HasRoom.not_exhausted {hf : HeapFile PhyDatabase} {ft : FileType} {fuel : ℕ}
    (h : hf.HasRoom ft fuel) : ¬ (Store.of hf).Exhausted ft fuel := by
  have h₁ : (Store.of hf).pages ft * 256 < fuel := h.1
  have h₂ : (Store.of hf).pages ft + 1 < maxPageNo 4096 := h.2
  rintro (h' | h') <;> omega

variable {hf hf' : HeapFile PhyDatabase} {α : Type} {x : HF α} {a : α}

/-- What a run on the store returns is what the run on the pages returns. -/
theorem run_ok (hg : hf.Good) {s' : Store} (h : Store.run x (Store.of hf) = .ok (a, s')) :
    ∃ hf', run x hf = .ok (a, hf') ∧ hf'.Good ∧ Store.of hf' = s' :=
  (run_agrees x hg).of_ok h

/-- A run on the pages is a run on the store. -/
theorem run_inv (hg : hf.Good) (h : run x hf = .ok (a, hf')) :
    hf'.Good ∧ Store.run x (Store.of hf) = .ok (a, Store.of hf') := by
  have := run_agrees x hg
  rw [h] at this
  exact this

/-! ### The fresh heap file -/

/-- The heap file before `heap_file_create` has counted its records. -/
def fresh : HeapFile PhyDatabase := ⟨PhyDatabase.fresh 4096, Store.empty.counters⟩

theorem fresh_good : fresh.Good := PhyDatabase.fresh_accounts isPageSize_4096

theorem of_fresh : Store.of fresh = Store.empty := by
  have hpage : ∀ {l : List PageData} {n : ℕ}, (∀ p ∈ l, p = zeroPage) →
      (DiskFile.mk l).page n = zeroPage := by
    intro l n hl
    rw [DiskFile.page, List.getD_eq_getElem?_getD]
    cases h : l[n]? with
    | none => rfl
    | some p => exact hl p (List.mem_of_getElem? h)
  refine Store.eq_of rfl (fun ft n => ?_) (fun ft n => ?_) rfl
  · have : ((PhyDatabase.fresh 4096).header ft).page (n / 32768) = zeroPage :=
      hpage fun p hp => List.mem_singleton.mp hp
    simp [Store.of, fresh, this, pageBit, zeroPage, Store.empty]
  · have : ((PhyDatabase.fresh 4096).records ft).page (n / 512) = zeroPage :=
      hpage fun p hp => absurd hp List.not_mem_nil
    simp [Store.of, fresh, this, loadWord, zeroPage, Store.empty]

theorem run_countRecords_empty (fuel : ℕ) :
    Store.run (HF.countRecords 4096 (fuel + 1)) Store.empty = .ok ((), Store.empty) := by
  have hn : Store.run (HF.getNodes 4096 (fuel + 1)) Store.empty = .ok ([], Store.empty) := rfl
  have hr : Store.run (HF.getRelationships 4096 (fuel + 1)) Store.empty =
      .ok ([], Store.empty) := rfl
  rw [Store.run, HF.countRecords, Prog.run_bind_ok _ hn,
    Prog.run_bind_ok _ (Store.run_modifyCounters _ _)]
  refine (Prog.run_bind_ok _ hr _).trans ?_
  rfl

/-- `heap_file_create` on a fresh database finds no records. -/
theorem create_inv {fuel : ℕ} {db : PhyDatabase} (hdb : PhyDatabase.create 4096 = .ok db)
    (h : create 4096 fuel (PhyDatabase.flat 4096) db = .ok hf) :
    hf.Good ∧ Store.of hf = Store.empty := by
  rw [PhyDatabase.create_eq isPageSize_4096] at hdb
  cases hdb
  obtain ⟨⟨u, hf₁⟩, h₁, h₂⟩ := bind_inv h
  cases h₂
  obtain ⟨hg, hs⟩ := run_inv (x := HF.countRecords 4096 fuel) fresh_good h₁
  refine ⟨hg, ?_⟩
  cases fuel with
  | zero => cases hs
  | succ fuel =>
      rw [of_fresh, run_countRecords_empty] at hs
      exact (congrArg Prod.snd (Except.ok.inj hs)).symm

theorem create_ok (fuel : ℕ) : ∃ db hf, PhyDatabase.create 4096 = .ok db ∧
    create 4096 (fuel + 1) (PhyDatabase.flat 4096) db = .ok hf := by
  have hs := run_countRecords_empty fuel
  rw [← of_fresh] at hs
  obtain ⟨hf, h, -⟩ := run_ok fresh_good hs
  refine ⟨_, hf, PhyDatabase.create_eq isPageSize_4096, ?_⟩
  rw [create]
  exact congrArg (· >>= fun p => pure p.2) h

/-- A run of creations on the empty store is a run on a fresh database. -/
theorem exists_created {fuel : ℕ} {cs : List Creation} {ids : List Ulong} {s' : Store}
    (h : Store.run (HF.creations 4096 (fuel + 1) cs) Store.empty = .ok (ids, s')) :
    ∃ db hf₀ hf, PhyDatabase.create 4096 = .ok db ∧
      create 4096 (fuel + 1) (PhyDatabase.flat 4096) db = .ok hf₀ ∧
      run (HF.creations 4096 (fuel + 1) cs) hf₀ = .ok (ids, hf) ∧ hf.WellFormed ∧
      Store.of hf = s' := by
  obtain ⟨db, hf₀, hdb, hcreate⟩ := create_ok fuel
  obtain ⟨hg₀, hs₀⟩ := create_inv hdb hcreate
  rw [← hs₀] at h
  obtain ⟨hf, hrun, hg, rfl⟩ := run_ok hg₀ h
  rw [hs₀] at h
  exact ⟨db, hf₀, hf, hdb, hcreate, hrun,
    ⟨hg, Store.creations_wellFormed cs Store.empty_wellFormed h⟩, rfl⟩

/-- **Creations keep a heap file well-formed.**  Between two nodes that are there,
`create_relationship` adds one relationship, at the end of the chains of both; and every sequence of
calls of `create_node` and `create_relationship` on a fresh database leaves a well-formed heap
file. -/
theorem creation_wellFormed :
    (∀ (hf : HeapFile PhyDatabase) (fuel : ℕ) (fromId toId : Ulong) (weight : Double)
        (label : Ulong), hf.WellFormed → hf.HasRoom .relationship fuel →
      (hf.graph.node fromId).isSome → (hf.graph.node toId).isSome → weight ≠ uninitializedWeight →
      ∃ id hf', run (HF.createRelationship 4096 fuel fromId toId weight label) hf = .ok (id, hf') ∧
        hf'.WellFormed ∧
        hf.graph.Extends hf'.graph id (Store.relOf id fromId toId weight label)) ∧
    ∀ (fuel : ℕ) (cs : List Creation) (db : PhyDatabase) (hf hf' : HeapFile PhyDatabase)
        (ids : List Ulong), PhyDatabase.create 4096 = .ok db →
      create 4096 fuel (PhyDatabase.flat 4096) db = .ok hf →
      run (HF.creations 4096 fuel cs) hf = .ok (ids, hf') → hf'.WellFormed := by
  constructor
  · intro hf fuel fromId toId weight label hw hroom hfrom hto hwt
    obtain ⟨nf, hnf⟩ := Option.isSome_iff_exists.mp hfrom
    obtain ⟨nt, hnt⟩ := Option.isSome_iff_exists.mp hto
    rcases Store.run_createRelationship hw.store hnf hnt hwt fuel label with ⟨e, -, he⟩ | ⟨id, s', h, -⟩
    · exact absurd he.exhausted hroom.not_exhausted
    · obtain ⟨hf', hrun, hg, rfl⟩ := run_ok hw.good h
      obtain ⟨hw', hE⟩ := Store.createRelationship_wellFormed hw.store hnf hnt hwt h
      exact ⟨id, hf', hrun, ⟨hg, hw'⟩, hE⟩
  · intro fuel cs db hf hf' ids hdb hcreate hrun
    obtain ⟨hg, hs⟩ := create_inv hdb hcreate
    obtain ⟨hg', hrun'⟩ := run_inv hg hrun
    rw [hs] at hrun'
    exact ⟨hg', Store.creations_wellFormed cs Store.empty_wellFormed hrun'⟩

/-- A node is created on a fresh database, and a self-loop at it. -/
theorem creation_wellFormed_selfLoop : ∃ hf nodeId id hf', hf.WellFormed ∧
    run (HF.createRelationship 4096 1000 nodeId nodeId 0#64 5#64) hf = .ok (id, hf') ∧
    hf'.WellFormed ∧
    hf.graph.Extends hf'.graph id (Store.relOf id nodeId nodeId 0#64 5#64) := by
  obtain ⟨db, hf₀, hdb, hcreate⟩ := create_ok 999
  obtain ⟨hg₀, hs₀⟩ := create_inv hdb hcreate
  obtain ⟨e, -, he⟩ | ⟨n, s₁, h₁, hC, hgr⟩ :=
    Store.run_createNode (s := Store.empty) Store.empty_wellFormed.valid 1000 7#64
  · exact absurd he.exhausted (by rintro (h | h) <;> revert h <;> decide)
  · have hcs : Store.run (HF.creations 4096 1000 [.node 7#64]) (Store.of hf₀) = .ok ([n], s₁) := by
      rw [hs₀]
      exact Prog.run_bind_ok _ h₁ _
    obtain ⟨hf, hrun, hg, rfl⟩ := run_ok hg₀ hcs
    have hw := creation_wellFormed.2 1000 [.node 7#64] db hf₀ hf [n] hdb hcreate hrun
    have hnode : (hf.graph.node n).isSome := by
      rw [graph, hgr]
      simp [Graph.setNode]
    have hroom : hf.HasRoom .relationship 1000 := by
      obtain ⟨s₁, hA, hp, -⟩ := hC.allocated
      have h₁ : (hf.cache.records .relationship).numPages ≤ 0 + 1 := by
        have := (hA.pages_le .relationship).2
        rw [← hp] at this
        exact this
      exact ⟨by omega, lt_of_le_of_lt (Nat.succ_le_succ h₁) (by decide)⟩
    obtain ⟨id, hf', hrun', hw', hE⟩ :=
      creation_wellFormed.1 hf 1000 n n 0#64 5#64 hw hroom hnode hnode (by decide)
    exact ⟨hf, n, id, hf', hw, hrun', hw', hE⟩

end HeapFile

end Goedb
