import Goedb.Access.GraphCalls

/-!
# Access — a relationship created and deleted again

A well-formed graph of records represents a multigraph (`Graph.WellFormed.exists_represents`), and the
multigraph says everything about the records.  So two changes that cancel each other on multigraphs
leave the records as they were, down to every pointer.

`delete_relationship` undoes `create_relationship`, unless the new relationship was the first one of
its source and not the first one of its target (`HeapFile.deleteRelationship_undoes`).
-/

namespace Goedb

open Lib

namespace Graph

variable {g : Graph}

/-- A well-formed graph represents a multigraph. -/
theorem WellFormed.exists_represents (hw : g.WellFormed) : ∃ G, g.Represents G := by
  classical
  have hlist : ∀ n, ∃ l : List Ulong, l.Nodup ∧ (∀ x, x ∈ l ↔ ∃ r, g.rel x = some r ∧ r.At n) ∧
      ∀ nd, g.node n = some nd → g.Chain n nd.firstRelationship l := by
    intro n
    cases hn : g.node n with
    | some nd =>
        obtain ⟨l, hc⟩ := hw.chain n nd hn
        refine ⟨l, hc.nodup, hc.mem, ?_⟩
        rintro nd' ⟨⟩
        exact hc
    | none =>
        refine ⟨[], List.nodup_nil, fun x => iff_of_false List.not_mem_nil ?_, fun nd h => by cases h⟩
        rintro ⟨r, hr, ha⟩
        obtain ⟨⟨s, hs⟩, t, ht⟩ := hw.endpoints x r hr
        rcases ha with rfl | rfl
        · rw [hn] at hs
          cases hs
        · rw [hn] at ht
          cases ht
  choose incident hnodup hmem hchain using hlist
  refine ⟨⟨g.labelAt, fun x => (g.rel x).map Relationship.edge, incident, hnodup, fun {n x} => ?_,
    fun {x d} hd => ?_⟩, ⟨fun _ => rfl, fun _ => rfl, hchain⟩⟩
  · rw [hmem]
    simp only [Option.map_eq_some_iff, exists_exists_and_eq_and, Relationship.edge_at]
  · obtain ⟨r, hr, rfl⟩ := Option.map_eq_some_iff.mp hd
    obtain ⟨⟨s, hs⟩, t, ht⟩ := hw.endpoints x r hr
    refine ⟨?_, ?_⟩
    · show ((g.node r.sourceNode).map _).isSome
      rw [hs]
      rfl
    · show ((g.node r.targetNode).map _).isSome
      rw [ht]
      rfl

end Graph

namespace HeapFile

variable {hf hf₁ : HeapFile PhyDatabase} {fuel : ℕ} {id fromId toId label : Ulong} {weight : Double}
  {nf nt : Node}

/-- **`delete_relationship` undoes `create_relationship`**, to the last pointer, unless the source had no
relationship and the target had one. -/
theorem deleteRelationship_undoes (hw : hf.WellFormed) (hnf : hf.graph.node fromId = some nf)
    (hnt : hf.graph.node toId = some nt)
    (hrun : run (HF.createRelationship 4096 fuel fromId toId weight label) hf = .ok (id, hf₁)) :
    ∃ hf₂, run (HF.deleteRelationship id) hf₁ = .ok ((), hf₂) ∧
      (hf₂.WellFormed ∧ hf₂.graph = hf.graph ↔
        ¬ (nf.firstRelationship = uninitializedLong ∧ nt.firstRelationship ≠ uninitializedLong)) := by
  obtain ⟨G, hG⟩ := hw.graph.exists_represents
  obtain ⟨hg₁, hs₁⟩ := run_inv hw.good hrun
  obtain ⟨-, -, hweight⟩ := Store.createRelationship_inv hw.store.valid hs₁
  obtain ⟨hw₁, hE⟩ : (Store.of hf₁).WellFormed ∧
      hf.graph.Extends hf₁.graph id (Store.relOf id fromId toId weight label) :=
    Store.createRelationship_wellFormed hw.store hnf hnt hweight hs₁
  have hwf₁ : hf₁.WellFormed := ⟨hg₁, hw₁⟩
  have hs : (G.label (Store.relOf id fromId toId weight label).edge.source).isSome := by
    show (G.label fromId).isSome
    rw [hG.label_of_node hnf]
    rfl
  have ht : (G.label (Store.relOf id fromId toId weight label).edge.target).isSome := by
    show (G.label toId).isSome
    rw [hG.label_of_node hnt]
    rfl
  have hG₁ := hG.addEdge hE hs ht
  set G₁ := G.addEdge id (Store.relOf id fromId toId weight label).edge
    (hG.edge_eq_none.mpr hE.fresh) hs ht with hG₁def
  obtain ⟨rel, hrel, -⟩ := Option.map_eq_some_iff.mp hE.new
  have hlone : hf₁.graph.LoneAtSource rel ↔
      nf.firstRelationship = uninitializedLong ∧ nt.firstRelationship ≠ uninitializedLong := by
    have hk : hf₁.graph.Keyed := (Store.of hf₁).keyed
    rw [← hG₁.loneAtSource_iff hk hrel, hG₁def, Multigraph.loneAtSource_addEdge,
      (hG.chain _ nf hnf).first_eq_iff, Ne, Ne, (hG.chain _ nt hnt).first_eq_iff]
    rfl
  rw [← hlone]
  by_cases hbad : hf₁.graph.LoneAtSource rel
  · obtain ⟨hf₂, hrun₂, hnot⟩ := deleteRelationship_lone hwf₁ hrel hbad
    exact ⟨hf₂, hrun₂, iff_of_false (fun h => hnot h.1) (not_not.mpr hbad)⟩
  · obtain ⟨hf₂, hrun₂, hw₂, hR⟩ := (deleteRelationship_iff hwf₁ hrel).mpr hbad
    have hG₂ := hG₁.removeEdge hR
    rw [hG₁def, Multigraph.removeEdges_addEdge] at hG₂
    refine ⟨hf₂, hrun₂, iff_of_true ⟨hw₂, ?_⟩ hbad⟩
    rw [hG₂.eq_records (fun _ _ => Store.node_id) hw₂.graph (Store.of hf₂).keyed]
    exact (hG.eq_records (fun _ _ => Store.node_id) hw.graph (Store.of hf).keyed).symm

theorem deleteRelationship_undoes_second : ∃ (hf hf₁ hf₂ : HeapFile PhyDatabase) (nf : Node),
    hf.WellFormed ∧ hf.graph.node 1#64 = some nf ∧ nf.firstRelationship = 0#64 ∧
    run (HF.createRelationship 4096 1000 1#64 0#64 doubleOne 6#64) hf = .ok (4#64, hf₁) ∧
    run (HF.deleteRelationship 4#64) hf₁ = .ok ((), hf₂) ∧ hf₂.graph = hf.graph := by
  have h : Prog.check Store.step
      (HF.creations 4096 1000 [.node 7#64, .node 8#64, .relationship 0#64 1#64 doubleOne 5#64])
      Store.empty
      (fun _ s => decide (s.Live .node 0#64 ∧ s.Live .node 1#64 ∧
          (s.nodeAt 1#64).firstRelationship = 0#64) &&
        Prog.check Store.step (HF.createRelationship 4096 1000 1#64 0#64 doubleOne 6#64) s
          (fun id _ => decide (id = 4#64))) = true := by
    decide +kernel
  obtain ⟨ids, s, hrun, hp⟩ := Prog.check_inv _ h
  obtain ⟨-, -, hf, -, -, -, hw, rfl⟩ := exists_created hrun
  obtain ⟨hlive, hcheck⟩ := (Bool.and_eq_true _ _).mp hp
  obtain ⟨hln, hlt, hfirst⟩ := of_decide_eq_true hlive
  obtain ⟨id, s₁, hrun₁, hid⟩ := Prog.check_inv _ hcheck
  obtain rfl := of_decide_eq_true hid
  obtain ⟨hf₁, hrun₁, -, -⟩ := run_ok hw.good hrun₁
  have hnt : hf.graph.node 0#64 = some ((Store.of hf).nodeAt 0#64) := Store.node_eq_some.mpr ⟨hln, rfl⟩
  have hnf : hf.graph.node 1#64 = some ((Store.of hf).nodeAt 1#64) := Store.node_eq_some.mpr ⟨hlt, rfl⟩
  obtain ⟨hf₂, hrun₂, h⟩ := deleteRelationship_undoes hw hnf hnt hrun₁
  refine ⟨hf, hf₁, hf₂, _, hw, hnf, hfirst, hrun₁, hrun₂, (h.mpr ?_).2⟩
  rintro ⟨hnone, -⟩
  rw [hfirst] at hnone
  exact absurd hnone (by decide)

end HeapFile

end Goedb
