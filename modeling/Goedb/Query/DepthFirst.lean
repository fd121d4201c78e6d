import Goedb.Lib.Parents
import Goedb.Query.TraversalResults

/-!
# Query — when `dfs` is depth-first

`dfs` gives a node its number and its parent when it is pushed, not when it is popped.

* `HeapFile.dfs_depthFirst_iff`: the tree of parents has no cross edges exactly if there are no
  cycles among the nodes that are reached.
-/

namespace Goedb

open Lib

/-- The nodes that are reached from the source, joined by relationships to other nodes. -/
def Graph.component (g : Graph) (source : Ulong) : SimpleGraph Ulong where
  Adj v w := v ≠ w ∧ g.Reaches .both source v ∧ ∃ x, g.Leads .both v x w
  symm := ⟨fun _ _ ⟨hne, hv, x, hx⟩ => ⟨hne.symm, hv.tail ⟨x, hx⟩, x, hx.symm⟩⟩
  loopless := ⟨fun _ h => h.1 rfl⟩

/-- Every relationship between numbered nodes joins a node with one of its ancestors, and the numbers
are the depths in the tree of parents. -/
structure TraversalResult.DepthFirst (r : TraversalResult) (g : Graph) (source : Ulong) : Prop where
  joins : ∀ x v w n m, r.Numbered v n → r.Numbered w m → g.Leads .both v x w →
    (∃ k, (r.before g)^[k] v = w) ∨ ∃ k, (r.before g)^[k] w = v
  depth : ∀ v n, r.Numbered v n →
    (r.before g)^[n.toNat] v = source ∧ ∀ k < n.toNat, (r.before g)^[k] v ≠ source

namespace Store

variable {s : Store} {source : Ulong} {r : TraversalResult}
  {Take : List Ulong → Ulong → List Ulong → Prop} {f : Found Ulong Ulong}
  (hs : s.Walkable) (hsrc : s.Live .node source)
  (hS : Search (s.graph.Leads .both) Take source f none [])
  (hrep : s.Represents r.traversalNumbers r.parents f) (hT : TakesOne Take)
include hs hsrc hS hrep hT

/-- Without cross edges every relationship to another node leads to the parent or from it. -/
theorem Walkable.up_of_depthFirst (hd : r.DepthFirst s.graph source) {v w : Ulong}
    (hadj : (s.graph.component source).Adj v w) : f.up v = w ∨ f.up w = v := by
  have hF : Forest (s.graph.Leads .both) source f [] := hS.forest hT
  obtain ⟨rank, bound, hR⟩ := hS.ranked hT
  have hspans := hs.spans hsrc hS hrep hT (r := { r with source := source }) rfl
  obtain ⟨hne, hv, x, hx⟩ := hadj
  have hw := hv.tail ⟨x, hx⟩
  obtain ⟨n, hn⟩ := (hspans.reached v).mpr hv
  obtain ⟨m, hm⟩ := (hspans.reached w).mpr hw
  have hparent : ∀ {a b e}, f.parent a = some (b, e) → f.up a = b := by
    intro a b e hp
    rw [Found.up, hp]
    rfl
  rcases hd.joins x v w n m hn hm hx with ⟨k, hk⟩ | ⟨k, hk⟩
  · rw [funext (hrep.before_eq hF)] at hk
    obtain ⟨e, he⟩ := hR.parent_of_ancestor hF (hF.isSome_level_iff.mpr hv) hne.symm hk hx.symm
    exact .inl (hparent he)
  · rw [funext (hrep.before_eq hF)] at hk
    obtain ⟨e, he⟩ := hR.parent_of_ancestor hF (hF.isSome_level_iff.mpr hw) hne hk hx
    exact .inr (hparent he)

/-- **Depth-first means no cycles**: a search that gives parents to all neighbours of a node at once
leaves a cross edge on every cycle. -/
theorem Walkable.depthFirst_iff :
    r.DepthFirst s.graph source ↔ (s.graph.component source).IsAcyclic := by
  have hF : Forest (s.graph.Leads .both) source f [] := hS.forest hT
  have hspans := hs.spans hsrc hS hrep hT (r := { r with source := source }) rfl
  constructor
  · intro hd
    -- every relationship leads up the forest on one side, so the levels forbid a cycle
    refine isAcyclic_of_up f.up (fun v => (f.level v).getD 0) fun v w hadj => ?_
    have hlevel : ∀ {a b}, a ≠ b → f.up a = b → (f.level a).getD 0 = (f.level b).getD 0 + 1 := by
      intro a b hne hup
      cases hp : f.parent a with
      | none =>
          rw [Found.up, hp] at hup
          exact absurd hup hne
      | some p =>
          obtain ⟨-, k, hk, hk'⟩ := hF.edge a p.1 p.2 hp
          rw [Found.up, hp] at hup
          rw [← hup, hk', show f.level (Option.elim (some p) a Prod.fst) = some k from hk]
          rfl
    rcases hs.up_of_depthFirst hsrc hS hrep hT hd hadj with hup | hup
    · exact .inl ⟨hup, hlevel hadj.1 hup⟩
    · exact .inr ⟨hup, hlevel hadj.1.symm hup⟩
  · intro hG
    -- without a cycle two neighbours are child and parent, whatever order they were found in
    have hclimb : ∀ {v n}, r.Numbered v n → f.up^[n.toNat] v = source := by
      intro v n hn
      obtain ⟨k, hk, hnk⟩ := (hs.numbered_iff hsrc hS hrep).mp hn
      rw [hnk]
      exact hF.iterate_up hk
    have hedge : ∀ v, v ≠ source → (∃ k, f.up^[k] v = source) →
        (s.graph.component source).Adj v (f.up v) := by
      rintro v hvs ⟨k, hk⟩
      cases hp : f.parent v with
      | none =>
          have hsame : f.up v = v := by
            rw [Found.up, hp]
            rfl
          exact absurd ((Function.iterate_fixed hsame k).symm.trans hk) hvs
      | some p =>
          obtain ⟨hE, k', hk', hk''⟩ := hF.edge v p.1 p.2 hp
          have hup : f.up v = p.1 := by
            rw [Found.up, hp]
            rfl
          rw [hup]
          refine ⟨fun e => ?_, hF.isSome_level_iff.mp (Option.isSome_of_eq_some hk''), p.2, hE.symm⟩
          rw [← e, hk''] at hk'
          exact absurd (Option.some.inj hk') (Nat.succ_ne_self k')
    refine ⟨fun x v w n m hn hm hx => ?_, fun v n hn => ?_⟩
    · rw [funext (hrep.before_eq hF)]
      by_cases hne : v = w
      · exact .inl ⟨0, hne⟩
      · have hadj : (s.graph.component source).Adj v w :=
          ⟨hne, (hspans.reached v).mp ⟨n, hn⟩, x, hx⟩
        exact (up_of_isAcyclic hG hedge ⟨_, hclimb hn⟩ ⟨_, hclimb hm⟩ hadj).imp
          (fun h => ⟨1, h⟩) fun h => ⟨1, h⟩
    · rw [funext (hrep.before_eq hF)]
      obtain ⟨j, hj, hnj⟩ := (hs.numbered_iff hsrc hS hrep).mp hn
      refine ⟨hclimb hn, fun k hk hks => ?_⟩
      have hlevel := hF.level_iterate_up (Nat.le_of_lt (hnj ▸ hk)) hj
      rw [hks, hF.start] at hlevel
      have := Option.some.inj hlevel
      omega

end Store

namespace HeapFile

variable {hf : HeapFile PhyDatabase} {fuel : ℕ} {source : Ulong}

/-- `dfs` returns, and its tree of parents is depth-first exactly if there are no cycles. -/
theorem run_dfs_iff (hw : hf.WellFormed) (hc : (Store.of hf).Counted)
    (hsrc : (Store.of hf).Live .node source) (hfuel : maxPageNo 4096 * 256 ≤ fuel) :
    ∃ r hf₁, run (HF.dfs 4096 fuel source .both) hf = .ok (r, hf₁) ∧
      (r.DepthFirst hf.graph source ↔ (hf.graph.component source).IsAcyclic) := by
  have hs := hw.store.walkable hc
  obtain ⟨r, f, hrun, -, hS, hrep⟩ := hs.run_traverse hsrc Store.pops_popLast
    takesOne_last hfuel "dfs: Invalid Arguments!" .both
  obtain ⟨hf₁, hrun', -, -⟩ := run_ok hw.good hrun
  exact ⟨r, hf₁, hrun', hs.depthFirst_iff hsrc hS hrep takesOne_last⟩

/-- **`dfs` is a depth-first traversal** exactly if the relationships between the nodes that it
reaches form no cycle. -/
theorem dfs_depthFirst_iff (hw : hf.WellFormed) (hc : (Store.of hf).Counted)
    (hsrc : (Store.of hf).Live .node source) (hfuel : maxPageNo 4096 * 256 ≤ fuel) :
    (∃ r hf₁, run (HF.dfs 4096 fuel source .both) hf = .ok (r, hf₁) ∧
      r.DepthFirst hf.graph source) ↔ (hf.graph.component source).IsAcyclic := by
  obtain ⟨r, hf₁, hrun, hiff⟩ := run_dfs_iff hw hc hsrc hfuel
  constructor
  · rintro ⟨r', hf₁', hrun', hd⟩
    rw [hrun] at hrun'
    cases hrun'
    exact hiff.mp hd
  · intro hG
    exact ⟨r, hf₁, hrun, hiff.mpr hG⟩

/-- A path through three nodes, its second step there and back, and a self-loop. -/
theorem dfs_depthFirst_iff_path : ∃ db hf₀ hf ids, PhyDatabase.create 4096 = .ok db ∧
    create 4096 1000 (PhyDatabase.flat 4096) db = .ok hf₀ ∧
    run (HF.creations 4096 1000 [.node 0#64, .node 0#64, .node 0#64,
      .relationship 0#64 1#64 0#64 0#64, .relationship 1#64 2#64 0#64 0#64,
      .relationship 2#64 1#64 0#64 0#64, .relationship 1#64 1#64 0#64 0#64]) hf₀ = .ok (ids, hf) ∧
    ∃ r hf₁, run (HF.dfs 4096 (maxPageNo 4096 * 256) 0#64 .both) hf = .ok (r, hf₁) ∧
      r.DepthFirst hf.graph 0#64 := by
  have h : Prog.check Store.step (HF.creations 4096 1000 [.node 0#64, .node 0#64, .node 0#64,
      .relationship 0#64 1#64 0#64 0#64, .relationship 1#64 2#64 0#64 0#64,
      .relationship 2#64 1#64 0#64 0#64, .relationship 1#64 1#64 0#64 0#64]) Store.empty
      (fun _ s => decide (s.liveIds .node = [0#64, 1#64, 2#64] ∧
        s.liveIds .relationship = [0#64, 4#64, 8#64, 12#64] ∧
        (s.relAt 0#64).payload = (0#64, 1#64, 0#64, 0#64) ∧
        (s.relAt 4#64).payload = (1#64, 2#64, 0#64, 0#64) ∧
        (s.relAt 8#64).payload = (2#64, 1#64, 0#64, 0#64) ∧
        (s.relAt 12#64).payload = (1#64, 1#64, 0#64, 0#64))) = true := by
    decide +kernel
  obtain ⟨ids, s, hrun, hp⟩ := Prog.check_inv _ h
  obtain ⟨hlive, hids, h₀, h₄, h₈, h₁₂⟩ := of_decide_eq_true hp
  have hc := Store.counted_of_creations hrun
  obtain ⟨db, hf₀, hf, hdb, hcreate, hrun', hw, rfl⟩ := exists_created hrun
  have hsrc : (Store.of hf).Live .node 0#64 := by
    rw [← Store.mem_liveIds, hlive]
    decide
  refine ⟨db, hf₀, hf, ids, hdb, hcreate, hrun', (dfs_depthFirst_iff hw hc hsrc le_rfl).mpr ?_⟩
  refine isAcyclic_of_up (fun v => if v = 2#64 then 1#64 else 0#64) BitVec.toNat ?_
  rintro v w ⟨hne, -, x, r, hr, hg, rfl⟩
  obtain ⟨hl, rfl⟩ := Store.rel_eq_some.mp hr
  have hx := Store.mem_liveIds.mpr hl
  simp only [hids, List.mem_cons, List.not_mem_nil, or_false] at hx
  simp only [Relationship.payload, Prod.mk.injEq] at h₀ h₄ h₈ h₁₂
  rcases hx with rfl | rfl | rfl | rfl <;>
    rcases hg.at with rfl | rfl <;> simp [Relationship.otherEnd, h₀, h₄, h₈, h₁₂] at hne ⊢

/-- A triangle: `dfs` gives both other nodes the source as parent. -/
theorem dfs_not_depthFirst : ∃ db hf₀ hf ids, PhyDatabase.create 4096 = .ok db ∧
    create 4096 1000 (PhyDatabase.flat 4096) db = .ok hf₀ ∧
    run (HF.creations 4096 1000 [.node 0#64, .node 0#64, .node 0#64,
      .relationship 0#64 1#64 0#64 0#64, .relationship 0#64 2#64 0#64 0#64,
      .relationship 1#64 2#64 0#64 0#64]) hf₀ = .ok (ids, hf) ∧
    hf.WellFormed ∧ (Store.of hf).Live .node 0#64 ∧
    ¬ ∃ r hf₁, run (HF.dfs 4096 (maxPageNo 4096 * 256) 0#64 .both) hf = .ok (r, hf₁) ∧
      r.DepthFirst hf.graph 0#64 := by
  have h : Prog.check Store.step (HF.creations 4096 1000 [.node 0#64, .node 0#64, .node 0#64,
      .relationship 0#64 1#64 0#64 0#64, .relationship 0#64 2#64 0#64 0#64,
      .relationship 1#64 2#64 0#64 0#64]) Store.empty
      (fun _ s => decide (s.liveIds .node = [0#64, 1#64, 2#64] ∧
        (s.graph.rel 0#64).map (fun r => (r.sourceNode, r.targetNode)) = some (0#64, 1#64) ∧
        (s.graph.rel 4#64).map (fun r => (r.sourceNode, r.targetNode)) = some (0#64, 2#64) ∧
        (s.graph.rel 8#64).map (fun r => (r.sourceNode, r.targetNode)) = some (1#64, 2#64))) =
      true := by
    decide +kernel
  obtain ⟨ids, s, hrun, hp⟩ := Prog.check_inv _ h
  obtain ⟨hlive, h₀₁, h₀₂, h₁₂⟩ := of_decide_eq_true hp
  have hc := Store.counted_of_creations hrun
  obtain ⟨db, hf₀, hf, hdb, hcreate, hrun', hw, rfl⟩ := exists_created hrun
  have hsrc : (Store.of hf).Live .node 0#64 := by
    rw [← Store.mem_liveIds, hlive]
    decide
  refine ⟨db, hf₀, hf, ids, hdb, hcreate, hrun', hw, hsrc, ?_⟩
  obtain ⟨r, hf₁, hdfs, hiff⟩ := run_dfs_iff hw hc hsrc le_rfl
  rintro ⟨r', hf₁', hdfs', hd⟩
  rw [hdfs] at hdfs'
  cases hdfs'
  have hleads : ∀ {x v w : Ulong}, (hf.graph.rel x).map (fun r => (r.sourceNode, r.targetNode)) =
      some (v, w) → hf.graph.Leads .both v x w := by
    intro x v w hx
    obtain ⟨rel, hrel, hends⟩ := Option.map_eq_some_iff.mp hx
    cases hends
    exact ⟨rel, hrel, .inl ⟨rfl, by decide⟩, if_pos rfl⟩
  have hreach : ∀ {w}, (∃ x, hf.graph.Leads .both 0#64 x w) → hf.graph.Reaches .both 0#64 w :=
    fun hx => .single hx
  have hclique : (hf.graph.component 0#64).IsNClique 3 {0#64, 1#64, 2#64} :=
    SimpleGraph.is3Clique_triple_iff.mpr
      ⟨⟨by decide, .refl, _, hleads h₀₁⟩, ⟨by decide, .refl, _, hleads h₀₂⟩,
        ⟨by decide, hreach ⟨_, hleads h₀₁⟩, _, hleads h₁₂⟩⟩
  exact (hiff.mp hd).cliqueFree le_rfl _ hclique

end HeapFile

end Goedb
