import Goedb.Lib.Rounding
import Goedb.Query.Traversal
import Mathlib.Combinatorics.Enumerative.DoubleCounting
import Mathlib.Data.Set.Card

/-!
# Query — `degree.c`

The degree of a node is the number of relationships that `expand` returns.  `get_avg_degree` adds the
degrees up: every relationship has one source and one target, so the sum is the number of the
relationships for one direction, and for both directions a self-loop counts once and every other
relationship twice (`Store.sum_degree`).

* `HeapFile.degrees_add_up`: what the four functions return.
-/

namespace Goedb

open Lib

namespace HF

/-- `get_degree`. -/
def getDegree (fuel : ℕ) (nodeId : Ulong) (direction : Direction) : HF ℕ :=
  if nodeId = uninitializedLong then exit "get_degree: Invaliud Arguments!"
  else do
    let rels ← expand fuel nodeId direction
    return rels.length

/-- The loop of `get_avg_degree`. -/
def sumDegrees (fuel : ℕ) (direction : Direction) : (nodes : List Node) → (totalDegree : ℕ) → HF ℕ
  | [], totalDegree => pure totalDegree
  | node :: nodes, totalDegree => do
      let rels ← expand fuel node.id direction
      sumDegrees fuel direction nodes (totalDegree + rels.length)

/-- The quotient of two numbers as `float`s; of no nodes it is not a number. -/
def floatQuotient (totalDegree numNodes : ℕ) : Option ℚ :=
  if numNodes = 0 then none
  else some (roundTo 24 (roundTo 24 totalDegree / roundTo 24 numNodes))

/-- `get_avg_degree`. -/
def getAvgDegree (P fuel : ℕ) (direction : Direction) : HF (Option ℚ) := do
  let nodes ← getNodes P fuel
  let totalDegree ← sumDegrees fuel direction nodes 0
  return floatQuotient totalDegree nodes.length

/-- The loop of `get_min_degree` and `get_max_degree`. -/
def pickDegree (better : ℕ → ℕ → Bool) (fuel : ℕ) (direction : Direction) :
    (nodes : List Node) → (picked : ℕ) → HF ℕ
  | [], picked => pure picked
  | node :: nodes, picked => do
      let degree ← getDegree fuel node.id direction
      pickDegree better fuel direction nodes (if better degree picked then degree else picked)

/-- `get_min_degree`; the first minimum is `SIZE_MAX`. -/
def getMinDegree (P fuel : ℕ) (direction : Direction) : HF ℕ := do
  let nodes ← getNodes P fuel
  pickDegree (fun degree minDegree => degree < minDegree) fuel direction nodes (2 ^ 64 - 1)

/-- `get_max_degree`. -/
def getMaxDegree (P fuel : ℕ) (direction : Direction) : HF ℕ := do
  let nodes ← getNodes P fuel
  pickDegree (fun degree maxDegree => degree > maxDegree) fuel direction nodes 0

end HF

/-- The number of relationships at a node that go in the direction. -/
noncomputable def Graph.degree (g : Graph) (direction : Direction) (n : Ulong) : ℕ :=
  {x | ∃ r, g.rel x = some r ∧ r.Goes n direction}.ncard

/-- The self-loops. -/
def Graph.selfLoops (g : Graph) : Set Ulong := {x | ∃ r, g.rel x = some r ∧ r.sourceNode = r.targetNode}

namespace Store

variable {s : Store} {fuel : ℕ} {direction : Direction} {n : Ulong}

/-! ### One node -/

/-- The relationships of a node, counted. -/
theorem degree_eq_card (s : Store) (direction : Direction) (n : Ulong) :
    s.graph.degree direction n =
      ((s.liveIds .relationship).toFinset.filter (s.graph.goes n direction ·)).card := by
  rw [Graph.degree, ← Set.ncard_coe_finset]
  congr 1
  ext x
  rw [Set.mem_ofPred_eq, Finset.mem_coe, Finset.mem_filter, List.mem_toFinset, mem_liveIds]
  constructor
  · rintro ⟨r, hr, hg⟩
    exact ⟨(rel_eq_some.mp hr).1, by rw [Graph.goes_of_rel hr]; exact decide_eq_true hg⟩
  · rintro ⟨-, hg⟩
    obtain ⟨r, hr, hg⟩ := (Option.any_eq_true _ _).mp hg
    exact ⟨r, hr, of_decide_eq_true hg⟩

theorem Walkable.run_expand_length (hs : s.Walkable) (hl : s.Live .node n) (direction : Direction)
    (hfuel : maxPageNo 4096 * 256 ≤ fuel) :
    ∃ rels, run (HF.expand fuel n direction) s = .ok (rels, s) ∧
      rels.length = s.graph.degree direction n := by
  have hv := hs.counted.valid
  have hnd : s.graph.node n = some (s.nodeAt n) := node_eq_some.mpr ⟨hl, rfl⟩
  obtain ⟨l, hw⟩ := hs.circular n _ hnd
  have hlen := walk_length_le hw
  have hpages := hv.pages_lt .relationship
  refine ⟨_, Store.run_expand hv hnd hw direction (by omega), ?_⟩
  have hnodup := (hw.nodup.filter (s.graph.goes n direction))
  rw [← List.length_map Relationship.id, Graph.map_id_expand s.keyed, degree_eq_card,
    ← List.toFinset_card_of_nodup hnodup]
  congr 1
  ext x
  rw [List.mem_toFinset, List.mem_filter, hw.mem, Finset.mem_filter, List.mem_toFinset, mem_liveIds]
  refine and_congr_left fun hg => ?_
  obtain ⟨r, hr, hg⟩ := (Option.any_eq_true _ _).mp hg
  exact iff_of_true ⟨r, hr, (of_decide_eq_true hg).at⟩ (rel_eq_some.mp hr).1

theorem Walkable.run_getDegree (hs : s.Walkable) (hl : s.Live .node n) (direction : Direction)
    (hfuel : maxPageNo 4096 * 256 ≤ fuel) :
    run (HF.getDegree fuel n direction) s = .ok (s.graph.degree direction n, s) := by
  obtain ⟨rels, hrun, hlen⟩ := hs.run_expand_length hl direction hfuel
  rw [HF.getDegree, if_neg (hs.counted.valid.ne_uninitialized hl.2.1), run, Prog.run_bind_ok _ hrun,
    hlen]
  rfl

/-! ### All nodes -/

/-- How many nodes a relationship is counted at. -/
def sides (direction : Direction) (r : Relationship) : ℕ :=
  if direction = .both ∧ r.sourceNode ≠ r.targetNode then 2 else 1

/-- The nodes at which a relationship is counted. -/
theorem Walkable.card_goes (hs : s.Walkable) (direction : Direction) {x : Ulong} {r : Relationship}
    (hr : s.graph.rel x = some r) :
    (s.nodeIds.filter (s.graph.goes · direction x)).card = sides direction r := by
  obtain ⟨hsource, htarget⟩ := hs.endpoints x r hr
  have hfilter : ∀ ends : Finset Ulong, (∀ n ∈ ends, s.Live .node n) →
      (∀ n, r.Goes n direction ↔ n ∈ ends) → s.nodeIds.filter (s.graph.goes · direction x) = ends := by
    intro ends hlive hends
    ext n
    rw [Finset.mem_filter, mem_nodeIds, Graph.goes_of_rel hr, decide_eq_true_iff, hends]
    exact ⟨And.right, fun hn => ⟨hlive n hn, hn⟩⟩
  cases direction with
  | outgoing =>
      rw [hfilter {r.sourceNode} (by simpa using hsource) fun n => by
        simp [Relationship.Goes, eq_comm], Finset.card_singleton]
      rfl
  | incoming =>
      rw [hfilter {r.targetNode} (by simpa using htarget) fun n => by
        simp [Relationship.Goes, eq_comm], Finset.card_singleton]
      rfl
  | both =>
      rw [hfilter {r.sourceNode, r.targetNode} (by simpa using ⟨hsource, htarget⟩) fun n => by
        simp [Relationship.Goes, eq_comm]]
      by_cases he : r.sourceNode = r.targetNode
      · rw [sides, if_neg (by simp [he]), he, Finset.pair_eq_singleton, Finset.card_singleton]
      · rw [sides, if_pos ⟨rfl, he⟩, Finset.card_pair he]

/-- The relationships, counted at the nodes and counted one by one. -/
theorem Walkable.sum_degree (hs : s.Walkable) (direction : Direction) :
    ∑ n ∈ s.nodeIds, s.graph.degree direction n =
      ∑ x ∈ (s.liveIds .relationship).toFinset, sides direction (s.relAt x) := by
  rw [Finset.sum_congr rfl fun n _ => s.degree_eq_card direction n]
  refine (Finset.sum_card_bipartiteAbove_eq_sum_card_bipartiteBelow
    fun n x => s.graph.goes n direction x = true).trans (Finset.sum_congr rfl fun x hx => ?_)
  have hr : s.graph.rel x = some (s.relAt x) :=
    rel_eq_some.mpr ⟨mem_liveIds.mp (List.mem_toFinset.mp hx), rfl⟩
  exact hs.card_goes direction hr

/-- The sum of the degrees: a self-loop is counted once in both directions, the others twice. -/
theorem Walkable.sum_degree_add (hs : s.Walkable) (direction : Direction) :
    ∑ n ∈ s.nodeIds, s.graph.degree direction n +
        (if direction = .both then s.graph.selfLoops.ncard else 0) =
      (if direction = .both then 2 else 1) * s.counters.nRels.toNat := by
  have hcount : s.counters.nRels.toNat = (s.liveIds .relationship).toFinset.card := by
    rw [List.toFinset_card_of_nodup (nodup_liveIds hs.counted.valid)]
    exact hs.counted.toNat_number .relationship
  rw [hs.sum_degree, hcount]
  by_cases hd : direction = .both
  · have hloops : s.graph.selfLoops.ncard = ∑ x ∈ (s.liveIds .relationship).toFinset,
        if (s.relAt x).sourceNode = (s.relAt x).targetNode then 1 else 0 := by
      rw [← Finset.card_filter, ← Set.ncard_coe_finset]
      congr 1
      ext x
      rw [Graph.selfLoops, Set.mem_ofPred_eq, Finset.mem_coe, Finset.mem_filter, List.mem_toFinset,
        mem_liveIds]
      constructor
      · rintro ⟨r, hr, he⟩
        obtain ⟨hl, rfl⟩ := rel_eq_some.mp hr
        exact ⟨hl, he⟩
      · rintro ⟨hl, he⟩
        exact ⟨_, rel_eq_some.mpr ⟨hl, rfl⟩, he⟩
    rw [if_pos hd, if_pos hd, hloops, ← Finset.sum_add_distrib, Nat.mul_comm, ← smul_eq_mul,
      ← Finset.sum_const]
    refine Finset.sum_congr rfl fun x _ => ?_
    by_cases he : (s.relAt x).sourceNode = (s.relAt x).targetNode
    · rw [sides, if_neg (by simp [he]), if_pos he]
    · rw [sides, if_pos ⟨hd, he⟩, if_neg he]
  · rw [if_neg hd, if_neg hd, Nat.add_zero, Nat.one_mul, Finset.card_eq_sum_ones]
    refine Finset.sum_congr rfl fun x _ => ?_
    rw [sides, if_neg fun h => hd h.1]

section Loops

variable (hs : s.Walkable) (direction) (hfuel : maxPageNo 4096 * 256 ≤ fuel)
include hs hfuel

theorem Walkable.run_sumDegrees (nodes : List Node) : ∀ total, (∀ nd ∈ nodes, s.Live .node nd.id) →
    run (HF.sumDegrees fuel direction nodes total) s =
      .ok (total + (nodes.map fun nd => s.graph.degree direction nd.id).sum, s) := by
  induction nodes with
  | nil => exact fun _ _ => rfl
  | cons nd nodes ih =>
      intro total hlive
      obtain ⟨rels, hrun, hlen⟩ := hs.run_expand_length (hlive nd List.mem_cons_self) direction hfuel
      rw [HF.sumDegrees, run, Prog.run_bind_ok _ hrun, hlen, List.map_cons, List.sum_cons,
        ← Nat.add_assoc]
      exact ih _ fun nd' hnd' => hlive nd' (List.mem_cons_of_mem nd hnd')

/-- The loop picks the first number or a degree, and none is better. -/
theorem Walkable.run_pickDegree {r : ℕ → ℕ → Prop} (hrefl : ∀ a, r a a)
    (htrans : ∀ a b c, r a b → r b c → r a c) (better : ℕ → ℕ → Bool)
    (hbetter : ∀ a b, if better a b then r a b else r b a) (nodes : List Node) :
    ∀ picked, (∀ nd ∈ nodes, s.Live .node nd.id) →
    ∃ p, run (HF.pickDegree better fuel direction nodes picked) s = .ok (p, s) ∧
      (p = picked ∨ ∃ nd ∈ nodes, p = s.graph.degree direction nd.id) ∧ r p picked ∧
      ∀ nd ∈ nodes, r p (s.graph.degree direction nd.id) := by
  induction nodes with
  | nil => exact fun picked _ => ⟨picked, rfl, .inl rfl, hrefl picked, by simp⟩
  | cons nd nodes ih =>
      intro picked hlive
      have hdeg := hs.run_getDegree (hlive nd List.mem_cons_self) direction hfuel
      set d := s.graph.degree direction nd.id with hd
      obtain ⟨p, hrun, hmem, hle, hall⟩ := ih (if better d picked then d else picked)
        fun nd' hnd' => hlive nd' (List.mem_cons_of_mem nd hnd')
      have hnext : r (if better d picked then d else picked) d ∧
          r (if better d picked then d else picked) picked := by
        have := hbetter d picked
        split
        · rename_i h
          rw [if_pos h] at this
          exact ⟨hrefl d, this⟩
        · rename_i h
          rw [if_neg h] at this
          exact ⟨this, hrefl picked⟩
      refine ⟨p, ?_, ?_, htrans _ _ _ hle hnext.2, ?_⟩
      · rw [HF.pickDegree, run, Prog.run_bind_ok _ hdeg]
        exact hrun
      · rcases hmem with hp | ⟨nd', hnd', hp⟩
        · split at hp
          · exact .inr ⟨nd, List.mem_cons_self, hp⟩
          · exact .inl hp
        · exact .inr ⟨nd', List.mem_cons_of_mem nd hnd', hp⟩
      · intro nd' hnd'
        rcases List.mem_cons.mp hnd' with rfl | hnd'
        · exact htrans _ _ _ hle hnext.1
        · exact hall nd' hnd'

end Loops

/-! ### The functions -/

/-- The nodes of a scan. -/
theorem live_of_mem_nodes {nd : Node} (hnd : nd ∈ (s.liveIds .node).map s.nodeAt) :
    s.Live .node nd.id := by
  obtain ⟨x, hx, rfl⟩ := List.mem_map.mp hnd
  exact mem_liveIds.mp hx

section Functions

variable (hs : s.Walkable) (direction) (hfuel : maxPageNo 4096 * 256 ≤ fuel)
include hs hfuel

theorem Walkable.run_getAvgDegree : run (HF.getAvgDegree 4096 fuel direction) s =
    .ok (HF.floatQuotient (∑ n ∈ s.nodeIds, s.graph.degree direction n) s.counters.nNodes.toNat, s) := by
  have hv := hs.counted.valid
  have hpages := hv.pages_lt .node
  have hsum : (((s.liveIds .node).map s.nodeAt).map fun nd => s.graph.degree direction nd.id).sum =
      ∑ n ∈ s.nodeIds, s.graph.degree direction n := by
    rw [nodeIds, List.sum_toFinset _ (nodup_liveIds hv), List.map_map]
    rfl
  have hnum : s.counters.nNodes.toNat = (s.liveIds .node).length := hs.counted.toNat_number .node
  rw [HF.getAvgDegree, run, Prog.run_bind_ok _ (run_getNodes hv (by omega)),
    Prog.run_bind_ok _ (hs.run_sumDegrees direction hfuel _ 0 fun nd => live_of_mem_nodes), hsum,
    Nat.zero_add, List.length_map, hnum]
  rfl

theorem Walkable.run_getMinDegree : ∃ p, run (HF.getMinDegree 4096 fuel direction) s = .ok (p, s) ∧
    (p = 2 ^ 64 - 1 ∨ ∃ n, s.Live .node n ∧ p = s.graph.degree direction n) ∧ p ≤ 2 ^ 64 - 1 ∧
    ∀ n, s.Live .node n → p ≤ s.graph.degree direction n := by
  have hpages := hs.counted.valid.pages_lt .node
  obtain ⟨p, hrun, hmem, hle, hall⟩ := hs.run_pickDegree direction hfuel Nat.le_refl
    (fun _ _ _ => Nat.le_trans) (fun degree minDegree => degree < minDegree)
    (fun a b => by simp only [decide_eq_true_eq]; split <;> omega) ((s.liveIds .node).map s.nodeAt)
    (2 ^ 64 - 1) fun nd => live_of_mem_nodes
  refine ⟨p, ?_, hmem.imp_right fun ⟨nd, hnd, he⟩ => ⟨nd.id, live_of_mem_nodes hnd, he⟩, hle, fun n hn =>
    hall (s.nodeAt n) (List.mem_map_of_mem (mem_liveIds.mpr hn))⟩
  rw [HF.getMinDegree, run, Prog.run_bind_ok _ (run_getNodes hs.counted.valid (by omega))]
  exact hrun

theorem Walkable.run_getMaxDegree : ∃ p, run (HF.getMaxDegree 4096 fuel direction) s = .ok (p, s) ∧
    (p = 0 ∨ ∃ n, s.Live .node n ∧ p = s.graph.degree direction n) ∧
    ∀ n, s.Live .node n → s.graph.degree direction n ≤ p := by
  have hpages := hs.counted.valid.pages_lt .node
  obtain ⟨p, hrun, hmem, -, hall⟩ := hs.run_pickDegree direction hfuel (r := (· ≥ ·)) Nat.le_refl
    (fun _ _ _ hab hbc => Nat.le_trans hbc hab) (fun degree maxDegree => degree > maxDegree)
    (fun a b => by simp only [decide_eq_true_eq]; split <;> omega) ((s.liveIds .node).map s.nodeAt)
    0 fun nd => live_of_mem_nodes
  refine ⟨p, ?_, hmem.imp_right fun ⟨nd, hnd, he⟩ => ⟨nd.id, live_of_mem_nodes hnd, he⟩, fun n hn =>
    hall (s.nodeAt n) (List.mem_map_of_mem (mem_liveIds.mpr hn))⟩
  rw [HF.getMaxDegree, run, Prog.run_bind_ok _ (run_getNodes hs.counted.valid (by omega))]
  exact hrun

end Functions

/-- A degree is a number of relationships. -/
theorem Walkable.degree_le (hs : s.Walkable) (direction : Direction) (n : Ulong) :
    s.graph.degree direction n ≤ s.counters.nRels.toNat := by
  rw [degree_eq_card, show s.counters.nRels.toNat = _ from hs.counted.toNat_number .relationship,
    ← List.toFinset_card_of_nodup (nodup_liveIds hs.counted.valid)]
  exact Finset.card_filter_le _ _

end Store

namespace HeapFile

variable {hf : HeapFile PhyDatabase}

/-- A query returns a value and leaves the graph as it is. -/
def Returns {α : Type} (hf : HeapFile PhyDatabase) (x : HF α) (a : α) : Prop :=
  ∃ hf', run x hf = .ok (a, hf') ∧ hf'.graph = hf.graph

theorem returns_of_store {α : Type} {x : HF α} {a : α} (hg : hf.Good)
    (h : Store.run x (Store.of hf) = .ok (a, Store.of hf)) : hf.Returns x a := by
  obtain ⟨hf', hrun, -, hof⟩ := run_ok hg h
  exact ⟨hf', hrun, congrArg Store.graph hof⟩

/-- **The degrees add up.**  `get_degree` counts the relationships at a node; the sum that
`get_avg_degree` divides is the number of the relationships, or twice that number less the self-loops
for both directions; and the least and the greatest degree bound the average. -/
theorem degrees_add_up (hw : hf.WellFormed) (hc : (Store.of hf).Counted) (direction : Direction)
    {fuel : ℕ} (hfuel : maxPageNo 4096 * 256 ≤ fuel) :
    (∀ n, (Store.of hf).Live .node n →
      hf.Returns (HF.getDegree fuel n direction) (hf.graph.degree direction n)) ∧
    ∃ total min max, hf.Returns (HF.getAvgDegree 4096 fuel direction)
        (HF.floatQuotient total hf.counters.nNodes.toNat) ∧
      hf.Returns (HF.getMinDegree 4096 fuel direction) min ∧
      hf.Returns (HF.getMaxDegree 4096 fuel direction) max ∧
      total = ∑ n ∈ (Store.of hf).nodeIds, hf.graph.degree direction n ∧
      total + (if direction = .both then hf.graph.selfLoops.ncard else 0) =
        (if direction = .both then 2 else 1) * hf.counters.nRels.toNat ∧
      (hf.counters.nNodes = 0#64 → min = 2 ^ 64 - 1 ∧ max = 0) ∧
      (hf.counters.nNodes ≠ 0#64 →
        IsLeast {d | ∃ n, (Store.of hf).Live .node n ∧ hf.graph.degree direction n = d} min ∧
        IsGreatest {d | ∃ n, (Store.of hf).Live .node n ∧ hf.graph.degree direction n = d} max ∧
        min * hf.counters.nNodes.toNat ≤ total ∧ total ≤ max * hf.counters.nNodes.toNat) := by
  have hs := hw.store.walkable hc
  obtain ⟨min, hmin, hminmem, hminle, hminall⟩ := hs.run_getMinDegree direction hfuel
  obtain ⟨max, hmax, hmaxmem, hmaxall⟩ := hs.run_getMaxDegree direction hfuel
  have hcard : hf.counters.nNodes.toNat = (Store.of hf).nodeIds.card := by
    rw [Store.nodeIds, List.toFinset_card_of_nodup (Store.nodup_liveIds hc.valid)]
    exact hc.toNat_number .node
  refine ⟨fun n hn => returns_of_store hw.good (hs.run_getDegree hn direction hfuel), _, min, max,
    returns_of_store hw.good (hs.run_getAvgDegree direction hfuel), returns_of_store hw.good hmin,
    returns_of_store hw.good hmax, rfl, hs.sum_degree_add direction, fun h0 => ?_, fun h0 => ?_⟩
  · have hnone : ∀ n, ¬ (Store.of hf).Live .node n := by
      intro n hn
      rw [h0] at hcard
      exact absurd (Finset.card_eq_zero.mp hcard.symm ▸ Store.mem_nodeIds.mpr hn) (Finset.notMem_empty n)
    refine ⟨hminmem.resolve_right ?_, hmaxmem.resolve_right ?_⟩
    · rintro ⟨n, hn, -⟩
      exact hnone n hn
    · rintro ⟨n, hn, -⟩
      exact hnone n hn
  · obtain ⟨n₀, hn₀⟩ : (Store.of hf).nodeIds.Nonempty := by
      rw [← Finset.card_pos, ← hcard]
      exact Nat.pos_of_ne_zero fun h => h0 (BitVec.eq_of_toNat_eq h)
    have hn₀ := Store.mem_nodeIds.mp hn₀
    refine ⟨⟨?_, ?_⟩, ⟨?_, ?_⟩, ?_, ?_⟩
    · rcases hminmem with he | ⟨n, hn, he⟩
      · -- a degree of `SIZE_MAX` is the first minimum as well
        have hdeg := hs.degree_le direction n₀
        have hlt := hf.counters.nRels.isLt
        exact ⟨n₀, hn₀, Nat.le_antisymm (by rw [he]; exact Nat.le_trans hdeg (by omega)) (hminall n₀ hn₀)⟩
      · exact ⟨n, hn, he.symm⟩
    · rintro d ⟨n, hn, rfl⟩
      exact hminall n hn
    · rcases hmaxmem with he | ⟨n, hn, he⟩
      · exact ⟨n₀, hn₀, Nat.le_antisymm (hmaxall n₀ hn₀) (by rw [he]; exact Nat.zero_le _)⟩
      · exact ⟨n, hn, he.symm⟩
    · rintro d ⟨n, hn, rfl⟩
      exact hmaxall n hn
    · rw [hcard, Nat.mul_comm]
      exact Finset.card_nsmul_le_sum _ _ _ fun n hn => hminall n (Store.mem_nodeIds.mp hn)
    · rw [hcard, Nat.mul_comm]
      exact Finset.sum_le_card_nsmul _ _ _ fun n hn => hmaxall n (Store.mem_nodeIds.mp hn)

/-- A relationship from node 0 to node 1, and a self-loop at node 0. -/
theorem degrees_add_up_loop : ∃ (hf : HeapFile PhyDatabase) (min max : ℕ),
    hf.WellFormed ∧ hf.counters.nRels = 2#64 ∧
    hf.graph.selfLoops.ncard = 1 ∧
    hf.Returns (HF.getAvgDegree 4096 (maxPageNo 4096 * 256) .both) (HF.floatQuotient 3 2) ∧
    hf.Returns (HF.getMinDegree 4096 (maxPageNo 4096 * 256) .both) min ∧
    hf.Returns (HF.getMaxDegree 4096 (maxPageNo 4096 * 256) .both) max ∧
    min * 2 ≤ 3 ∧ 3 ≤ max * 2 := by
  have h : Prog.check Store.step (HF.creations 4096 1000
      [.node 7#64, .node 8#64, .relationship 0#64 1#64 0#64 5#64, .relationship 0#64 0#64 0#64 6#64])
      Store.empty
      (fun _ s => decide (s.counters.nNodes = 2#64 ∧ s.counters.nRels = 2#64 ∧
        s.liveIds .relationship = [0#64, 4#64] ∧
        (s.relAt 0#64).sourceNode ≠ (s.relAt 0#64).targetNode ∧
        (s.relAt 4#64).sourceNode = (s.relAt 4#64).targetNode)) = true := by
    decide +kernel
  obtain ⟨ids, s, hrun, hp⟩ := Prog.check_inv _ h
  obtain ⟨hnodes, hrels, hlive, h0, h4⟩ := of_decide_eq_true hp
  have hc := Store.counted_of_creations hrun
  obtain ⟨-, -, hf, -, -, -, hw, rfl⟩ := exists_created hrun
  have hloops : hf.graph.selfLoops = {4#64} := by
    ext x
    constructor
    · rintro ⟨r, hr, he⟩
      obtain ⟨hx, rfl⟩ := Store.rel_eq_some.mp hr
      have hmem := Store.mem_liveIds.mpr hx
      rw [hlive] at hmem
      rcases List.mem_cons.mp hmem with rfl | hmem
      · exact absurd he h0
      · exact List.mem_singleton.mp hmem
    · rintro rfl
      refine ⟨_, Store.rel_eq_some.mpr ⟨Store.mem_liveIds.mp ?_, rfl⟩, h4⟩
      rw [hlive]
      exact List.mem_cons_of_mem _ List.mem_cons_self
  have hnodes' : hf.counters.nNodes = 2#64 := hnodes
  have hrels' : hf.counters.nRels = 2#64 := hrels
  have hone : hf.graph.selfLoops.ncard = 1 := by rw [hloops, Set.ncard_singleton]
  obtain ⟨-, total, min, max, havg, hmin, hmax, -, hsum, -, hbounds⟩ :=
    degrees_add_up hw hc .both (Nat.le_refl _)
  rw [if_pos rfl, if_pos rfl, hone, hrels'] at hsum
  obtain rfl : total = 3 := by
    have : (2#64 : Ulong).toNat = 2 := rfl
    omega
  rw [hnodes'] at havg hbounds
  obtain ⟨-, -, hle, hge⟩ := hbounds (by decide)
  exact ⟨hf, min, max, hw, hrels', hone, havg, hmin, hmax, hle, hge⟩

end HeapFile

end Goedb
