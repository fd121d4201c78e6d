import Goedb.Query.Degree
import Goedb.Query.Dijkstra
import Mathlib.Data.List.GetD

/-!
# Query — the landmarks of `alt`

`alt_chose_avg_deg_rand_landmark` draws nodes until one has at least the average degree.  It returns for
exactly the outcomes of `rand()` among which there is such a node, and returns the first one
(`HeapFile.landmark_drawn_iff`).  There is one to be drawn if the numbers are so small that a `float`
holds them: otherwise the average can be rounded up above every degree.
-/

namespace Goedb

open Lib

/-- `degree < avg_degree`; no number is less than what is not a number. -/
def belowAverage (degree : ℚ) : Option ℚ → Bool
  | none => false
  | some avgDegree => degree < avgDegree

namespace HF

/-- The loop of `alt_chose_avg_deg_rand_landmark`; `rand` gives the outcomes of `rand()` one after the
other, and `k` of them were drawn before. -/
def choseLoop (fuel : ℕ) (rand : ℕ → ℕ) (nodes : List Node) (avgDegree : Option ℚ)
    (direction : Direction) : (turns k : ℕ) → HF (Ulong × ℕ)
  | 0, _ => abort .diverge
  | turns + 1, k => do
      let c ← Prog.perform .getCounters
      if c.nNodes = 0#64 then abort .undefined
      else
        match nodes[rand k % c.nNodes.toNat]? with
        | none => exit "List - get: Buffer overflow!"
        | some node => do
            let degree ← getDegree fuel node.id direction
            if belowAverage (roundTo 53 degree) avgDegree then
              choseLoop fuel rand nodes avgDegree direction turns (k + 1)
            else return (node.id, k + 1)

/-- `alt_chose_avg_deg_rand_landmark`, with the number of outcomes that were drawn. -/
def altChoseAvgDegRandLandmark (P fuel : ℕ) (rand : ℕ → ℕ) (direction : Direction) (k : ℕ) :
    HF (Ulong × ℕ) := do
  let nodes ← getNodes P fuel
  let avgDegree ← getAvgDegree P fuel direction
  choseLoop fuel rand nodes avgDegree direction fuel k

end HF

namespace Store

variable {s : Store} {fuel : ℕ} {direction : Direction} {rand : ℕ → ℕ}

/-! ### Draws -/

/-- What `get_avg_degree` returns. -/
noncomputable def avgDegree (s : Store) (direction : Direction) : Option ℚ :=
  HF.floatQuotient (∑ n ∈ s.nodeIds, s.graph.degree direction n) s.counters.nNodes.toNat

/-- The node has at least the average degree, as the numbers are compared. -/
def Eligible (s : Store) (direction : Direction) (n : Ulong) : Prop :=
  belowAverage (roundTo 53 (s.graph.degree direction n)) (s.avgDegree direction) = false

/-- The node that is drawn. -/
def drawn (s : Store) (rand : ℕ → ℕ) (k : ℕ) : Ulong :=
  (s.liveIds .node).getD (rand k % (s.liveIds .node).length) uninitializedLong

section Draws

variable (hs : s.Walkable) (hne : s.counters.nNodes ≠ 0#64)
include hs hne

theorem Walkable.nodes_pos : 0 < (s.liveIds .node).length := by
  rw [← hs.counted.toNat_number .node]
  exact Nat.pos_of_ne_zero fun h => hne (BitVec.eq_of_toNat_eq h)

theorem Walkable.getElem?_drawn (k : ℕ) :
    ((s.liveIds .node).map s.nodeAt)[rand k % s.counters.nNodes.toNat]? = some (s.nodeAt (s.drawn rand k)) := by
  have hlt := Nat.mod_lt (rand k) (hs.nodes_pos hne)
  rw [show s.counters.nNodes.toNat = _ from hs.counted.toNat_number .node, List.getElem?_map, drawn,
    List.getD_eq_getElem _ _ hlt, List.getElem?_eq_getElem hlt]
  rfl

theorem Walkable.drawn_live (rand : ℕ → ℕ) (k : ℕ) : s.Live .node (s.drawn rand k) := by
  have hlt := Nat.mod_lt (rand k) (hs.nodes_pos hne)
  rw [drawn, List.getD_eq_getElem _ _ hlt]
  exact mem_liveIds.mp (List.getElem_mem hlt)

variable (direction) (hfuel : maxPageNo 4096 * 256 ≤ fuel)
include hfuel

/-- **One turn** of the loop. -/
theorem Walkable.run_choseLoop_turn (turns k : ℕ) :
    run (HF.choseLoop fuel rand ((s.liveIds .node).map s.nodeAt) (s.avgDegree direction) direction
        (turns + 1) k) s =
      if belowAverage (roundTo 53 (s.graph.degree direction (s.drawn rand k))) (s.avgDegree direction)
      then run (HF.choseLoop fuel rand ((s.liveIds .node).map s.nodeAt) (s.avgDegree direction) direction
        turns (k + 1)) s
      else .ok ((s.drawn rand k, k + 1), s) := by
  have hget : run (Prog.perform .getCounters) s = .ok (s.counters, s) := rfl
  rw [run, HF.choseLoop, Prog.run_bind_ok _ hget, if_neg hne, hs.getElem?_drawn hne k]
  dsimp only
  have hdeg : run (HF.getDegree fuel (s.nodeAt (s.drawn rand k)).id direction) s = _ :=
    hs.run_getDegree (hs.drawn_live hne rand k) direction hfuel
  rw [Prog.run_bind_ok _ hdeg]
  show Prog.run step (if _ then _ else _) s = _
  split <;> rfl

/-- The loop goes on to the first node that is eligible. -/
theorem Walkable.run_choseLoop (j : ℕ) : ∀ {turns k : ℕ}, j < turns →
    (∀ i < j, ¬ s.Eligible direction (s.drawn rand (k + i))) → s.Eligible direction (s.drawn rand (k + j)) →
    run (HF.choseLoop fuel rand ((s.liveIds .node).map s.nodeAt) (s.avgDegree direction) direction turns k)
      s = .ok ((s.drawn rand (k + j), k + j + 1), s) := by
  induction j with
  | zero =>
      intro turns k hturns _ hel
      obtain ⟨turns, rfl⟩ := Nat.exists_eq_add_of_lt hturns
      rw [Nat.zero_add, hs.run_choseLoop_turn direction hne hfuel]
      rw [if_neg (by rw [Bool.not_eq_true]; exact hel)]
      rfl
  | succ j ih =>
      intro turns k hturns hnot hel
      obtain ⟨turns, rfl⟩ := Nat.exists_eq_succ_of_ne_zero (Nat.ne_zero_of_lt hturns)
      have h0 := hnot 0 (Nat.succ_pos j)
      rw [Nat.succ_eq_add_one, hs.run_choseLoop_turn direction hne hfuel,
        if_pos (by rw [← Bool.not_eq_false]; exact h0)]
      have hshift : ∀ i, k + 1 + i = k + (i + 1) := fun i => by omega
      have := ih (k := k + 1) (Nat.lt_of_succ_lt_succ hturns)
        (fun i hi => by rw [hshift]; exact hnot (i + 1) (Nat.succ_lt_succ hi)) (by rw [hshift]; exact hel)
      rw [hshift] at this
      exact this

/-- Without an eligible node the loop does not end. -/
theorem Walkable.run_choseLoop_diverges (turns : ℕ) : ∀ {k : ℕ},
    (∀ j ≥ k, ¬ s.Eligible direction (s.drawn rand j)) →
    run (HF.choseLoop fuel rand ((s.liveIds .node).map s.nodeAt) (s.avgDegree direction) direction turns k)
      s = .error .diverge := by
  induction turns with
  | zero => exact fun _ => rfl
  | succ turns ih =>
      intro k hnot
      rw [hs.run_choseLoop_turn direction hne hfuel,
        if_pos (by rw [← Bool.not_eq_false]; exact hnot k (Nat.le_refl k))]
      exact ih fun j hj => hnot j (Nat.le_of_succ_le hj)

omit hne in
theorem Walkable.run_altChose (k : ℕ) :
    run (HF.altChoseAvgDegRandLandmark 4096 fuel rand direction k) s =
      run (HF.choseLoop fuel rand ((s.liveIds .node).map s.nodeAt) (s.avgDegree direction) direction fuel k)
        s := by
  have hpages := hs.counted.valid.pages_lt .node
  rw [run, HF.altChoseAvgDegRandLandmark, Prog.run_bind_ok _ (run_getNodes hs.counted.valid (by omega)),
    Prog.run_bind_ok _ (hs.run_getAvgDegree direction hfuel)]
  rfl

/-- The first eligible node is returned. -/
theorem Walkable.run_altChose_ok {k j : ℕ} (hkj : k ≤ j)
    (hnot : ∀ i, k ≤ i → i < j → ¬ s.Eligible direction (s.drawn rand i))
    (hel : s.Eligible direction (s.drawn rand j)) (hturns : j - k < fuel) :
    run (HF.altChoseAvgDegRandLandmark 4096 fuel rand direction k) s =
      .ok ((s.drawn rand j, j + 1), s) := by
  obtain ⟨d, rfl⟩ := Nat.exists_eq_add_of_le hkj
  rw [hs.run_altChose direction hfuel]
  exact hs.run_choseLoop direction hne hfuel d (by omega)
    (fun i hi => hnot (k + i) (Nat.le_add_right k i) (Nat.add_lt_add_left hi k)) hel

end Draws

/-- While a `float` holds the sum of the degrees and the number of the nodes, the node of the greatest
degree is eligible. -/
theorem Walkable.exists_eligible (hs : s.Walkable) (hne : s.counters.nNodes ≠ 0#64)
    (direction : Direction) (htotal : ∑ n ∈ s.nodeIds, s.graph.degree direction n < 2 ^ 24)
    (hnodes : s.counters.nNodes.toNat < 2 ^ 24) :
    ∃ n, s.Live .node n ∧ s.Eligible direction n := by
  have hcard : s.counters.nNodes.toNat = s.nodeIds.card := by
    rw [nodeIds, List.toFinset_card_of_nodup (nodup_liveIds hs.counted.valid)]
    exact hs.counted.toNat_number .node
  have hpos : 0 < s.counters.nNodes.toNat := Nat.pos_of_ne_zero fun h => hne (BitVec.eq_of_toNat_eq h)
  obtain ⟨n, hn, hmax⟩ := Finset.exists_max_image s.nodeIds (s.graph.degree direction)
    (Finset.card_pos.mp (hcard ▸ hpos))
  refine ⟨n, mem_nodeIds.mp hn, ?_⟩
  set total := ∑ n ∈ s.nodeIds, s.graph.degree direction n with htotal'
  have hdeg : s.graph.degree direction n < 2 ^ 24 :=
    lt_of_le_of_lt (Finset.single_le_sum (fun _ _ => Nat.zero_le _) hn) htotal
  have havg : (total : ℚ) / s.counters.nNodes.toNat ≤ s.graph.degree direction n := by
    have hle : total ≤ s.graph.degree direction n * s.counters.nNodes.toNat := by
      rw [hcard, Nat.mul_comm]
      exact Finset.sum_le_card_nsmul _ _ _ hmax
    rw [div_le_iff₀ (by exact_mod_cast hpos)]
    exact_mod_cast hle
  have hround := roundTo_le (p := 24) (by positivity) havg hdeg
  rw [Eligible, avgDegree, HF.floatQuotient, if_neg hpos.ne', roundTo_natCast htotal,
    roundTo_natCast hnodes, roundTo_natCast (hdeg.trans (by norm_num)), belowAverage]
  exact decide_eq_false (not_lt.mpr hround)

/-- `rand()` draws an eligible node again and again. -/
def Hits (s : Store) (direction : Direction) (rand : ℕ → ℕ) : Prop :=
  ∀ k, ∃ j ≥ k, s.Eligible direction (s.drawn rand j)

/-- The nodes that are drawn one after the other are hit, if one is eligible. -/
theorem Walkable.hits_id (hs : s.Walkable) (hne : s.counters.nNodes ≠ 0#64) {n : Ulong}
    (hn : s.Live .node n) (hel : s.Eligible direction n) : s.Hits direction id := by
  intro k
  obtain ⟨i, hi, hget⟩ := List.getElem_of_mem (mem_liveIds.mpr hn)
  have hpos := hs.nodes_pos hne
  refine ⟨i + (s.liveIds .node).length * k, ?_, ?_⟩
  · exact Nat.le_add_left_of_le (Nat.le_mul_of_pos_left k hpos)
  · rw [drawn, id, Nat.add_mul_mod_self_left, Nat.mod_eq_of_lt hi, List.getD_eq_getElem _ _ hi, hget]
    exact hel

/-- Two nodes joined by a relationship. -/
structure Joined (s : Store) : Prop where
  counted : s.Counted
  nNodes : s.counters.nNodes = 2#64
  nRels : s.counters.nRels = 1#64
  nodes : s.liveIds .node = [0#64, 1#64]
  relationships : s.liveIds .relationship = [0#64]
  source : (s.relAt 0#64).sourceNode = 0#64
  target : (s.relAt 0#64).targetNode = 1#64

namespace Joined

variable (hj : s.Joined)
include hj

theorem live_zero : s.Live .node 0#64 := mem_liveIds.mp (hj.nodes ▸ List.mem_cons_self)

theorem live_one : s.Live .node 1#64 :=
  mem_liveIds.mp (hj.nodes ▸ List.mem_cons_of_mem _ List.mem_cons_self)

theorem rel : s.graph.rel 0#64 = some (s.relAt 0#64) :=
  rel_eq_some.mpr ⟨mem_liveIds.mp (hj.relationships ▸ List.mem_cons_self), rfl⟩

theorem ne_zero : s.counters.nNodes ≠ 0#64 := by
  rw [hj.nNodes]
  decide

theorem hits (hs : s.Walkable) : s.Hits .both id := by
  have hsum := hs.sum_degree_add .both
  rw [if_pos rfl, if_pos rfl, hj.nRels, show (1#64 : Ulong).toNat = 1 from rfl] at hsum
  obtain ⟨n, hn, hel⟩ := hs.exists_eligible hj.ne_zero .both (by omega) (by rw [hj.nNodes]; decide)
  exact hs.hits_id hj.ne_zero hn hel

end Joined

end Store

namespace HeapFile

variable {hf : HeapFile PhyDatabase}

theorem exists_joined : ∃ hf : HeapFile PhyDatabase, hf.WellFormed ∧ (Store.of hf).Joined := by
  have h : Prog.check Store.step (HF.creations 4096 1000
      [.node 7#64, .node 8#64, .relationship 0#64 1#64 0#64 5#64]) Store.empty
      (fun _ s => decide (s.counters.nNodes = 2#64 ∧ s.counters.nRels = 1#64 ∧
        s.liveIds .node = [0#64, 1#64] ∧ s.liveIds .relationship = [0#64] ∧
        (s.relAt 0#64).sourceNode = 0#64 ∧ (s.relAt 0#64).targetNode = 1#64)) = true := by
    decide +kernel
  obtain ⟨ids, s, hrun, hp⟩ := Prog.check_inv _ h
  obtain ⟨hnodes, hrels, hlive, hids, hsource, htarget⟩ := of_decide_eq_true hp
  have hc := Store.counted_of_creations hrun
  obtain ⟨-, -, hf, -, -, -, hw, rfl⟩ := exists_created hrun
  exact ⟨hf, hw, hc, hnodes, hrels, hlive, hids, hsource, htarget⟩

/-- **The landmark that is drawn**: the function returns for exactly the outcomes of `rand()` that draw
an eligible node some time, and returns the first.  There is an eligible node while a `float` holds the
sum of the degrees and the number of the nodes. -/
theorem landmark_drawn_iff (hw : hf.WellFormed) (hc : (Store.of hf).Counted)
    (hne : hf.counters.nNodes ≠ 0#64) (direction : Direction) (rand : ℕ → ℕ) (k : ℕ) :
    (∀ j ≥ k, (Store.of hf).Eligible direction ((Store.of hf).drawn rand j) →
      (∀ i, k ≤ i → i < j → ¬ (Store.of hf).Eligible direction ((Store.of hf).drawn rand i)) →
      (Store.of hf).Live .node ((Store.of hf).drawn rand j) ∧ ∃ N, ∀ fuel ≥ N,
        hf.Returns (HF.altChoseAvgDegRandLandmark 4096 fuel rand direction k)
          ((Store.of hf).drawn rand j, j + 1)) ∧
    ((∃ fuel x, maxPageNo 4096 * 256 ≤ fuel ∧
        hf.Returns (HF.altChoseAvgDegRandLandmark 4096 fuel rand direction k) x) ↔
      ∃ j ≥ k, (Store.of hf).Eligible direction ((Store.of hf).drawn rand j)) ∧
    (∑ n ∈ (Store.of hf).nodeIds, hf.graph.degree direction n < 2 ^ 24 →
      hf.counters.nNodes.toNat < 2 ^ 24 →
      ∃ n, (Store.of hf).Live .node n ∧ (Store.of hf).Eligible direction n) := by
  have hs := hw.store.walkable hc
  have hfirst : ∀ j ≥ k, (Store.of hf).Eligible direction ((Store.of hf).drawn rand j) →
      (∀ i, k ≤ i → i < j → ¬ (Store.of hf).Eligible direction ((Store.of hf).drawn rand i)) →
      ∀ fuel ≥ max (j + 1) (maxPageNo 4096 * 256),
        hf.Returns (HF.altChoseAvgDegRandLandmark 4096 fuel rand direction k)
          ((Store.of hf).drawn rand j, j + 1) := by
    intro j hj hel hnot fuel hfuel
    obtain ⟨hturns, hfuel⟩ := max_le_iff.mp hfuel
    exact returns_of_store hw.good (hs.run_altChose_ok direction hne hfuel hj hnot hel (by omega))
  refine ⟨fun j hj hel hnot => ⟨hs.drawn_live hne rand j, _, hfirst j hj hel hnot⟩,
    ⟨?_, fun hex => ?_⟩, hs.exists_eligible hne direction⟩
  · rintro ⟨fuel, x, hfuel, hf', hrun, -⟩
    by_contra hnot
    have hstore := (run_inv hw.good hrun).2
    rw [hs.run_altChose direction hfuel] at hstore
    rw [hs.run_choseLoop_diverges direction hne hfuel fuel fun j hj hel => hnot ⟨j, hj, hel⟩] at hstore
    cases hstore
  · classical
    obtain ⟨hj, hel⟩ := Nat.find_spec hex
    refine ⟨_, _, le_max_right _ _, hfirst _ hj hel (fun i hi hlt hel' => ?_) _ (Nat.le_refl _)⟩
    exact Nat.find_min hex hlt ⟨hi, hel'⟩

/-- The nodes are drawn in turn. -/
theorem landmark_drawn_joined : ∃ hf : HeapFile PhyDatabase, hf.WellFormed ∧ ∀ k, ∃ fuel x,
    maxPageNo 4096 * 256 ≤ fuel ∧
      hf.Returns (HF.altChoseAvgDegRandLandmark 4096 fuel id .both k) x := by
  obtain ⟨hf, hw, hj⟩ := exists_joined
  refine ⟨hf, hw, fun k => ?_⟩
  obtain ⟨-, hiff, -⟩ := landmark_drawn_iff hw hj.counted hj.ne_zero .both id k
  exact hiff.mpr (hj.hits (hw.store.walkable hj.counted) k)

end HeapFile

end Goedb
