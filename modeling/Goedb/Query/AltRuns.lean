import Goedb.Query.Alt
import Goedb.Query.Landmarks
import Goedb.Query.Paths

/-!
# Query — `alt` after `alt_preprocess`

`alt_preprocess` calls `dijkstra` for every landmark that is drawn, and `alt` makes its heuristic of the
distances.  A heuristic may be `DBL_MAX`: of two nodes a landmark can reach one only.  The path that is
found is not always the shortest then, but `a_star` finds one whenever there is one: a distance of
`DBL_MAX` is queued as well (`Store.Walkable.run_aStarLoop_finds`).

* `HeapFile.alt_after_preprocess`: `alt` returns a path to the target if there is one, whatever landmarks
  are drawn.
-/

namespace Goedb

open Lib

namespace HF

/-- `alt_preprocess`: the distances from each of the landmarks. -/
def altPreprocess (Q : PrioQueue (WithTop ℚ)) (val : Double → ℚ) (P fuel : ℕ) (rand : ℕ → ℕ)
    (direction : Direction) : (numLandmarks k : ℕ) → HF (List DistDict)
  | 0, _ => pure []
  | numLandmarks + 1, k => do
      let (landmark, k) ← altChoseAvgDegRandLandmark P fuel rand direction k
      let result ← dijkstra Q val P fuel landmark direction
      let landmarkDists ← altPreprocess Q val P fuel rand direction numLandmarks k
      return result.distances :: landmarkDists

end HF

namespace Alt

/-- A difference is not negative. -/
theorem gapOf_nonneg (dists : DistDict) (target v : Ulong) : 0 ≤ gapOf dists target v := by
  rw [gapOf, fabsDiff]
  split_ifs
  · exact le_refl 0
  · exact le_top
  · exact WithTop.coe_nonneg.mpr (abs_nonneg _)

end Alt

namespace Graph

variable {g : Graph} {direction : Direction} {source v : Ulong}

/-- What is reached is reached along a path that weighs something. -/
theorem exists_weighs_iff {K : Type} [AddCommMonoid K] {weight : Ulong → Ulong → K} :
    (∃ k, Weighs (g.Leads direction) weight source k v) ↔ g.Reaches direction source v := by
  constructor
  · rintro ⟨k, hk⟩
    induction hk with
    | refl => exact .refl
    | step _ he ih => exact ih.tail ⟨_, he⟩
  · intro h
    induction h with
    | refl => exact ⟨0, .refl⟩
    | tail _ he ih =>
        obtain ⟨k, hk⟩ := ih
        obtain ⟨x, hx⟩ := he
        exact ⟨_, Weighs.step hk hx⟩

end Graph

namespace PrioQueue

variable {K : Type} {Q : PrioQueue K} {fits : Q.Carrier → Prop}

/-- The queue holds all of the values that were put in. -/
def LawfulIn.All (L : Q.LawfulIn fits) (q : Q.Carrier) (vs : Multiset Ulong) : Prop :=
  ∃ es, L.Has q es ∧ es.map Prod.snd = vs

theorem LawfulIn.inserts (L : Q.LawfulIn fits) : Q.Inserts L.All False := by
  rintro q vs k v ⟨es, hes, rfl⟩
  obtain ⟨q', hinsert, hq'⟩ := L.insert q es k v hes
  exact .inr ⟨q', hinsert, _, hq', Multiset.map_cons Prod.snd (k, v) es⟩

end PrioQueue

namespace Store

variable {s : Store} {fuel : ℕ} {direction : Direction} {rand : ℕ → ℕ} {Q : PrioQueue Total}
  {val : Double → ℚ} {heuristic : DistDict} {source target h : Ulong}

/-! ### `a_star` with infinite heuristics -/

theorem Walkable.leads_live_left (hs : s.Walkable) {x v w : Ulong}
    (h : s.graph.Leads direction v x w) : s.Live .node v := by
  obtain ⟨r, hr, hg, -⟩ := h
  obtain ⟨hsource, htarget⟩ := hs.endpoints x r hr
  rcases hg.at with e | e
  · rwa [← e]
  · rwa [← e]

section AStar

/-- **The loop** of `a_star` finds a path if there is one. -/
theorem Walkable.run_aStarLoop_finds (hs : s.Walkable) (hsrc : s.Live .node source)
    (htgt : s.Live .node target) (hne : source ≠ target) (L : Q.Lawful)
    (hpos : ∀ u x v, s.graph.Leads direction u x v → 0 ≤ s.guidedWeight val heuristic u x)
    (hall : ∀ v, s.Live .node v → ∃ d, heuristic.lookup v = some d) : ∀ t queue,
    Relax (s.graph.Leads direction) (s.guidedWeight val heuristic) (fun x _ => x.2 ≠ target) source t
      none queue → ∀ p, HoldsSome L.All p t queue →
    ∃ (N : ℕ) (path : Path), (∀ turns ≥ N, ∀ fuel ≥ N,
      run (HF.aStarLoop Q val heuristic fuel source target direction turns p) s = .ok (path, s)) ∧
      path.source = source ∧ path.target = target ∧
      (s.graph.Reaches direction source target → path.Walks s.graph val direction) ∧
      (¬ s.graph.Reaches direction source target → path.distance = ⊤) := by
  have hv := hs.counted.valid
  refine Relax.turn_induction (mem_nodeIds.mpr hsrc)
    (fun u x v _ he => mem_nodeIds.mpr (hs.leads_live he)) hpos
    (hs.finite_weights (fun _ _ _ he => he) _) fun t queue ht ih p hp => ?_
  have hS := ht.shortest hpos
  obtain ⟨es, hes, hentries⟩ := hp.values
  by_cases hempty : es = 0
  · -- the target would be queued still
    have hqueue : queue = 0 := by
      rw [← Multiset.map_eq_zero, ← hentries, hempty, Multiset.map_zero]
    subst hqueue
    have hnot : ¬ s.graph.Reaches direction source target := by
      intro hr
      obtain ⟨k, hk⟩ := ht.exists_mem_queue (fun _ _ h => h)
        ((hS.ne_top_iff hpos).mpr (Graph.exists_weighs_iff.mpr hr))
      exact Multiset.notMem_zero _ hk
    refine ⟨1, ⟨source, target, ⊤, []⟩, fun turns hturns fuel _ => ?_, rfl, rfl,
      fun hr => absurd hr hnot, fun _ => rfl⟩
    obtain ⟨turns, rfl⟩ := Nat.exists_eq_add_of_le' hturns
    rw [run, HF.aStarLoop, L.numNodes _ _ hes, hempty, if_neg (by simp)]
    rfl
  have hnum : Q.numNodes p.prioQueue > 0 := by
    rw [L.numNodes _ _ hes]
    exact Multiset.card_pos.mpr hempty
  obtain ⟨x, q, es', hx, rfl, hq⟩ := L.extractMin _ _ hes hempty trivial
  rw [Multiset.map_cons] at hentries
  obtain ⟨y, hy, hyx⟩ := Multiset.mem_map.mp (hentries ▸ Multiset.mem_cons_self _ _)
  obtain ⟨rest, rfl⟩ := Multiset.exists_cons_of_mem hy
  rw [Multiset.map_cons, hyx, Multiset.cons_inj_right] at hentries
  have hdist : t.dist x.2 ≠ ⊤ := hyx ▸ (hS.queued y hy).1
  by_cases hxt : x.2 = target
  · obtain ⟨k, hk⟩ := WithTop.ne_top_iff_exists.mp hdist
    have hreach : s.graph.Reaches direction source target :=
      Graph.exists_weighs_iff.mp ⟨k, hxt ▸ hS.walk x.2 k hk.symm⟩
    obtain ⟨path, N, hsource, htarget, hwalks, hpath⟩ := run_constructPath val hv
      (hv.ne_uninitialized hsrc.2.1) (hv.ne_uninitialized htgt.2.1) hne hS.toNoted hp (hxt ▸ hdist)
    refine ⟨N + 1, path, fun turns hturns fuel hfuel => ?_, hsource, htarget, fun _ => hwalks,
      fun hnot => absurd hreach hnot⟩
    obtain ⟨turns, rfl⟩ := Nat.exists_eq_add_of_le' (Nat.one_le_of_lt hturns)
    rw [run_aStarLoop_turn hnum hx, if_pos hxt, hpath, if_pos (Nat.le_of_succ_le hfuel)]
  · have hlive := hs.live_of_noted hsrc hS.toNoted (fun _ _ _ he => he) hdist
    obtain ⟨est, hest⟩ := hall x.2 hlive
    obtain ⟨rels, hrun, hrels⟩ := hs.run_expand hlive direction
    have hp' : HoldsSome L.All { p with prioQueue := q } t rest :=
      ⟨hp.parents, hp.distance, es', hq, hentries⟩
    rcases forRels_guided val heuristic L.inserts rels hp' hdist
      (fun r hr => ((hrels r).mp hr).1) with ⟨e, -, hnone | hstops⟩ | ⟨p₁, h₁, hp₁⟩
    · rw [hest] at hnone
      cases hnone
    · exact hstops.elim
    obtain ⟨ht₁, hprec⟩ := ht.turn hpos (hyx ▸ hxt) fun y' w => (hyx ▸ mem_edgesFrom hrels y' w :
      (y', w) ∈ edgesFrom x.2 rels ↔ s.graph.Leads direction y.2 y' w)
    rw [hyx] at ht₁ hprec
    obtain ⟨N, path, hN, hpath⟩ := ih _ _ ht₁ hprec p₁ hp₁
    refine ⟨max (N + 1) (maxPageNo 4096 * 256), path, fun turns hturns fuel hfuel => ?_, hpath⟩
    obtain ⟨hturns', -⟩ := max_le_iff.mp hturns
    obtain ⟨hN', hmax⟩ := max_le_iff.mp hfuel
    obtain ⟨turns, rfl⟩ := Nat.exists_eq_add_of_le' (Nat.one_le_of_lt hturns')
    rw [run_aStarLoop_turn hnum hx, if_neg hxt, run, Prog.run_bind_ok _ (hrun fuel hmax),
      Prog.run_bind_ok _ (run_lift h₁ s)]
    exact hN turns (Nat.le_of_succ_le_succ hturns') fuel (Nat.le_of_succ_le hN')

end AStar

/-! ### `alt` -/

/-- The landmarks live, and are eligible. -/
def Landmarks (s : Store) (direction : Direction) (landmarks : List Ulong) : Prop :=
  ∀ l ∈ landmarks, s.Live .node l ∧ s.Eligible direction l

section Searches

variable {Q : PrioQueue (WithTop ℚ)} {val : Double → ℚ} (hs : s.Walkable) (hne : s.counters.nNodes ≠ 0#64)
  (hval : ∀ x r, s.graph.rel x = some r → 0 ≤ val r.weight)
include hs hval

include hne in
/-- **`alt_preprocess`** returns the distances from the landmarks. -/
theorem Walkable.run_altPreprocess (L : Q.Lawful) (hhits : s.Hits direction rand) (numLandmarks : ℕ) :
    ∀ k, ∃ N landmarks landmarkDists, landmarks.length = numLandmarks ∧
      s.Landmarks direction landmarks ∧
      List.Forall₂ (s.graph.Distances val direction) landmarks landmarkDists ∧ ∀ fuel ≥ N,
        run (HF.altPreprocess Q val 4096 fuel rand direction numLandmarks k) s =
          .ok (landmarkDists, s) := by
  induction numLandmarks with
  | zero => exact fun _ => ⟨0, [], [], rfl, by simp [Landmarks], .nil, fun _ _ => rfl⟩
  | succ numLandmarks ih =>
      intro k
      classical
      have hex := hhits k
      obtain ⟨hj, hel⟩ := Nat.find_spec hex
      set j := Nat.find hex with hjdef
      have hlive := hs.drawn_live hne rand j
      obtain ⟨M, p, t, hdijkstra, hS, hp⟩ := hs.run_dijkstra hlive hval L direction
      have hsolves := hs.solves hlive hval hS hp
      obtain ⟨N, landmarks, dists, hlen, hlandmarks, hdists, hrun⟩ := ih (j + 1)
      refine ⟨max (max M N) (max (j + 1) (maxPageNo 4096 * 256)), s.drawn rand j :: landmarks,
        p.distance :: dists, by rw [List.length_cons, hlen], List.forall_mem_cons.mpr
          ⟨⟨hlive, hel⟩, hlandmarks⟩, .cons ⟨fun v hv => ?_, hsolves.unreached⟩ hdists,
        fun fuel hfuel => ?_⟩
      · obtain ⟨d, hd, hleast, -⟩ := hsolves.reached v hv
        exact ⟨d, hd, hleast⟩
      · simp only [ge_iff_le, max_le_iff] at hfuel
        obtain ⟨⟨hM, hN⟩, hturns, hpages⟩ := hfuel
        have hchose := hs.run_altChose_ok direction hne hpages hj
          (fun i hi hlt hel' => Nat.find_min hex hlt ⟨hi, hel'⟩) hel (by omega)
        rw [run, HF.altPreprocess, Prog.run_bind_ok _ hchose, Prog.run_bind_ok _ (hdijkstra fuel hM),
          Prog.run_bind_ok _ (hrun fuel hN)]
        rfl

end Searches

/-- The heuristic is made without a change of the store. -/
theorem same_altHeuristic (hv : s.Valid) (hfuel : maxPageNo 4096 * 256 ≤ fuel)
    {landmarkDists : List DistDict} {numLandmarks : ℕ} {s' : Store}
    (h : run (HF.altHeuristic 4096 fuel landmarkDists numLandmarks target) s = .ok (heuristic, s')) :
    s' = s := by
  have hpages := hv.pages_lt .node
  rw [run, HF.altHeuristic, Prog.run_bind_ok _ (run_getNodes hv (by omega))] at h
  exact (run_lift_inv h).2

end Store

namespace HeapFile

variable {hf : HeapFile PhyDatabase} {source target : Ulong}

/-- **`alt` after `alt_preprocess`** returns a path to the target if there is one, and `DBL_MAX` otherwise,
for all outcomes of `rand()` that draw an eligible landmark again and again. -/
theorem alt_after_preprocess (hw : hf.WellFormed) (hc : (Store.of hf).Counted)
    (hsrc : (Store.of hf).Live .node source) (htgt : (Store.of hf).Live .node target)
    (hst : source ≠ target) (val : Double → ℚ)
    (hval : ∀ x r, hf.graph.rel x = some r → 0 ≤ val r.weight) (direction : Direction)
    {Q : PrioQueue (WithTop ℚ)} {Q' : PrioQueue Total} (L : Q.Lawful) (L' : Q'.Lawful)
    {rand : ℕ → ℕ} (hhits : (Store.of hf).Hits direction rand)
    {numLandmarks : ℕ} (hnum : numLandmarks ≠ 0) (k : ℕ) :
    ∃ N landmarks landmarkDists, ∃ path : Path, landmarks.length = numLandmarks ∧
      (Store.of hf).Landmarks direction landmarks ∧
      List.Forall₂ (hf.graph.Distances val direction) landmarks landmarkDists ∧
      path.source = source ∧ path.target = target ∧
      (hf.graph.Reaches direction source target → path.Walks hf.graph val direction) ∧
      (¬ hf.graph.Reaches direction source target → path.distance = ⊤) ∧ ∀ fuel ≥ N,
        hf.Returns (HF.altPreprocess Q val 4096 fuel rand direction numLandmarks k) landmarkDists ∧
        hf.Returns (do
          let landmarkDists ← HF.altPreprocess Q val 4096 fuel rand direction numLandmarks k
          HF.alt Q' val 4096 fuel landmarkDists numLandmarks source target direction) path := by
  have hs := hw.store.walkable hc
  have hv := hc.valid
  have hne : hf.counters.nNodes ≠ 0#64 := by
    intro h
    have hlen : hf.counters.nNodes.toNat = _ := hc.toNat_number .node
    rw [h] at hlen
    exact absurd (List.eq_nil_of_length_eq_zero hlen.symm ▸ Store.mem_liveIds.mpr hsrc) List.not_mem_nil
  obtain ⟨N₁, landmarks, dists, rfl, hlandmarks, hdists, hpre⟩ :=
    hs.run_altPreprocess hne hval L hhits numLandmarks k
  have hnil : landmarks ≠ [] := fun h => hnum (List.length_eq_zero_iff.mpr h)
  obtain ⟨heuristic, N₂, hheur, hleast⟩ := run_altHeuristic hw hc htgt hnil hdists
  have hpos : ∀ u x v, hf.graph.Leads direction u x v →
      0 ≤ (Store.of hf).guidedWeight val heuristic u x := by
    intro u x v he
    obtain ⟨d, hd, ⟨dist, -, rfl⟩, -⟩ := hleast u (hs.leads_live_left he)
    rw [Store.guidedWeight, hd]
    have hweight := WithTop.coe_nonneg.mpr (hf.graph.weight_nonneg hval direction u x v he)
    exact add_nonneg (Total.of_le_of.mpr hweight) (Total.of_le_of.mpr (Alt.gapOf_nonneg dist target u))
  obtain ⟨q, hinsert, hq⟩ := L'.insert _ _ (.of ⊤) source L'.create
  have hstart : PathSearch.start Q' ∅ (.of ⊤) 0 source =
      .ok ⟨∅, (∅ : NumDict Total).insert source 0, q⟩ := by
    rw [PathSearch.start, hinsert]
    rfl
  obtain ⟨N₃, path, hstar, hsource, htarget, hfound, hnot⟩ := hs.run_aStarLoop_finds hsrc htgt hst L'
    hpos (fun v hl => (hleast v hl).imp fun _ h => h.1) _ _ .start _ (.start ⟨_, hq, rfl⟩)
  refine ⟨max N₁ (max N₂ (max N₃ (maxPageNo 4096 * 256))), landmarks, dists, path, rfl, hlandmarks,
    hdists, hsource, htarget, hfound, hnot, fun fuel hfuel => ?_⟩
  simp only [ge_iff_le, max_le_iff] at hfuel
  obtain ⟨h₁, h₂, h₃, hpages⟩ := hfuel
  have hprefuel := hpre fuel h₁
  refine ⟨returns_of_store hw.good hprefuel, returns_of_store hw.good ?_⟩
  obtain ⟨hf₁, hheur₁⟩ := hheur fuel h₂
  have hheurfuel := (run_inv hw.good hheur₁).2
  rw [Store.same_altHeuristic hv hpages hheurfuel] at hheurfuel
  rw [Store.run, Prog.run_bind_ok _ hprefuel, HF.alt, Prog.run_bind_ok _ hheurfuel, HF.aStar,
    if_neg (not_or.mpr ⟨hv.ne_uninitialized hsrc.2.1, hv.ne_uninitialized htgt.2.1⟩),
    Prog.run_bind_ok _ (Store.run_lift hstart _)]
  exact hstar fuel h₃ fuel h₃

theorem alt_after_preprocess_joined : ∃ hf : HeapFile PhyDatabase, hf.WellFormed ∧
    ∃ (N : ℕ) (landmarkDists : List DistDict) (path : Path), path.source = 0#64 ∧ path.target = 1#64 ∧
      path.Walks hf.graph (fun _ => 1) .both ∧ ∀ fuel ≥ N,
        hf.Returns (HF.altPreprocess .sorted (fun _ => 1) 4096 fuel id .both 2 0) landmarkDists ∧
        hf.Returns (do
          let landmarkDists ← HF.altPreprocess .sorted (fun _ => 1) 4096 fuel id .both 2 0
          HF.alt .sorted (fun _ => 1) 4096 fuel landmarkDists 2 0#64 1#64 .both) path := by
  obtain ⟨hf, hw, hj⟩ := exists_joined
  obtain ⟨N, _, dists, path, -, -, -, hsource, htarget, hfound, -, hrun⟩ := alt_after_preprocess hw
    hj.counted hj.live_zero hj.live_one (by decide) (fun _ => 1) (fun _ _ _ => zero_le_one) .both
    PrioQueue.sortedLawful PrioQueue.sortedLawful (hj.hits (hw.store.walkable hj.counted)) two_ne_zero 0
  refine ⟨hf, hw, N, dists, path, hsource, htarget, hfound ?_, hrun⟩
  refine .tail .refl ⟨0#64, _, hj.rel, .inl ⟨hj.source, by decide⟩, ?_⟩
  rw [Relationship.otherEnd, hj.source, if_pos rfl, hj.target]

end HeapFile

end Goedb
