import Goedb.DataStruct.FibContract
import Goedb.DataStruct.FibQueue
import Goedb.Query.AStar

/-!
# Query — `a_star` and its heap

The queue of `a_star` is a Fibonacci heap, and as long as the heap fits whenever its least node is
extracted, the path is a shortest one if every path with the least sum of weights and heuristics is, and
some path with the least sum must be (`HeapFile.aStar_optimal`).

On one graph a heuristic that is consistent leads `a_star` astray (`HeapFile.aStar_not_optimal`) and another
one does not (`HeapFile.aStar_optimal_detour`).
-/

namespace Goedb

open Lib

/-! ### A check of the heap along the turns -/

namespace PathSearch

variable {Q : PrioQueue Total} (check : Q.Carrier → Bool) (rels : Ulong → List Relationship)
  (val : Double → ℚ) (heuristic : DistDict) (target : Ulong)

/-- The queue is checked in each turn of the loop of `a_star`, and there are less than so many turns. -/
def checkTurns : (turns : ℕ) → PathSearch Q → Bool
  | 0, _ => false
  | turns + 1, t =>
      if Q.numNodes t.prioQueue > 0 then
        check t.prioQueue &&
          match Q.extractMin t.prioQueue with
          | .error _ => true
          | .ok (fhNode, prioQueue) =>
              if fhNode.2 = target then true
              else
                match forRels (relaxGuided val heuristic fhNode.2) (rels fhNode.2)
                    { t with prioQueue := prioQueue } with
                | .error _ => true
                | .ok t' => checkTurns turns t'
      else true

variable {check rels val heuristic target} {fits : Q.Carrier → Prop}
  {expands : Ulong → List Relationship → Prop}

/-- The queue fits where it was checked. -/
theorem fitsFrom_of_checkTurns (hcheck : ∀ q, check q = true → fits q)
    (hrels : ∀ n l, expands n l → l = rels n) : ∀ turns (t : PathSearch Q),
    checkTurns check rels val heuristic target turns t = true →
    t.FitsFrom expands val heuristic target fits := by
  intro turns
  induction turns with
  | zero => exact fun t h => by cases h
  | succ turns ih =>
      intro t h t' ht' hnum
      rcases ht'.cases_head with rfl | ⟨t₁, hturn, hrest⟩
      · rw [checkTurns, if_pos hnum, Bool.and_eq_true] at h
        exact hcheck _ h.1
      · cases hturn with
        | go hnum₀ hx hne hl ht =>
            obtain rfl := hrels _ _ hl
            rw [checkTurns, if_pos hnum₀, Bool.and_eq_true] at h
            have hnext := h.2
            simp only [hx, if_neg hne, ht] at hnext
            exact ih t₁ hnext t' hrest hnum

/-- The queue of `a_star` is checked from the start on. -/
def checkAStar (check : Q.Carrier → Bool) (rels : Ulong → List Relationship) (val : Double → ℚ)
    (heuristic : DistDict) (source target : Ulong) (turns : ℕ) : Bool :=
  match start Q ∅ (.of ⊤) 0 source with
  | .error _ => true
  | .ok t => checkTurns check rels val heuristic target turns t

theorem fitting_of_checkAStar {source : Ulong} {turns : ℕ} (hcheck : ∀ q, check q = true → fits q)
    (hrels : ∀ n l, expands n l → l = rels n)
    (h : checkAStar check rels val heuristic source target turns = true) :
    Fitting expands val heuristic source target fits := by
  rintro t ⟨t₀, hstart, ht⟩
  rw [checkAStar, hstart] at h
  exact fitsFrom_of_checkTurns hcheck hrels turns t₀ h t ht

end PathSearch

namespace Store

variable {s : Store} {direction : Direction}

/-- The relationships that `expand` returns, if it returns. -/
def expanded (s : Store) (fuel : ℕ) (direction : Direction) (n : Ulong) : List Relationship :=
  match run (HF.expand fuel n direction) s with
  | .ok (rels, _) => rels
  | .error _ => []

theorem Expands.eq_expanded (hs : s.Walkable) {n : Ulong} {l : List Relationship} {fuel : ℕ}
    (h : s.Expands direction n l) (hfuel : maxPageNo 4096 * 256 ≤ fuel) :
    l = s.expanded fuel direction n := by
  obtain ⟨N, hrun⟩ := h
  obtain ⟨s₁, hrun⟩ := hrun (max N fuel) (le_max_left N fuel)
  rw [expanded, (hs.run_expand_inv (hfuel.trans (le_max_right N fuel)) hrun).2.1 fuel hfuel]

end Store

namespace HeapFile

section Optimal

variable {hf : HeapFile PhyDatabase} {source target : Ulong} {est : Ulong → ℚ}
  {heuristic : DistDict} {val : Double → ℚ} {direction : Direction}
  (hw : hf.WellFormed) (hc : (Store.of hf).Counted)
  (hsrc : (Store.of hf).Live .node source) (htgt : (Store.of hf).Live .node target)
  (hest : ∀ v, (Store.of hf).Live .node v → heuristic.lookup v = some (est v : WithTop ℚ))
include hw hc hsrc htgt hest

/-- **`a_star` returns a shortest path** if every path that is the least with heuristics is one; the
source must not be the target, and some path that is the least with heuristics must be a shortest one.
The heap fits whenever `a_star` extracts its least node. -/
theorem aStar_optimal (maxDegree : ℕ → ℕ)
    (hfits : PathSearch.Fitting (Q := .fibHeap maxDegree) (hf.Expands direction) val heuristic source
      target (FibQueue.Fits maxDegree)) :
    (hf.graph.Steers val est direction source target →
      ∃ p N, (∀ fuel ≥ N, ∃ hf₁, run (HF.aStar (.fibHeap maxDegree) val fuel heuristic source target
          direction) hf = .ok (p, hf₁)) ∧
        p.Optimal hf.graph val direction source target) ∧
    ((∃ p N, (∀ fuel ≥ N, ∃ hf₁, run (HF.aStar (.fibHeap maxDegree) val fuel heuristic source target
          direction) hf = .ok (p, hf₁)) ∧
        p.Optimal hf.graph val direction source target) →
      source ≠ target ∧
      ((∀ u x v, hf.graph.ReachedLeads direction source u x v → 0 ≤ hf.graph.weight val x + est u) →
        hf.graph.Reaches direction source target →
        ∃ m k, hf.graph.Guided val est direction source m k target ∧
          (∀ m' k', hf.graph.Guided val est direction source m' k' target → m ≤ m') ∧
          IsLeast {k | hf.graph.Path val direction source k target} k)) :=
  have hL := PrioQueue.least_fibHeap (K := Total) maxDegree
  ⟨optimal_of_steers hw hc hsrc htgt hest hL hfits, guided_of_optimal hw hc hsrc htgt hest hL hfits⟩

end Optimal

/-! ### A detour -/

/-- The weights 2 and 5. -/
def detourWeight (w : Double) : ℚ :=
  if w = 0x4000000000000000#64 then 2 else if w = 0x4014000000000000#64 then 5 else 0

theorem detourWeight_nonneg (w : Double) : 0 ≤ detourWeight w := by
  rw [detourWeight]
  split
  · norm_num
  · split <;> norm_num

/-- The heuristic of three nodes, of which the last one is the target. -/
def detourEstimate (a b : ℚ) (v : Ulong) : ℚ := if v = 0#64 then a else if v = 1#64 then b else 0

/-- The same heuristic as a dictionary. -/
def detourHeuristic (a b : ℚ) : DistDict :=
  (((∅ : DistDict).insert 0#64 a).insert 1#64 b).insert 2#64 0

/-- A detour of weight 2 + 2 past a relationship of weight 5. -/
structure Detour (g : Graph) : Prop where
  leads : ∀ u x v, g.Leads .outgoing u x v →
    u = 0#64 ∧ v = 1#64 ∧ g.weight detourWeight x = 2 ∨
    u = 1#64 ∧ v = 2#64 ∧ g.weight detourWeight x = 2 ∨
    u = 0#64 ∧ v = 2#64 ∧ g.weight detourWeight x = 5
  first : g.Leads .outgoing 0#64 0#64 1#64 ∧ g.weight detourWeight 0#64 = 2
  second : g.Leads .outgoing 1#64 4#64 2#64 ∧ g.weight detourWeight 4#64 = 2
  direct : g.Leads .outgoing 0#64 8#64 2#64 ∧ g.weight detourWeight 8#64 = 5

namespace Detour

variable {g : Graph}

/-- The weight of a relationship and the ends that it leads from and to. -/
theorem leads_inv {u x v : Ulong} {s : Store} (h : s.graph.Leads .outgoing u x v) :
    x ∈ s.liveIds .relationship ∧ (s.relAt x).sourceNode = u ∧ (s.relAt x).targetNode = v ∧
      s.graph.weight detourWeight x = detourWeight (s.relAt x).weight := by
  obtain ⟨r, hr, hg, rfl⟩ := h
  have hsource : r.sourceNode = u := (hg.resolve_right fun h => h.2 rfl).1
  obtain ⟨hl, rfl⟩ := Store.rel_eq_some.mp hr
  refine ⟨Store.mem_liveIds.mpr hl, hsource, ?_, ?_⟩
  · rw [Relationship.otherEnd, if_pos hsource.symm]
  · rw [Graph.weight, hr]
    rfl

theorem leads_of {s : Store} {x : Ulong} (hx : x ∈ s.liveIds .relationship) :
    s.graph.Leads .outgoing (s.relAt x).sourceNode x (s.relAt x).targetNode ∧
      s.graph.weight detourWeight x = detourWeight (s.relAt x).weight := by
  have hr : s.graph.rel x = some (s.relAt x) := Store.rel_eq_some.mpr ⟨Store.mem_liveIds.mp hx, rfl⟩
  refine ⟨⟨_, hr, .inl ⟨rfl, by decide⟩, ?_⟩, ?_⟩
  · rw [Relationship.otherEnd, if_pos rfl]
  · rw [Graph.weight, hr]
    rfl

/-- The relationships that are read off a store. -/
theorem of_store {s : Store} (hids : s.liveIds .relationship = [0#64, 4#64, 8#64])
    (h₀ : (s.relAt 0#64).payload = (0#64, 1#64, 0x4000000000000000#64, 0#64))
    (h₄ : (s.relAt 4#64).payload = (1#64, 2#64, 0x4000000000000000#64, 0#64))
    (h₈ : (s.relAt 8#64).payload = (0#64, 2#64, 0x4014000000000000#64, 0#64)) :
    Detour s.graph := by
  simp only [Relationship.payload, Prod.mk.injEq] at h₀ h₄ h₈
  have he₀ := leads_of (s := s) (x := 0#64) (by rw [hids]; decide)
  have he₄ := leads_of (s := s) (x := 4#64) (by rw [hids]; decide)
  have he₈ := leads_of (s := s) (x := 8#64) (by rw [hids]; decide)
  rw [h₀.1, h₀.2.1, h₀.2.2.1] at he₀
  rw [h₄.1, h₄.2.1, h₄.2.2.1] at he₄
  rw [h₈.1, h₈.2.1, h₈.2.2.1] at he₈
  have htwo : detourWeight 0x4000000000000000#64 = 2 := by decide +kernel
  have hfive : detourWeight 0x4014000000000000#64 = 5 := by decide +kernel
  rw [htwo] at he₀ he₄
  rw [hfive] at he₈
  refine ⟨fun u x v he => ?_, he₀, he₄, he₈⟩
  obtain ⟨hx, rfl, rfl, hw⟩ := leads_inv he
  rw [hids] at hx
  simp only [List.mem_cons, List.not_mem_nil, or_false] at hx
  rcases hx with rfl | rfl | rfl
  · exact .inl ⟨h₀.1, h₀.2.1, he₀.2⟩
  · exact .inr (.inl ⟨h₄.1, h₄.2.1, he₄.2⟩)
  · exact .inr (.inr ⟨h₈.1, h₈.2.1, he₈.2⟩)

theorem estimate_zero (a b : ℚ) : detourEstimate a b 0#64 = a := if_pos rfl

theorem estimate_one (a b : ℚ) : detourEstimate a b 1#64 = b := by
  rw [detourEstimate, if_neg (by decide), if_pos rfl]

theorem estimate_two (a b : ℚ) : detourEstimate a b 2#64 = 0 := by
  rw [detourEstimate, if_neg (by decide), if_neg (by decide)]

variable (h : Detour g) {a b : ℚ}
include h

theorem consistent (ha : a ≤ 2 + b) (hb : b ≤ 2) (hab : a ≤ 5) :
    g.Consistent detourWeight (detourEstimate a b) .outgoing 2#64 := by
  refine ⟨estimate_two a b, fun u x v he => ?_⟩
  rcases h.leads u x v he with ⟨rfl, rfl, hx⟩ | ⟨rfl, rfl, hx⟩ | ⟨rfl, rfl, hx⟩
  · rwa [hx, estimate_zero, estimate_one]
  · rwa [hx, estimate_one, estimate_two, add_zero]
  · rwa [hx, estimate_zero, estimate_two, add_zero]

/-- The weights of the paths with the heuristics and without. -/
theorem weighs {p : ℚ × ℚ} {v : Ulong} (hp : Weighs (g.Leads .outgoing) (fun u x =>
      (g.weight detourWeight x + detourEstimate a b u, g.weight detourWeight x)) 0#64 p v) :
    v = 0#64 ∧ p = (0, 0) ∨ v = 1#64 ∧ p = (2 + a, 2) ∨
      v = 2#64 ∧ (p = (5 + a, 5) ∨ p = (2 + a + (2 + b), 4)) := by
  induction hp with
  | refl => exact .inl ⟨rfl, rfl⟩
  | @step p u v x _ he ih =>
      rcases h.leads u x v he with ⟨rfl, rfl, hx⟩ | ⟨rfl, rfl, hx⟩ | ⟨rfl, rfl, hx⟩
      · obtain ⟨-, rfl⟩ | ⟨h, -⟩ | ⟨h, -⟩ := ih
        · rw [hx, estimate_zero]
          exact .inr (.inl ⟨rfl, by rw [Prod.mk_add_mk, zero_add, zero_add]⟩)
        · cases h
        · cases h
      · obtain ⟨h, -⟩ | ⟨-, rfl⟩ | ⟨h, -⟩ := ih
        · cases h
        · rw [hx, estimate_one]
          exact .inr (.inr ⟨rfl, .inr (by rw [Prod.mk_add_mk]; norm_num)⟩)
        · cases h
      · obtain ⟨-, rfl⟩ | ⟨h, -⟩ | ⟨h, -⟩ := ih
        · rw [hx, estimate_zero]
          exact .inr (.inr ⟨rfl, .inl (by rw [Prod.mk_add_mk, zero_add, zero_add])⟩)
        · cases h
        · cases h

theorem weight_nonneg_guided (ha : 0 ≤ a) (hb : 0 ≤ b) {u x v : Ulong}
    (he : g.Leads .outgoing u x v) : 0 ≤ g.weight detourWeight x + detourEstimate a b u := by
  rcases h.leads u x v he with ⟨rfl, -, hx⟩ | ⟨rfl, -, hx⟩ | ⟨rfl, -, hx⟩
  · rw [hx, estimate_zero]
    positivity
  · rw [hx, estimate_one]
    positivity
  · rw [hx, estimate_zero]
    positivity

/-- The path that is the least with the heuristics `a` and `b` is the detour, if `b` is less than 1. -/
theorem steers (ha : 0 ≤ a) (hb : 0 ≤ b) (hlt : b < 1) :
    g.Steers detourWeight (detourEstimate a b) .outgoing 0#64 2#64 := by
  refine ⟨by decide, fun u x v he => h.weight_nonneg_guided ha hb he.2, fun m k hg hm k' hk' => ?_⟩
  have hdetour := hm _ _ (.step (.step .refl h.first.1) h.second.1)
  rw [h.first.2, h.second.2, estimate_zero, estimate_one] at hdetour
  have hfour : 4 ≤ k' := by
    obtain ⟨m', hm'⟩ := hk'.exists_guided (detourEstimate a b)
    rcases h.weighs hm' with ⟨hv, -⟩ | ⟨hv, -⟩ | ⟨-, hp | hp⟩
    · cases hv
    · cases hv
    · rw [(Prod.mk.inj hp).2]
      norm_num
    · rw [(Prod.mk.inj hp).2]
  rcases h.weighs hg with ⟨hv, -⟩ | ⟨hv, -⟩ | ⟨-, hp | hp⟩
  · cases hv
  · cases hv
  · rw [(Prod.mk.inj hp).1] at hdetour
    simp only [Prod.fst_add, Prod.fst_zero] at hdetour
    linarith
  · rw [(Prod.mk.inj hp).2]
    exact hfour

end Detour

/-- Three nodes, a relationship of weight 5 and the detour. -/
def detour : List Creation :=
  [.node 0#64, .node 0#64, .node 0#64, .relationship 0#64 1#64 0x4000000000000000#64 0#64,
    .relationship 1#64 2#64 0x4000000000000000#64 0#64,
    .relationship 0#64 2#64 0x4014000000000000#64 0#64]

/-- Whether the heap fits in each turn of `a_star`. -/
def detourFits (maxDegree : ℕ → ℕ) (s : Store) (a b : ℚ) : Bool :=
  PathSearch.checkAStar (Q := .fibHeap maxDegree)
    (fun q : FibQueue Total => decide (FibQueue.Fits maxDegree q))
    (s.expanded (maxPageNo 4096 * 256) .outgoing) detourWeight (detourHeuristic a b) 0#64 2#64 5

/-- What the calls leave behind, and the heap fits with two heuristics. -/
theorem detour_checked : Prog.check Store.step (HF.creations 4096 1000 detour) Store.empty
    (fun _ s => decide (s.liveIds .node = [0#64, 1#64, 2#64] ∧
      s.liveIds .relationship = [0#64, 4#64, 8#64] ∧
      (s.relAt 0#64).payload = (0#64, 1#64, 0x4000000000000000#64, 0#64) ∧
      (s.relAt 4#64).payload = (1#64, 2#64, 0x4000000000000000#64, 0#64) ∧
      (s.relAt 8#64).payload = (0#64, 2#64, 0x4014000000000000#64, 0#64) ∧
      detourFits maxDegree s 4 2 = true ∧ detourFits maxDegree s 2 0 = true)) = true := by
  rw [maxDegree_table]
  decide +kernel

/-- The files that the calls leave behind. -/
structure DetourFile (hf : HeapFile PhyDatabase) : Prop where
  wellFormed : hf.WellFormed
  counted : (Store.of hf).Counted
  live_iff : ∀ v, (Store.of hf).Live .node v ↔ v = 0#64 ∨ v = 1#64 ∨ v = 2#64
  detour : Detour hf.graph
  fits : ∀ p ∈ [((4 : ℚ), (2 : ℚ)), (2, 0)], PathSearch.Fitting (Q := .fibHeap maxDegree)
    (hf.Expands .outgoing) detourWeight (detourHeuristic p.1 p.2) 0#64 2#64 (FibQueue.Fits maxDegree)

theorem exists_detour : ∃ db hf₀ hf ids, PhyDatabase.create 4096 = .ok db ∧
    create 4096 1000 (PhyDatabase.flat 4096) db = .ok hf₀ ∧
    run (HF.creations 4096 1000 detour) hf₀ = .ok (ids, hf) ∧ DetourFile hf := by
  obtain ⟨ids, s, hrun, hp⟩ := Prog.check_inv _ detour_checked
  obtain ⟨hlive, hids, h₀, h₄, h₈, hfits, hfits'⟩ := of_decide_eq_true hp
  have hc := Store.counted_of_creations hrun
  obtain ⟨db, hf₀, hf, hdb, hcreate, hrun', hw, rfl⟩ := exists_created hrun
  have hfit : ∀ a b, detourFits maxDegree (Store.of hf) a b = true →
      PathSearch.Fitting (Q := .fibHeap maxDegree) (hf.Expands .outgoing) detourWeight
        (detourHeuristic a b) 0#64 2#64 (FibQueue.Fits maxDegree) := by
    intro a b h
    refine PathSearch.fitting_of_checkAStar (Q := .fibHeap maxDegree)
      (fun (q : FibQueue Total) (hq : decide (FibQueue.Fits maxDegree q) = true) =>
        of_decide_eq_true hq) (fun n l hl => ?_) h
    exact ((expands_iff hw).mp hl).eq_expanded (hw.store.walkable hc) (le_refl _)
  refine ⟨db, hf₀, hf, ids, hdb, hcreate, hrun', hw, hc, fun v => ?_, .of_store hids h₀ h₄ h₈, ?_⟩
  · rw [← Store.mem_liveIds, hlive]
    simp
  · intro p hp
    rcases List.mem_cons.mp hp with rfl | hp
    · exact hfit 4 2 hfits
    · rw [List.mem_singleton.mp hp]
      exact hfit 2 0 hfits'

theorem DetourFile.lookup {hf : HeapFile PhyDatabase} (h : DetourFile hf) (a b : ℚ) {v : Ulong}
    (hv : (Store.of hf).Live .node v) :
    (detourHeuristic a b).lookup v = some (detourEstimate a b v : WithTop ℚ) := by
  rcases (h.live_iff v).mp hv with rfl | rfl | rfl <;> rfl

/-- The detour is taken with the heuristics 2 and 0. -/
theorem aStar_optimal_detour : ∃ db hf₀ hf ids, PhyDatabase.create 4096 = .ok db ∧
    create 4096 1000 (PhyDatabase.flat 4096) db = .ok hf₀ ∧
    run (HF.creations 4096 1000 detour) hf₀ = .ok (ids, hf) ∧
    ∃ p N, (∀ fuel ≥ N, ∃ hf₁, run (HF.aStar (.fibHeap maxDegree) detourWeight fuel
        (detourHeuristic 2 0) 0#64 2#64 .outgoing) hf = .ok (p, hf₁)) ∧
      p.Optimal hf.graph detourWeight .outgoing 0#64 2#64 := by
  obtain ⟨db, hf₀, hf, ids, hdb, hcreate, hrun, h⟩ := exists_detour
  have hsrc := (h.live_iff 0#64).mpr (.inl rfl)
  have htgt := (h.live_iff 2#64).mpr (.inr (.inr rfl))
  exact ⟨db, hf₀, hf, ids, hdb, hcreate, hrun, (aStar_optimal h.wellFormed h.counted hsrc htgt
    (fun v => h.lookup 2 0) maxDegree (h.fits (2, 0) (by decide))).1
    (h.detour.steers (by norm_num) le_rfl (by norm_num))⟩

/-- With the heuristics 4 and 2 the relationship is taken, and the detour is shorter. -/
theorem aStar_not_optimal : ∃ db hf₀ hf ids, PhyDatabase.create 4096 = .ok db ∧
    create 4096 1000 (PhyDatabase.flat 4096) db = .ok hf₀ ∧
    run (HF.creations 4096 1000 detour) hf₀ = .ok (ids, hf) ∧
    hf.WellFormed ∧ (Store.of hf).Live .node 0#64 ∧ (Store.of hf).Live .node 2#64 ∧
    (∀ x r, hf.graph.rel x = some r → 0 ≤ detourWeight r.weight) ∧
    hf.graph.Consistent detourWeight (detourEstimate 4 2) .outgoing 2#64 ∧
    (∀ v, (Store.of hf).Live .node v →
      (detourHeuristic 4 2).lookup v = some (detourEstimate 4 2 v : WithTop ℚ)) ∧
    ¬ ∃ p N, (∀ fuel ≥ N, ∃ hf₁, run (HF.aStar (.fibHeap maxDegree) detourWeight fuel
        (detourHeuristic 4 2) 0#64 2#64 .outgoing) hf = .ok (p, hf₁)) ∧
      p.Optimal hf.graph detourWeight .outgoing 0#64 2#64 := by
  obtain ⟨db, hf₀, hf, ids, hdb, hcreate, hrun, h⟩ := exists_detour
  have hsrc := (h.live_iff 0#64).mpr (.inl rfl)
  have htgt := (h.live_iff 2#64).mpr (.inr (.inr rfl))
  refine ⟨db, hf₀, hf, ids, hdb, hcreate, hrun, h.wellFormed, hsrc, htgt,
    fun x r _ => detourWeight_nonneg r.weight,
    h.detour.consistent (by norm_num) (by norm_num) (by norm_num), fun v => h.lookup 4 2, ?_⟩
  intro hopt
  obtain ⟨hl₀, hw₀⟩ := h.detour.first
  obtain ⟨hl₄, hw₄⟩ := h.detour.second
  obtain ⟨hl₈, hw₈⟩ := h.detour.direct
  obtain ⟨m, k, hg, hm, hk, hleast⟩ := (guided_of_optimal h.wellFormed h.counted hsrc htgt
    (fun v => h.lookup 4 2) (PrioQueue.least_fibHeap maxDegree) (h.fits (4, 2) (by decide)) hopt).2
    (fun u x v he => h.detour.weight_nonneg_guided (by norm_num) (by norm_num) he.2)
    (.single ⟨_, hl₈⟩)
  have hm' : m ≤ 9 := by
    have hstep := hm _ _ (.step .refl hl₈)
    rw [hw₈, Detour.estimate_zero] at hstep
    exact hstep.trans (by decide +kernel)
  have hk' : k ≤ 4 := by
    have hstep := hleast (Weighs.step (.step .refl hl₀) hl₄)
    rw [hw₀, hw₄] at hstep
    exact hstep.trans (by decide +kernel)
  rcases h.detour.weighs hg with ⟨h, -⟩ | ⟨h, -⟩ | ⟨-, h | h⟩
  · cases h
  · cases h
  · rw [(Prod.mk.inj h).2] at hk'
    norm_num at hk'
  · rw [(Prod.mk.inj h).1] at hm'
    norm_num at hm'

end HeapFile

end Goedb
