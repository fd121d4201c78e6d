import Goedb.Query.Carried
import Goedb.Query.AltRuns

/-!
# Query — searches for paths under a renaming

`dijkstra` and `a_star` put nodes into a queue.  A queue that treats its values as tokens (`Uniform`)
hands the renamed nodes back in the same turns, so the two searches are carried as the traversals are:
distances, predecessors and paths.

The distances of `dijkstra` are the least weights of paths, so they are carried whatever the two queues
are like (`Store.Carried.distances`).
-/

namespace Goedb

open Lib
open Prog (Lockstep)

theorem CarriedDict.getDist {K : Type} {τ : Renaming} {d d' : NumDict K} (h : CarriedDict τ id d d')
    (v : Ulong) : d'.getDirect (τ v) = d.getDirect v := by
  rw [NumDict.getDirect, NumDict.getDirect, h, Option.map_id]
  rfl

/-- The result is renamed. -/
structure SsspResult.Carried (τ σ : Renaming) (r r' : SsspResult) : Prop where
  source : r'.source = τ r.source
  distances : CarriedDict τ id r.distances r'.distances
  predEdges : CarriedDict τ σ r.predEdges r'.predEdges

namespace Store

variable {τ σ : Renaming} {s s' : Store} {K : Type} {Q : PrioQueue K}
  {rel : Q.Carrier → Q.Carrier → Prop} {val : Double → ℚ} {fuel : ℕ}
  {direction : Direction} {n source target : Ulong}

/-- A node of the first store, and the same node in the second one. -/
def Follows (s : Store) (τ : Renaming) (v v' : Ulong) : Prop := s.Live .node v ∧ v' = τ v

/-- The dictionaries are carried, the predecessors are relationships, and the queues are related. -/
structure Seeks (s : Store) (τ σ : Renaming) (rel : Q.Carrier → Q.Carrier → Prop)
    (p p' : PathSearch Q) : Prop where
  parents : CarriedDict τ σ p.parents p'.parents
  known : ∀ v x, p.parents.lookup v = some x → ∃ r, s.graph.rel x = some r
  distance : CarriedDict τ id p.distance p'.distance
  queue : rel p.prioQueue p'.prioQueue

/-- Every node gets the distance `DBL_MAX`. -/
theorem Walkable.insertDistances_ok (hs : s.Walkable) : ∃ distance,
    insertDistances s.counters.nNodes.toNat ((s.liveIds .node).map s.nodeAt) ∅ = .ok distance ∧
      ∀ v, distance.lookup v = if s.Live .node v then some ⊤ else none := by
  have hok := Store.insertDistances_ok ((s.liveIds .node).map s.nodeAt) ∅
  rw [hs.counted.length_nodes, map_id_nodeAt] at hok
  refine ⟨_, hok, fun v => ?_⟩
  rw [Dict.lookup_foldl_insert, AList.lookup_empty]
  simp only [mem_liveIds]

section Turns

variable (h : Carried τ σ s s') (hQ : Q.Respects (s.Follows τ) rel)

include hQ in
theorem Seeks.improve {p p' : PathSearch Q} (hp : s.Seeks τ σ rel p p') {w : Ulong}
    (hw : s.Live .node w) {r : Relationship} (hr : s.graph.rel r.id = some r) (d : K) :
    Alike (s.Seeks τ σ rel) (p.improve w r.id d) (p'.improve (τ w) (σ r.id) d) := by
  refine (hQ.insert _ _ d w (τ w) hp.queue ⟨hw, rfl⟩).bind fun q q' hq => .ok ?_
  refine ⟨hp.parents.insert _ _, fun v x hx => ?_, hp.distance.insert _ _, hq⟩
  by_cases hv : v = w
  · rw [hv, AList.lookup_insert, Option.some.injEq] at hx
    exact ⟨r, hx ▸ hr⟩
  · rw [AList.lookup_insert_ne hv] at hx
    exact hp.known v x hx

include hQ in
/-- The source is queued. -/
theorem Seeks.start {d d' : NumDict K} (hd : CarriedDict τ id d d') (hsrc : s.Live .node source)
    (key zero : K) :
    Alike (s.Seeks τ σ rel) (PathSearch.start Q d key zero source)
      (PathSearch.start Q d' key zero (τ source)) := by
  refine (hQ.insert _ _ key source (τ source) hQ.create ⟨hsrc, rfl⟩).bind fun q q' hq => .ok ?_
  refine ⟨.empty, fun v x hx => ?_, hd.insert source zero, hq⟩
  rw [AList.lookup_empty] at hx
  cases hx

/-- **The relationships of a node** are taken one by one. -/
theorem Seeks.forRels {body body' : Relationship → PathSearch Q → Except Fault (PathSearch Q)}
    (rels : List Relationship)
    (hbody : ∀ r ∈ rels, ∀ p p', s.Seeks τ σ rel p p' →
      Alike (s.Seeks τ σ rel) (body r p) (body' (r.rename τ σ) p')) :
    ∀ {p p' : PathSearch Q}, s.Seeks τ σ rel p p' → Alike (s.Seeks τ σ rel)
      (PathSearch.forRels body rels p)
      (PathSearch.forRels body' (rels.map (Relationship.rename τ σ)) p') := by
  induction rels with
  | nil => exact fun hp => .ok hp
  | cons r rels ih =>
      intro p p' hp
      exact (hbody r List.mem_cons_self p p' hp).bind fun _ _ hp =>
        ih (fun r' hr' => hbody r' (List.mem_cons_of_mem r hr')) hp

end Turns

/-! ### `dijkstra` -/

section Dijkstra

variable {Q : PrioQueue (WithTop ℚ)} {rel : Q.Carrier → Q.Carrier → Prop}
  (h : Carried τ σ s s') (hQ : Q.Respects (s.Follows τ) rel)
include h hQ

/-- **One relationship** is relaxed in both. -/
theorem Carried.relax (val : Double → ℚ) {p p' : PathSearch Q} (hp : s.Seeks τ σ rel p p')
    {r : Relationship} (hr : s.graph.rel r.id = some r) (hg : r.Goes n direction) :
    Alike (s.Seeks τ σ rel) (PathSearch.relax val n r p)
      (PathSearch.relax val (τ n) (r.rename τ σ) p') := by
  rw [PathSearch.relax, PathSearch.relax, Relationship.otherEnd_rename, hp.distance.getDist,
    hp.distance.getDist]
  cases p.distance.getDirect n with
  | error e => exact .error e
  | ok nodeDist =>
      simp only [ok_bind]
      cases p.distance.getDirect (r.otherEnd n) with
      | error e => exact .error e
      | ok dist =>
          simp only [ok_bind]
          by_cases hlt : dist > nodeDist + (val r.weight : WithTop ℚ)
          · rw [if_pos hlt, if_pos (show dist > nodeDist + (val (r.rename τ σ).weight : WithTop ℚ)
              from hlt)]
            exact hp.improve hQ (h.live_otherEnd hr hg) hr _
          · rw [if_neg hlt, if_neg (show ¬ dist > nodeDist + (val (r.rename τ σ).weight : WithTop ℚ)
              from hlt)]
            exact .ok hp

/-- **The loop** of `dijkstra`. -/
theorem Carried.inStep_dijkstraLoop (val : Double → ℚ) (direction : Direction)
    (hfuel : maxPageNo 4096 * 256 ≤ fuel) (turns : ℕ) :
    ∀ {p p' : PathSearch Q}, s.Seeks τ σ rel p p' →
    InStep s s' (s.Seeks τ σ rel) (HF.dijkstraLoop Q val fuel direction turns p)
      (HF.dijkstraLoop Q val fuel direction turns p') := by
  induction turns with
  | zero => exact fun _ => inStep_diverge _
  | succ turns ih =>
      intro p p' hp
      rw [HF.dijkstraLoop, HF.dijkstraLoop, hQ.numNodes _ _ hp.queue]
      refine .ite Iff.rfl (fun _ => ?_) fun _ => .pure hp
      refine (inStep_lift (hQ.extractMin _ _ hp.queue)).bind ?_
      rintro ⟨⟨k, v⟩, q⟩ ⟨⟨-, -⟩, q'⟩ ⟨⟨rfl, hv, rfl⟩, hq⟩
      refine (h.inStep_expand hv direction hfuel).bind ?_
      rintro rels - ⟨rfl, hrels⟩
      have hrest : s.Seeks τ σ rel { p with prioQueue := q } { p' with prioQueue := q' } :=
        ⟨hp.parents, hp.known, hp.distance, hq⟩
      refine (inStep_lift (Seeks.forRels rels (fun r hr p p' hp => ?_) hrest)).bind
        fun _ _ hp => ih hp
      exact h.relax hQ val hp (hrels r hr).1 (hrels r hr).2

/-- **`dijkstra`** from a renamed node. -/
theorem Carried.inStep_dijkstra (val : Double → ℚ) (hsrc : s.Live .node source) (direction : Direction)
    (hfuel : maxPageNo 4096 * 256 ≤ fuel) :
    InStep s s' (SsspResult.Carried τ σ) (HF.dijkstra Q val 4096 fuel source direction)
      (HF.dijkstra Q val 4096 fuel (τ source) direction) := by
  rw [HF.dijkstra, HF.dijkstra, if_neg (h.walkable.counted.valid.ne_uninitialized hsrc.2.1),
    if_neg (h.ne_uninitialized hsrc)]
  obtain ⟨distance, hinsert, hlook⟩ := h.walkable.insertDistances_ok
  obtain ⟨distance', hinsert', hlook'⟩ := h.walkable'.insertDistances_ok
  have hdistance : CarriedDict τ id distance distance' := by
    intro v
    rw [hlook, hlook', apply_ite (Option.map id)]
    exact if_congr h.live_iff rfl rfl
  refine (h.inStep_getNodes hfuel).bind ?_
  rintro - - ⟨rfl, rfl⟩
  refine Carried.inStep_getCounters.bind ?_
  rintro - - ⟨rfl, rfl⟩
  rw [hinsert, hinsert']
  refine (inStep_lift (R := CarriedDict τ id) (.ok hdistance)).bind fun d d' hd => ?_
  refine (inStep_lift (Seeks.start (σ := σ) hQ hd hsrc ⊤ 0)).bind fun p p' hp => ?_
  exact (h.inStep_dijkstraLoop hQ val direction hfuel fuel hp).bind
    fun p p' hp => .pure ⟨rfl, hp.distance, hp.parents⟩

end Dijkstra

/-! ### `a_star` -/

section AStar

variable {Q : PrioQueue Total} {rel : Q.Carrier → Q.Carrier → Prop}
  (h : Carried τ σ s s') (hQ : Q.Respects (s.Follows τ) rel)
include h hQ

/-- **One relationship** is relaxed in both, with the heuristic of the node. -/
theorem Carried.relaxGuided (val : Double → ℚ) {heuristic heuristic' : DistDict}
    (hheur : CarriedDict τ id heuristic heuristic') {p p' : PathSearch Q}
    (hp : s.Seeks τ σ rel p p') {r : Relationship} (hr : s.graph.rel r.id = some r)
    (hg : r.Goes n direction) :
    Alike (s.Seeks τ σ rel) (PathSearch.relaxGuided val heuristic n r p)
      (PathSearch.relaxGuided val heuristic' (τ n) (r.rename τ σ) p') := by
  have hweight : (r.rename τ σ).weight = r.weight := rfl
  have hend := h.live_otherEnd hr hg
  rw [PathSearch.relaxGuided, PathSearch.relaxGuided, Relationship.otherEnd_rename, hweight,
    hp.distance.getDist, hp.distance.getDist, hheur.getDist]
  cases p.distance.getDirect n with
  | error e => exact .error e
  | ok nodeDist =>
      simp only [ok_bind]
      cases heuristic.getDirect n with
      | error e => exact .error e
      | ok estimate =>
          simp only [ok_bind]
          by_cases hmem : r.otherEnd n ∈ p.distance
          · rw [if_pos hmem, if_pos (hp.distance.mem_iff.mpr hmem)]
            cases p.distance.getDirect (r.otherEnd n) with
            | error e => exact .error e
            | ok dist =>
                simp only [ok_bind]
                by_cases hlt : dist > nodeDist + .of (val r.weight) + .of estimate
                · rw [if_pos hlt, if_pos hlt]
                  exact hp.improve hQ hend hr _
                · rw [if_neg hlt, if_neg hlt]
                  exact .ok hp
          · rw [if_neg hmem, if_neg fun hm => hmem (hp.distance.mem_iff.mp hm)]
            exact hp.improve hQ hend hr _

omit hQ in
/-- **The loop** of `construct_path` follows the renamed predecessors. -/
theorem Carried.inStep_constructPathLoop (val : Double → ℚ) {parents parents' : Dict}
    (hparents : CarriedDict τ σ parents parents')
    (hknown : ∀ v x, parents.lookup v = some x → ∃ r, s.graph.rel x = some r) (turns : ℕ) :
    ∀ (nodeId : Ulong) (edges : List Ulong) (distance : ℚ),
    InStep s s' (fun a b => b = (a.1.map σ, a.2))
      (HF.constructPathLoop val source parents turns nodeId edges distance)
      (HF.constructPathLoop val (τ source) parents' turns (τ nodeId) (edges.map σ) distance) := by
  induction turns with
  | zero => exact fun _ _ _ => inStep_diverge _
  | succ turns ih =>
      intro nodeId edges distance
      rw [HF.constructPathLoop, HF.constructPathLoop]
      have hget : Alike (fun x y => y = σ x ∧ parents.lookup nodeId = some x)
          (parents.getDirect nodeId) (parents'.getDirect (τ nodeId)) := by
        rw [hparents.getDirect, Dict.getDirect]
        cases parents.lookup nodeId with
        | none => exact .error _
        | some x => exact .ok ⟨rfl, rfl⟩
      refine (inStep_lift hget).bind ?_
      rintro x - ⟨rfl, hx⟩
      obtain ⟨r, hr⟩ := hknown nodeId x hx
      refine (h.inStep_readRelationship hr).bind ?_
      rintro - - ⟨rfl, rfl⟩
      simp only [Relationship.nodeBefore_rename]
      have hedges : edges.map σ ++ [σ x] = (edges ++ [x]).map σ := by rw [List.map_append]; rfl
      rw [hedges]
      exact .ite τ.injective.eq_iff.symm (fun _ => .pure rfl) fun _ => ih _ _ _

omit hQ in
/-- **`construct_path`** of renamed nodes. -/
theorem Carried.inStep_constructPath (val : Double → ℚ) {parents parents' : Dict}
    (hparents : CarriedDict τ σ parents parents')
    (hknown : ∀ v x, parents.lookup v = some x → ∃ r, s.graph.rel x = some r)
    (hsrc : s.Live .node source) (htgt : s.Live .node target) :
    InStep s s' (fun p p' => p' = p.rename τ σ) (HF.constructPath val fuel source target parents)
      (HF.constructPath val fuel (τ source) (τ target) parents') := by
  have hv := h.walkable.counted.valid
  rw [HF.constructPath, HF.constructPath, if_neg (not_or.mpr ⟨hv.ne_uninitialized hsrc.2.1,
    hv.ne_uninitialized htgt.2.1⟩), if_neg (not_or.mpr ⟨h.ne_uninitialized hsrc,
    h.ne_uninitialized htgt⟩)]
  refine (h.inStep_constructPathLoop val hparents hknown fuel target [] 0).bind ?_
  rintro ⟨edges, distance⟩ - rfl
  refine .pure ?_
  rw [Path.rename, List.map_reverse]

/-- **The loop** of `a_star`. -/
theorem Carried.inStep_aStarLoop (val : Double → ℚ) {heuristic heuristic' : DistDict}
    (hheur : CarriedDict τ id heuristic heuristic') (hsrc : s.Live .node source)
    (htgt : s.Live .node target) (direction : Direction) (hfuel : maxPageNo 4096 * 256 ≤ fuel)
    (turns : ℕ) : ∀ {p p' : PathSearch Q}, s.Seeks τ σ rel p p' →
    InStep s s' (fun p p' => p' = p.rename τ σ)
      (HF.aStarLoop Q val heuristic fuel source target direction turns p)
      (HF.aStarLoop Q val heuristic' fuel (τ source) (τ target) direction turns p') := by
  induction turns with
  | zero => exact fun _ => inStep_diverge _
  | succ turns ih =>
      intro p p' hp
      rw [HF.aStarLoop, HF.aStarLoop, hQ.numNodes _ _ hp.queue]
      refine .ite Iff.rfl (fun _ => ?_) fun _ => .pure rfl
      refine (inStep_lift (hQ.extractMin _ _ hp.queue)).bind ?_
      rintro ⟨⟨k, v⟩, q⟩ ⟨⟨-, -⟩, q'⟩ ⟨⟨rfl, hv, rfl⟩, hq⟩
      refine .ite τ.injective.eq_iff.symm
        (fun _ => h.inStep_constructPath val hp.parents hp.known hsrc htgt) fun _ => ?_
      refine (h.inStep_expand hv direction hfuel).bind ?_
      rintro rels - ⟨rfl, hrels⟩
      have hrest : s.Seeks τ σ rel { p with prioQueue := q } { p' with prioQueue := q' } :=
        ⟨hp.parents, hp.known, hp.distance, hq⟩
      refine (inStep_lift (Seeks.forRels rels (fun r hr p p' hp => ?_) hrest)).bind
        fun _ _ hp => ih hp
      exact h.relaxGuided hQ val hheur hp (hrels r hr).1 (hrels r hr).2

/-- **`a_star`** between renamed nodes, with the heuristic of the renamed nodes. -/
theorem Carried.inStep_aStar (val : Double → ℚ) {heuristic heuristic' : DistDict}
    (hheur : CarriedDict τ id heuristic heuristic') (hsrc : s.Live .node source)
    (htgt : s.Live .node target) (direction : Direction) (hfuel : maxPageNo 4096 * 256 ≤ fuel) :
    InStep s s' (fun p p' => p' = p.rename τ σ)
      (HF.aStar Q val fuel heuristic source target direction)
      (HF.aStar Q val fuel heuristic' (τ source) (τ target) direction) := by
  have hv := h.walkable.counted.valid
  rw [HF.aStar, HF.aStar, if_neg (not_or.mpr ⟨hv.ne_uninitialized hsrc.2.1,
    hv.ne_uninitialized htgt.2.1⟩), if_neg (not_or.mpr ⟨h.ne_uninitialized hsrc,
    h.ne_uninitialized htgt⟩)]
  refine (inStep_lift (Seeks.start (σ := σ) hQ .empty hsrc (.of ⊤) 0)).bind fun p p' hp => ?_
  exact h.inStep_aStarLoop hQ val hheur hsrc htgt direction hfuel fuel hp

end AStar

/-! ### Distances -/

theorem Carried.path_iff (h : Carried τ σ s s') (val : Double → ℚ) {k : ℚ} {v : Ulong} :
    s'.graph.Path val direction (τ source) k (τ v) ↔ s.graph.Path val direction source k v := by
  rw [h.graph]
  constructor
  · intro hp
    have hback : s.graph.Path val direction (τ.symm (τ source)) k (τ.symm (τ v)) := by
      refine hp.relabel τ.symm σ.symm fun u x w he => ?_
      rw [← τ.apply_symm_apply u, ← τ.apply_symm_apply w, ← σ.apply_symm_apply x] at he
      refine ⟨Graph.leads_rename.mp he, ?_⟩
      rw [← Graph.weight_rename (τ := τ) val, σ.apply_symm_apply]
    rwa [τ.symm_apply_apply, τ.symm_apply_apply] at hback
  · intro hp
    exact hp.relabel τ σ fun u x w he => ⟨Graph.leads_rename.mpr he, Graph.weight_rename val x⟩

/-- **The distances of `dijkstra`** are carried, whatever the two queues are like. -/
theorem Carried.distances (h : Carried τ σ s s') (hsrc : s.Live .node source)
    (hval : ∀ x r, s.graph.rel x = some r → 0 ≤ val r.weight) {Q Q' : PrioQueue (WithTop ℚ)}
    (L : Q.Lawful) (L' : Q'.Lawful) (direction : Direction) : ∃ N r r',
    (∀ fuel ≥ N, run (HF.dijkstra Q val 4096 fuel source direction) s = .ok (r, s) ∧
      run (HF.dijkstra Q' val 4096 fuel (τ source) direction) s' = .ok (r', s')) ∧
    CarriedDict τ id r.distances r'.distances := by
  have hval' : ∀ x r, s'.graph.rel x = some r → 0 ≤ val r.weight := by
    intro x r hr
    rw [h.graph] at hr
    obtain ⟨y, r', -, rfl, hr'⟩ := Graph.rename_rel_eq_some hr
    exact hval y r' hr'
  have hpos := s.graph.weight_nonneg hval direction
  have hpos' := s'.graph.weight_nonneg hval' direction
  obtain ⟨N, p, t, hrun, hS, hp⟩ := h.walkable.run_dijkstra hsrc hval L direction
  obtain ⟨N', p', t', hrun', hS', hp'⟩ := h.walkable'.run_dijkstra (h.live_iff.mpr hsrc) hval' L' direction
  have hsame : ∀ v, t'.dist (τ v) = t.dist v := by
    intro v
    have hpaths : {k | s'.graph.Path val direction (τ source) k (τ v)} =
        {k | s.graph.Path val direction source k v} := Set.ext fun k => h.path_iff val
    cases hv : t.dist v with
    | top =>
        by_contra hne
        obtain ⟨k, hk⟩ := (hS'.ne_top_iff hpos').mp hne
        exact (hS.ne_top_iff hpos).mpr ⟨k, (h.path_iff val).mp hk⟩ hv
    | coe k => exact (hS'.isLeast hpos').mpr (hpaths ▸ (hS.isLeast hpos).mp hv)
  refine ⟨max N N', _, _, fun fuel hfuel => ⟨hrun fuel (le_of_max_le_left hfuel),
    hrun' fuel (le_of_max_le_right hfuel)⟩, fun v => ?_⟩
  show p'.distance.lookup (τ v) = (p.distance.lookup v).map id
  rw [hp'.distance, hp.distance, hsame, apply_ite (Option.map id)]
  exact if_congr h.live_iff rfl rfl

end Store

end Goedb
