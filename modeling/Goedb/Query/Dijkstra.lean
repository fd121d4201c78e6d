import Goedb.DataStruct.PrioQueue
import Goedb.Lib.Relax
import Goedb.Query.TraversalResults

/-!
# Query — `dijkstra`

There is no set of settled nodes: whenever a distance is lowered, the node is queued once more.

On a store whose nodes have their cycles of relationships every turn of the loop relaxes the
relationships of a node (`Store.relaxAll_ok`), so the results of `Lib.Relax` hold of the dictionaries.

* `HeapFile.dijkstra_solves`: with weights that are not negative `dijkstra` returns the least weights of
  paths, whatever the order of the queue.
-/

namespace Goedb

open Lib

/-- `sssp_result`. -/
structure SsspResult where
  source : Ulong
  distances : DistDict
  predEdges : Dict

/-- The dictionaries of a search for paths, and its queue. -/
structure PathSearch {K : Type} (Q : PrioQueue K) where
  parents : Dict
  distance : NumDict K
  prioQueue : Q.Carrier

namespace PathSearch

section

variable {K : Type} {Q : PrioQueue K}

/-- The source is queued, and no other node has a distance yet but those in `distance`. -/
def start (Q : PrioQueue K) (distance : NumDict K) (key zero : K) (sourceNodeId : Ulong) :
    Except Fault (PathSearch Q) := do
  let prioQueue ← Q.insert Q.create key sourceNodeId
  return ⟨∅, distance.insert sourceNodeId zero, prioQueue⟩

/-- The distance of `temp` is `new_dist`, along the relationship. -/
def improve (t : PathSearch Q) (temp relId : Ulong) (newDist : K) : Except Fault (PathSearch Q) := do
  let prioQueue ← Q.insert t.prioQueue newDist temp
  return ⟨t.parents.insert temp relId, t.distance.insert temp newDist, prioQueue⟩

/-- The loop over the relationships of a node. -/
def forRels (body : Relationship → PathSearch Q → Except Fault (PathSearch Q)) :
    List Relationship → PathSearch Q → Except Fault (PathSearch Q)
  | [], t => .ok t
  | rel :: rels, t => do
      let t ← body rel t
      forRels body rels t

end

variable {Q : PrioQueue (WithTop ℚ)}

/-- What `dijkstra` does with a relationship of `nodeId`. -/
def relax (val : Double → ℚ) (nodeId : Ulong) (rel : Relationship) (t : PathSearch Q) :
    Except Fault (PathSearch Q) := do
  let temp := rel.otherEnd nodeId
  let nodeDist ← t.distance.getDirect nodeId
  let newDist := nodeDist + (val rel.weight : WithTop ℚ)
  let dist ← t.distance.getDirect temp
  if dist > newDist then t.improve temp rel.id newDist
  else return t

end PathSearch

/-- The loop that gives every node the distance `DBL_MAX`. -/
def insertDistances : (n : ℕ) → List Node → DistDict → Except Fault DistDict
  | 0, _, distance => .ok distance
  | _ + 1, [], _ => .error (.exit "List - get: Buffer overflow!")
  | n + 1, node :: nodes, distance => insertDistances n nodes (distance.insert node.id ⊤)

namespace HF

variable (Q : PrioQueue (WithTop ℚ)) (val : Double → ℚ)

/-- The main loop of `dijkstra`. -/
def dijkstraLoop (fuel : ℕ) (direction : Direction) : (turns : ℕ) → PathSearch Q → HF (PathSearch Q)
  | 0, _ => abort .diverge
  | turns + 1, t =>
      if Q.numNodes t.prioQueue > 0 then do
        let (fhNode, prioQueue) ← lift (Q.extractMin t.prioQueue)
        let rels ← expand fuel fhNode.2 direction
        let t ← lift (PathSearch.forRels (PathSearch.relax val fhNode.2) rels
          { t with prioQueue := prioQueue })
        dijkstraLoop fuel direction turns t
      else pure t

/-- `dijkstra`. -/
def dijkstra (P fuel : ℕ) (sourceNodeId : Ulong) (direction : Direction) : HF SsspResult := do
  if sourceNodeId = uninitializedLong then exit "dijkstra: Invalid Arguemnts!"
  else
    let nodes ← getNodes P fuel
    let c ← Prog.perform .getCounters
    let distance ← lift (insertDistances c.nNodes.toNat nodes ∅)
    let t ← lift (PathSearch.start Q distance ⊤ 0 sourceNodeId)
    let t ← dijkstraLoop Q val fuel direction fuel t
    return ⟨sourceNodeId, t.distance, t.parents⟩

end HF

/-! ### Paths -/

namespace Graph

variable (g : Graph) (val : Double → ℚ)

/-- The weight of a relationship. -/
def weight (x : Ulong) : ℚ := (g.rel x).elim 0 fun r => val r.weight

theorem weight_nonneg {val : Double → ℚ} (hval : ∀ x r, g.rel x = some r → 0 ≤ val r.weight)
    (direction : Direction) : ∀ v x w, g.Leads direction v x w → 0 ≤ g.weight val x := by
  rintro v x w ⟨r, hr, -, -⟩
  rw [weight, hr]
  exact hval x r hr

/-- A path from `source` to `v` in the direction has the total weight. -/
def Path (direction : Direction) (source : Ulong) (k : ℚ) (v : Ulong) : Prop :=
  Weighs (g.Leads direction) (fun _ x => g.weight val x) source k v

variable {g val} {direction : Direction} {source v : Ulong} {k : ℚ}

theorem Path.reaches (h : g.Path val direction source k v) : g.Reaches direction source v := by
  induction h with
  | refl => exact .refl
  | step _ he ih => exact ih.tail ⟨_, he⟩

theorem Reaches.path (h : g.Reaches direction source v) : ∃ k, g.Path val direction source k v := by
  induction h with
  | refl => exact ⟨0, .refl⟩
  | tail _ he ih =>
      obtain ⟨k, hk⟩ := ih
      obtain ⟨x, hx⟩ := he
      exact ⟨_, Weighs.step hk hx⟩

end Graph

namespace SsspResult

/-- The predecessors lead from `v` back to the source, along relationships of this weight in all, through
these nodes, none of them twice. -/
inductive Chain (r : SsspResult) (g : Graph) (val : Double → ℚ) (direction : Direction) :
    ℚ → List Ulong → Ulong → Prop
  | source : Chain r g val direction 0 [r.source] r.source
  | pred {k : ℚ} {nodes : List Ulong} {u v x : Ulong} (hx : r.predEdges.lookup v = some x)
      (hl : g.Leads direction u x v) (hv : v ∉ nodes) (hu : Chain r g val direction k nodes u) :
      Chain r g val direction (k + g.weight val x) (v :: nodes) v

/-- The distances are the least weights of paths from the source, and the predecessors are such
paths. -/
structure Solves (r : SsspResult) (g : Graph) (val : Double → ℚ) (direction : Direction)
    (source : Ulong) : Prop where
  source_eq : r.source = source
  reached : ∀ v, g.Reaches direction source v → ∃ k : ℚ, r.distances.lookup v = some ↑k ∧
    IsLeast {k | g.Path val direction source k v} k ∧
    ∃ nodes, r.Chain g val direction k nodes v
  unreached : ∀ v, (g.node v).isSome → ¬ g.Reaches direction source v →
    r.distances.lookup v = some ⊤

end SsspResult

/-! ### The loop relaxes relationships -/

namespace Store

variable {s : Store} {Q : PrioQueue (WithTop ℚ)} {L : Q.Lawful} {val : Double → ℚ} {fuel : ℕ}
  {direction : Direction} {source h : Ulong}

/-- The dictionaries and the queue hold the labels. -/
structure HoldsLabels (s : Store) (L : Q.Lawful) (p : PathSearch Q) (t : Labels Ulong Ulong ℚ)
    (queue : Multiset (WithTop ℚ × Ulong)) : Prop where
  parents : ∀ v, p.parents.lookup v = (t.pred v).map Prod.snd
  distance : ∀ v, p.distance.lookup v = if s.Live .node v then some (t.dist v) else none
  entries : L.Has p.prioQueue queue

/-- The relationships with the nodes to which they lead. -/
def edgesFrom (h : Ulong) (rels : List Relationship) : List (Ulong × Ulong) :=
  rels.map fun r => (r.id, r.otherEnd h)

theorem HoldsLabels.improve {p : PathSearch Q} {t : Labels Ulong Ulong ℚ}
    {queue : Multiset (WithTop ℚ × Ulong)} (hp : s.HoldsLabels L p t queue) {w : Ulong} (x : Ulong)
    (hw : s.Live .node w) (d : WithTop ℚ) : ∃ p', p.improve w x d = .ok p' ∧
      s.HoldsLabels L p' (t.lower h x w d) ((d, w) ::ₘ queue) := by
  obtain ⟨q, hinsert, hq⟩ := L.insert _ _ d w hp.entries
  refine ⟨⟨p.parents.insert w x, p.distance.insert w d, q⟩, by rw [PathSearch.improve, hinsert]; rfl,
    fun v => ?_, fun v => ?_, hq⟩
  · by_cases hv : v = w
    · rw [hv, AList.lookup_insert, Labels.pred_lower_self]
      rfl
    · rw [AList.lookup_insert_ne hv, Labels.pred_lower_of_ne hv, hp.parents]
  · by_cases hv : v = w
    · rw [hv, AList.lookup_insert, if_pos hw, Labels.dist_lower_self]
    · rw [AList.lookup_insert_ne hv, Labels.dist_lower_of_ne hv, hp.distance]

/-- **The relationships of a node** are relaxed. -/
theorem Walkable.relaxAll_ok (hs : s.Walkable) (hh : s.Live .node h) (rels : List Relationship) :
    ∀ {p : PathSearch Q} {t : Labels Ulong Ulong ℚ} {queue : Multiset (WithTop ℚ × Ulong)},
    s.HoldsLabels L p t queue → (∀ r ∈ rels, s.graph.rel r.id = some r ∧ r.Goes h direction) →
    ∃ p', PathSearch.forRels (PathSearch.relax val h) rels p = .ok p' ∧
      s.HoldsLabels L p'
        (relaxEdges (fun _ x => s.graph.weight val x) h (edgesFrom h rels) t queue).1
        (relaxEdges (fun _ x => s.graph.weight val x) h (edgesFrom h rels) t queue).2 := by
  induction rels with
  | nil => exact fun {p t queue} hp _ => ⟨p, rfl, hp⟩
  | cons r rels ih =>
      intro p t queue hp hrels
      obtain ⟨hr, hg⟩ := hrels r List.mem_cons_self
      have hrels' : ∀ r ∈ rels, s.graph.rel r.id = some r ∧ r.Goes h direction :=
        fun r' hr' => hrels r' (List.mem_cons_of_mem _ hr')
      have hw := hs.leads_live (v := h) ⟨r, hr, hg, rfl⟩
      have hget : ∀ {v}, s.Live .node v → p.distance.getDirect v = .ok (t.dist v) :=
        fun hv => NumDict.getDirect_ok (by rw [hp.distance, if_pos hv])
      have hweight : s.graph.weight val r.id = val r.weight := by
        rw [Graph.weight, hr]
        rfl
      rw [PathSearch.forRels, PathSearch.relax, hget hh, ok_bind, hget hw, ok_bind, edgesFrom,
        List.map_cons, relaxEdges, hweight]
      split
      · obtain ⟨p₁, h₁, hp₁⟩ := hp.improve (h := h) r.id hw (t.dist h + (val r.weight : WithTop ℚ))
        rw [h₁]
        exact ih hp₁ hrels'
      · exact ih hp hrels'

/-- What is relaxed are the relationships that lead from the node. -/
theorem mem_edgesFrom {rels : List Relationship}
    (hrels : ∀ r, r ∈ rels ↔ s.graph.rel r.id = some r ∧ r.Goes h direction) (x w : Ulong) :
    (x, w) ∈ edgesFrom h rels ↔ s.graph.Leads direction h x w := by
  rw [edgesFrom, List.mem_map]
  constructor
  · rintro ⟨r, hr, he⟩
    cases he
    obtain ⟨hrel, hg⟩ := (hrels r).mp hr
    exact ⟨r, hrel, hg, rfl⟩
  · rintro ⟨r, hrel, hg, rfl⟩
    have hid := s.keyed x r hrel
    exact ⟨r, (hrels r).mpr ⟨hid.symm ▸ hrel, hg⟩, by rw [hid]⟩

/-- There are only finitely many relationships, and so weights. -/
theorem Walkable.finite_weights (hs : s.Walkable) {E : Ulong → Ulong → Ulong → Prop} {K : Type}
    (hE : ∀ u x v, E u x v → s.graph.Leads direction u x v) (weight : Ulong → Ulong → K) :
    {k | ∃ u x v, E u x v ∧ weight u x = k}.Finite := by
  have hlive : ∀ k, {x | s.Live k x}.Finite := fun k =>
    ((s.liveIds k).finite_toSet).subset fun x hx => mem_liveIds.mpr hx
  refine (((hlive .node).prod (hlive .relationship)).image fun p => weight p.1 p.2).subset ?_
  rintro k ⟨u, x, v, he, rfl⟩
  obtain ⟨r, hr, hg, -⟩ := hE u x v he
  obtain ⟨hsource, htarget⟩ := hs.endpoints x r hr
  refine ⟨(u, x), ⟨?_, (rel_eq_some.mp hr).1⟩, rfl⟩
  rcases hg.at with rfl | rfl
  · exact hsource
  · exact htarget

/-- Labels that are not infinite are those of nodes. -/
theorem Walkable.live_of_noted {K : Type} [AddCommMonoid K] [LinearOrder K] (hs : s.Walkable)
    (hsrc : s.Live .node source) {E : Ulong → Ulong → Ulong → Prop} {weight : Ulong → Ulong → K}
    {t : Labels Ulong Ulong K} (hS : Noted E weight source t)
    (hE : ∀ u x v, E u x v → s.graph.Leads direction u x v) {v : Ulong} (hv : t.dist v ≠ ⊤) :
    s.Live .node v := by
  obtain ⟨k, hk⟩ := WithTop.ne_top_iff_exists.mp hv
  exact mem_nodeIds.mp ((hS.walk v k hk.symm).mem (mem_nodeIds.mpr hsrc)
    fun u x w _ he => mem_nodeIds.mpr (hs.leads_live (hE u x w he)))

/-- **Every turn of the loop** relaxes the relationships of the node that is taken. -/
theorem Walkable.run_dijkstraLoop (hs : s.Walkable) (hsrc : s.Live .node source)
    (hval : ∀ x r, s.graph.rel x = some r → 0 ≤ val r.weight) : ∀ t queue,
    Relax (s.graph.Leads direction) (fun _ x => s.graph.weight val x) (fun _ _ => True) source t none
      queue → ∀ p, s.HoldsLabels L p t queue →
    ∃ N p' t', (∀ turns ≥ N, ∀ fuel ≥ maxPageNo 4096 * 256,
      run (HF.dijkstraLoop Q val fuel direction turns p) s = .ok (p', s)) ∧
      Relax (s.graph.Leads direction) (fun _ x => s.graph.weight val x) (fun _ _ => True) source t'
        none 0 ∧
      s.HoldsLabels L p' t' 0 := by
  have hpos := s.graph.weight_nonneg hval direction
  refine Relax.turn_induction (mem_nodeIds.mpr hsrc)
    (fun v x w _ he => mem_nodeIds.mpr (hs.leads_live he)) hpos
    (hs.finite_weights (fun _ _ _ he => he) fun _ x => s.graph.weight val x) fun t queue ht ih p hp => ?_
  rcases Multiset.empty_or_exists_mem queue with rfl | ⟨y, hy⟩
  · refine ⟨1, p, t, fun turns hturns fuel _ => ?_, ht, hp⟩
    obtain ⟨turns, rfl⟩ := Nat.exists_eq_add_of_le' hturns
    rw [run, HF.dijkstraLoop, L.numNodes _ _ hp.entries, if_neg (by simp)]
    rfl
  · have hne : queue ≠ 0 := by
      rintro rfl
      exact Multiset.notMem_zero y hy
    have hpositive : Q.numNodes p.prioQueue > 0 := by
      rw [L.numNodes _ _ hp.entries]
      exact Multiset.card_pos.mpr hne
    obtain ⟨x, q, rest, hx, rfl, hq⟩ := L.extractMin _ _ hp.entries hne trivial
    have hlive := hs.live_of_noted hsrc (ht.shortest hpos).toNoted (fun _ _ _ he => he)
      ((ht.shortest hpos).queued x (Multiset.mem_cons_self _ _)).1
    obtain ⟨rels, hrun, hrels⟩ := hs.run_expand hlive direction
    obtain ⟨p₁, h₁, hp₁⟩ := hs.relaxAll_ok (L := L) hlive rels
      (p := { p with prioQueue := q }) ⟨hp.parents, hp.distance, hq⟩ fun r hr => (hrels r).mp hr
    obtain ⟨ht₁, hprec⟩ := ht.turn hpos trivial (mem_edgesFrom hrels)
    obtain ⟨N, p₂, t₂, hrun₂, ht₂, hp₂⟩ := ih _ _ ht₁ hprec p₁ hp₁
    refine ⟨N + 1, p₂, t₂, fun turns hturns fuel hfuel => ?_, ht₂, hp₂⟩
    obtain ⟨turns, rfl⟩ := Nat.exists_eq_add_of_le' (Nat.one_le_of_lt hturns)
    rw [run, HF.dijkstraLoop, if_pos hpositive, Prog.run_bind_ok _ (run_lift hx s),
      Prog.run_bind_ok _ (hrun fuel hfuel), Prog.run_bind_ok _ (run_lift h₁ s)]
    exact hrun₂ turns (by omega) fuel hfuel

/-- Every node gets the distance `DBL_MAX`. -/
theorem insertDistances_ok (nodes : List Node) : ∀ distance : DistDict,
    insertDistances nodes.length nodes distance =
      .ok ((nodes.map Node.id).foldl (fun d id => d.insert id ⊤) distance) := by
  induction nodes with
  | nil => exact fun _ => rfl
  | cons nd nodes ih => exact fun distance => ih (distance.insert nd.id ⊤)

/-- **`dijkstra`** returns what the labels are at the end. -/
theorem Walkable.run_dijkstra (hs : s.Walkable) (hsrc : s.Live .node source)
    (hval : ∀ x r, s.graph.rel x = some r → 0 ≤ val r.weight) (L : Q.Lawful)
    (direction : Direction) :
    ∃ N p t, (∀ fuel ≥ N, run (HF.dijkstra Q val 4096 fuel source direction) s =
        .ok (⟨source, p.distance, p.parents⟩, s)) ∧
      Shortest (s.graph.Leads direction) (fun _ x => s.graph.weight val x) source t none 0 ∧
      s.HoldsLabels L p t 0 := by
  have hv := hs.counted.valid
  have hpages := hv.pages_lt .node
  have hinsert := insertDistances_ok ((s.liveIds .node).map s.nodeAt) ∅
  rw [hs.counted.length_nodes, map_id_nodeAt] at hinsert
  set distance := (s.liveIds .node).foldl (fun d id => d.insert id ⊤) (∅ : DistDict)
  obtain ⟨q, hq, hentries⟩ := L.insert _ _ ⊤ source L.create
  have hp : s.HoldsLabels L ⟨∅, distance.insert source 0, q⟩ (.start source) {(⊤, source)} := by
    refine ⟨fun v => AList.lookup_empty v, fun v => ?_, hentries⟩
    by_cases hvs : v = source
    · subst hvs
      rw [AList.lookup_insert, if_pos hsrc, Labels.dist_start_self]
    · rw [AList.lookup_insert_ne hvs, Dict.lookup_foldl_insert, Labels.dist_start_of_ne hvs,
        AList.lookup_empty]
      simp only [mem_liveIds]
  have hstart : PathSearch.start Q distance ⊤ 0 source = .ok ⟨∅, distance.insert source 0, q⟩ := by
    rw [PathSearch.start, hq]
    rfl
  have hpos := s.graph.weight_nonneg hval direction
  obtain ⟨N, p, t, hrun, ht, hp'⟩ := hs.run_dijkstraLoop hsrc hval _ _ .start _ hp
  refine ⟨max N (maxPageNo 4096 * 256), p, t, fun fuel hfuel => ?_, ht.shortest hpos, hp'⟩
  obtain ⟨hN, hmax⟩ := max_le_iff.mp hfuel
  have hget : run (Prog.perform .getCounters) s = .ok (s.counters, s) := rfl
  rw [run, HF.dijkstra, if_neg (hv.ne_uninitialized hsrc.2.1),
    Prog.run_bind_ok _ (run_getNodes hv (by omega)), Prog.run_bind_ok _ hget,
    Prog.run_bind_ok _ (run_lift hinsert s), Prog.run_bind_ok _ (run_lift hstart s),
    Prog.run_bind_ok _ (hrun fuel hN fuel hmax)]
  rfl

/-- What the notes say the predecessors say. -/
theorem HoldsLabels.chain {p : PathSearch Q} {t : Labels Ulong Ulong ℚ}
    {queue : Multiset (WithTop ℚ × Ulong)} (hp : s.HoldsLabels L p t queue)
    (hS : Shortest (s.graph.Leads direction) (fun _ x => s.graph.weight val x) source t none queue)
    {k : ℚ} {nodes : List Ulong} {v : Ulong}
    (hv : t.Climbs (fun _ x => s.graph.weight val x) source k nodes v) :
    SsspResult.Chain ⟨source, p.distance, p.parents⟩ s.graph val direction k nodes v := by
  induction hv with
  | root => exact .source
  | step hpred hl _ ih =>
      refine .pred ?_ (hS.edge _ _ _ hpred).1 hl ih
      rw [hp.parents, hpred]
      rfl

/-- **The result** solves the problem. -/
theorem Walkable.solves (hs : s.Walkable) (hsrc : s.Live .node source)
    (hval : ∀ x r, s.graph.rel x = some r → 0 ≤ val r.weight) {p : PathSearch Q}
    {t : Labels Ulong Ulong ℚ}
    (hS : Shortest (s.graph.Leads direction) (fun _ x => s.graph.weight val x) source t none 0)
    (hp : s.HoldsLabels L p t 0) :
    SsspResult.Solves ⟨source, p.distance, p.parents⟩ s.graph val direction source := by
  have hpos := s.graph.weight_nonneg hval direction
  refine ⟨rfl, fun v hv => ?_, fun v hv hn => ?_⟩
  · obtain ⟨k, hk⟩ := WithTop.ne_top_iff_exists.mp ((hS.ne_top_iff hpos).mpr hv.path)
    have hlive := hs.live_of_noted hsrc hS.toNoted (fun _ _ _ he => he) (v := v)
      (by rw [← hk]; exact WithTop.coe_ne_top)
    obtain ⟨nodes, hnodes⟩ := hS.climbs hpos hk.symm
    refine ⟨k, ?_, (hS.isLeast hpos).mp hk.symm, nodes, hp.chain hS hnodes⟩
    show p.distance.lookup v = _
    rw [hp.distance, if_pos hlive, hk]
  · show p.distance.lookup v = _
    rw [hp.distance, if_pos (isSome_node.mp hv)]
    by_contra hne
    have htop : t.dist v ≠ ⊤ := fun h => hne (by rw [h])
    obtain ⟨k, hk⟩ := (hS.ne_top_iff hpos).mp htop
    exact hn (Graph.Path.reaches hk)

end Store

namespace HeapFile

variable {hf : HeapFile PhyDatabase} {source : Ulong}

/-- **`dijkstra` solves the problem of the shortest paths** if no weight is negative, in whatever order
the queue hands back its entries. -/
theorem dijkstra_solves (hw : hf.WellFormed) (hc : (Store.of hf).Counted)
    (hsrc : (Store.of hf).Live .node source) (val : Double → ℚ)
    (hval : ∀ x r, hf.graph.rel x = some r → 0 ≤ val r.weight) (Q : PrioQueue (WithTop ℚ)) (L : Q.Lawful)
    (direction : Direction) :
    ∃ r N, (∀ fuel ≥ N, ∃ hf₁,
        run (HF.dijkstra Q val 4096 fuel source direction) hf = .ok (r, hf₁)) ∧
      r.Solves hf.graph val direction source := by
  have hs := hw.store.walkable hc
  obtain ⟨N, p, t, hrun, hS, hp⟩ := hs.run_dijkstra hsrc hval L direction
  refine ⟨_, N, fun fuel hfuel => ?_, hs.solves hsrc hval hS hp⟩
  obtain ⟨hf₁, hrun', -, -⟩ := run_ok hw.good (hrun fuel hfuel)
  exact ⟨hf₁, hrun'⟩

/-- Two nodes joined by a relationship of weight 1. -/
theorem dijkstra_solves_pair : ∃ db hf₀ hf ids, PhyDatabase.create 4096 = .ok db ∧
    create 4096 1000 (PhyDatabase.flat 4096) db = .ok hf₀ ∧
    run (HF.creations 4096 1000 [.node 0#64, .node 0#64, .relationship 0#64 1#64 doubleOne 0#64])
      hf₀ = .ok (ids, hf) ∧
    ∃ r N, (∀ fuel ≥ N, ∃ hf₁, run (HF.dijkstra .sorted (fun w => if w = doubleOne then 1 else 0)
        4096 fuel 0#64 .both) hf = .ok (r, hf₁)) ∧
      r.Solves hf.graph (fun w => if w = doubleOne then 1 else 0) .both 0#64 := by
  have h : Prog.check Store.step (HF.creations 4096 1000
      [.node 0#64, .node 0#64, .relationship 0#64 1#64 doubleOne 0#64]) Store.empty
      (fun _ s => decide (s.liveIds .node = [0#64, 1#64])) = true := by
    decide +kernel
  obtain ⟨ids, s, hrun, hp⟩ := Prog.check_inv _ h
  have hlive := of_decide_eq_true hp
  have hc := Store.counted_of_creations hrun
  obtain ⟨db, hf₀, hf, hdb, hcreate, hrun', hw, rfl⟩ := exists_created hrun
  refine ⟨db, hf₀, hf, ids, hdb, hcreate, hrun', dijkstra_solves hw hc ?_ _
    (fun x r _ => ?_) .sorted PrioQueue.sortedLawful _⟩
  · rw [← Store.mem_liveIds, hlive]
    decide
  · split <;> norm_num

end HeapFile

end Goedb
