import Goedb.Query.Dijkstra

/-!
# Query — `a_star`

The distances that are kept hold the heuristics of all nodes on the way, so the search follows the least
sums of weights and heuristics; the path that is returned has its weight counted anew.

As long as the queue fits whenever it is asked for an entry, the path is one with the least such sum: it
is a shortest one if every path with the least such sum is (`HeapFile.optimal_of_steers`), and some path
with the least such sum must be (`HeapFile.guided_of_optimal`).  Without heuristics and negative weights
there is nothing to lead it astray (`Graph.steers_zero`).
-/

namespace Goedb

open Lib

/-- `path`. -/
structure Path where
  source : Ulong
  target : Ulong
  distance : WithTop ℚ
  edges : List Ulong

/-- The node before `node_id` on a path with the relationship. -/
def Relationship.nodeBefore (nodeId : Ulong) (rel : Relationship) : Ulong :=
  if rel.targetNode = nodeId then rel.sourceNode else rel.targetNode

/-- What `a_star` does with a relationship of `nodeId`. -/
def PathSearch.relaxGuided {Q : PrioQueue Total} (val : Double → ℚ) (heuristic : DistDict) (nodeId : Ulong)
    (rel : Relationship) (t : PathSearch Q) : Except Fault (PathSearch Q) := do
  let temp := rel.otherEnd nodeId
  let nodeDist ← t.distance.getDirect nodeId
  let estimate ← heuristic.getDirect nodeId
  let newDist := nodeDist + .of (val rel.weight) + .of estimate
  if temp ∈ t.distance then
    let dist ← t.distance.getDirect temp
    if dist > newDist then t.improve temp rel.id newDist
    else return t
  else t.improve temp rel.id newDist

namespace HF

variable (Q : PrioQueue Total) (val : Double → ℚ)

/-- The loop of `construct_path`. -/
def constructPathLoop (sourceNodeId : Ulong) (parents : Dict) :
    (turns : ℕ) → (nodeId : Ulong) → (edgesReverse : List Ulong) → (distance : ℚ) →
      HF (List Ulong × ℚ)
  | 0, _, _, _ => abort .diverge
  | turns + 1, nodeId, edgesReverse, distance => do
      let parentId ← lift (parents.getDirect nodeId)
      let rel ← readRelationship parentId
      let nodeId := rel.nodeBefore nodeId
      let edgesReverse := edgesReverse ++ [parentId]
      let distance := distance + val rel.weight
      if nodeId = sourceNodeId then pure (edgesReverse, distance)
      else constructPathLoop sourceNodeId parents turns nodeId edgesReverse distance

/-- `construct_path`. -/
def constructPath (fuel : ℕ) (sourceNodeId targetNodeId : Ulong) (parents : Dict) : HF Path := do
  if sourceNodeId = uninitializedLong ∨ targetNodeId = uninitializedLong then
    exit "result types - construct path: Invalid arguments!"
  else
    let (edgesReverse, distance) ←
      constructPathLoop val sourceNodeId parents fuel targetNodeId [] 0
    return ⟨sourceNodeId, targetNodeId, distance, edgesReverse.reverse⟩

/-- The loop of `a_star`. -/
def aStarLoop (heuristic : DistDict) (fuel : ℕ) (sourceNodeId targetNodeId : Ulong)
    (direction : Direction) : (turns : ℕ) → PathSearch Q → HF Path
  | 0, _ => abort .diverge
  | turns + 1, t =>
      if Q.numNodes t.prioQueue > 0 then do
        let (fhNode, prioQueue) ← lift (Q.extractMin t.prioQueue)
        if fhNode.2 = targetNodeId then
          constructPath val fuel sourceNodeId targetNodeId t.parents
        else
          let rels ← expand fuel fhNode.2 direction
          let t ← lift (PathSearch.forRels (PathSearch.relaxGuided val heuristic fhNode.2) rels
            { t with prioQueue := prioQueue })
          aStarLoop heuristic fuel sourceNodeId targetNodeId direction turns t
      else pure ⟨sourceNodeId, targetNodeId, ⊤, []⟩

/-- `a_star`. -/
def aStar (fuel : ℕ) (heuristic : DistDict) (sourceNodeId targetNodeId : Ulong)
    (direction : Direction) : HF Path := do
  if sourceNodeId = uninitializedLong ∨ targetNodeId = uninitializedLong then
    exit "a-star: Invalid Arguments!"
  else
    let t ← lift (PathSearch.start Q ∅ (.of ⊤) 0 sourceNodeId)
    aStarLoop Q val heuristic fuel sourceNodeId targetNodeId direction fuel t

end HF

/-! ### The searches that `a_star` comes to -/

namespace PathSearch

variable {Q : PrioQueue Total} (expands : Ulong → List Relationship → Prop) (val : Double → ℚ)
  (heuristic : DistDict) (source target : Ulong)

/-- A turn of the loop of `a_star` that is not the last one; `expands` gives the relationships of a
node. -/
inductive Turn (t t' : PathSearch Q) : Prop
  | go {fhNode : Total × Ulong} {prioQueue : Q.Carrier} {rels : List Relationship}
      (hnum : Q.numNodes t.prioQueue > 0) (hx : Q.extractMin t.prioQueue = .ok (fhNode, prioQueue))
      (hne : fhNode.2 ≠ target) (hrels : expands fhNode.2 rels)
      (ht : forRels (relaxGuided val heuristic fhNode.2) rels { t with prioQueue := prioQueue } =
        .ok t')

/-- `a_star` comes to the search `t` after some turns. -/
def Comes (t : PathSearch Q) : Prop := ∃ t₀, start Q ∅ (.of ⊤) 0 source = .ok t₀ ∧
  Relation.ReflTransGen (Turn expands val heuristic target) t₀ t

/-- Whenever `a_star` asks the queue for an entry, the queue fits. -/
def Fitting (fits : Q.Carrier → Prop) : Prop := ∀ t : PathSearch Q,
  t.Comes expands val heuristic source target → Q.numNodes t.prioQueue > 0 → fits t.prioQueue

/-- From the search `t` on the queue fits whenever it is asked for an entry. -/
def FitsFrom (fits : Q.Carrier → Prop) (t : PathSearch Q) : Prop := ∀ t' : PathSearch Q,
  Relation.ReflTransGen (Turn expands val heuristic target) t t' → Q.numNodes t'.prioQueue > 0 →
    fits t'.prioQueue

variable {expands val heuristic source target} {fits : Q.Carrier → Prop} {t t' : PathSearch Q}

theorem FitsFrom.turn (h : t.FitsFrom expands val heuristic target fits)
    (ht : t.Turn expands val heuristic target t') : t'.FitsFrom expands val heuristic target fits :=
  fun t'' ht'' => h t'' (.head ht ht'')

theorem Fitting.from_start (h : Fitting expands val heuristic source target fits)
    (ht : start Q ∅ (.of ⊤) 0 source = .ok t) : t.FitsFrom expands val heuristic target fits :=
  fun t' ht' => h t' ⟨t, ht, ht'⟩

/-- With more relationships there are more turns. -/
theorem Comes.mono {expands' : Ulong → List Relationship → Prop}
    (h : t.Comes expands' val heuristic source target)
    (hsub : ∀ n rels, expands' n rels → expands n rels) :
    t.Comes expands val heuristic source target := by
  obtain ⟨t₀, hstart, ht⟩ := h
  refine ⟨t₀, hstart, Relation.ReflTransGen.mono (fun a b hab => ?_) _ _ ht⟩
  cases hab with
  | go hnum hx hne hrels ht => exact .go hnum hx hne (hsub _ _ hrels) ht

theorem Fitting.mono {expands' : Ulong → List Relationship → Prop}
    (h : Fitting expands val heuristic source target fits)
    (hsub : ∀ n rels, expands' n rels → expands n rels) :
    Fitting expands' val heuristic source target fits := fun t ht => h t (ht.mono hsub)

end PathSearch

/-! ### Paths and heuristics -/

namespace Graph

variable (g : Graph) (val : Double → ℚ) (h : Ulong → ℚ)

/-- The relationship `x` leads from a node that is reached to `v`. -/
def ReachedLeads (direction : Direction) (source u x v : Ulong) : Prop :=
  g.Reaches direction source u ∧ g.Leads direction u x v

/-- A path from `source` to `v` has the total weight `k`, and `m` with the heuristics of its nodes but
the last. -/
def Guided (direction : Direction) (source : Ulong) (m k : ℚ) (v : Ulong) : Prop :=
  Weighs (g.Leads direction) (fun u x => (g.weight val x + h u, g.weight val x)) source (m, k) v

/-- The relationships lead one after the other from a node to another in the direction. -/
inductive Route (direction : Direction) : Ulong → List Ulong → Ulong → Prop
  | nil (u : Ulong) : Route direction u [] u
  | cons {u x v w : Ulong} {edges : List Ulong} (hx : g.Leads direction u x v)
      (h : Route direction v edges w) : Route direction u (x :: edges) w

/-- The heuristic is zero at the target and consistent along the relationships. -/
structure Consistent (direction : Direction) (target : Ulong) : Prop where
  target : h target = 0
  step : ∀ u x v, g.Leads direction u x v → h u ≤ g.weight val x + h v

/-- With heuristics no relationship on the way is negative, and the paths that then are the least are
the least by their weights alone. -/
structure Steers (direction : Direction) (source target : Ulong) : Prop where
  ne : source ≠ target
  nonneg : ∀ u x v, g.ReachedLeads direction source u x v →
    0 ≤ g.weight val x + h u
  least : ∀ m k, g.Guided val h direction source m k target →
    (∀ m' k', g.Guided val h direction source m' k' target → m ≤ m') →
    ∀ k', g.Path val direction source k' target → k ≤ k'

end Graph

/-- The path has the least weight of all paths; there is none if its distance is `DBL_MAX`. -/
structure Path.Optimal (p : Path) (g : Graph) (val : Double → ℚ) (direction : Direction)
    (source target : Ulong) : Prop where
  reached : g.Reaches direction source target → ∃ k : ℚ, p.distance = k ∧
    IsLeast {k | g.Path val direction source k target} k ∧ (source = target → p.edges = [])
  unreached : ¬ g.Reaches direction source target → p.distance = ⊤ ∧ p.edges = []

/-- The distance is the weight of a path that is the least with heuristics. -/
inductive Path.Guided (p : Path) (g : Graph) (val : Double → ℚ) (h : Ulong → ℚ)
    (direction : Direction) (source target : Ulong) : Prop
  | reached {m k : ℚ} (hg : g.Guided val h direction source m k target)
      (hm : ∀ m' k', g.Guided val h direction source m' k' target → m ≤ m') (hd : p.distance = k)
  | unreached (hr : ¬ g.Reaches direction source target) (hd : p.distance = ⊤) (he : p.edges = [])

namespace Graph

variable {g : Graph} {val : Double → ℚ} {h : Ulong → ℚ} {direction : Direction}
  {source v : Ulong} {m k : ℚ}

theorem Route.concat {u v w x : Ulong} {edges : List Ulong} (h : g.Route direction u edges v)
    (hx : g.Leads direction v x w) : g.Route direction u (edges ++ [x]) w := by
  induction h with
  | nil u => exact .cons hx (.nil w)
  | cons hy _ ih => exact .cons hy (ih hx)

theorem Guided.path (hg : g.Guided val h direction source m k v) :
    g.Path val direction source k v := hg.map (AddMonoidHom.snd ℚ ℚ)

theorem Path.exists_guided (hp : g.Path val direction source k v) (h : Ulong → ℚ) :
    ∃ m, g.Guided val h direction source m k v := hp.exists_prod _

/-- **Without heuristics** there is nothing to lead the search astray. -/
theorem steers_zero {target : Ulong} (hval : ∀ x r, g.rel x = some r → 0 ≤ val r.weight)
    (hne : source ≠ target) : g.Steers val (fun _ => 0) direction source target := by
  have hsame : ∀ {m k v}, g.Guided val (fun _ => 0) direction source m k v → m = k := by
    intro m k v hg
    have hmap : ∀ {p : ℚ × ℚ} {v}, Weighs (g.Leads direction)
        (fun _ x => (g.weight val x + 0, g.weight val x)) source p v → p.1 = p.2 := by
      intro p v hp
      induction hp with
      | refl => rfl
      | step _ _ ih => rw [Prod.fst_add, Prod.snd_add, ih, add_zero]
    exact hmap hg
  refine ⟨hne, fun u x v he => ?_, fun m k hg hm k' hk' => ?_⟩
  · rw [add_zero]
    exact g.weight_nonneg hval direction u x v he.2
  · obtain ⟨m', hm'⟩ := hk'.exists_guided fun _ => 0
    rw [← hsame hg, ← hsame hm']
    exact hm m' k' hm'

theorem reaches_of_weighs {weight : Ulong → Ulong → ℚ}
    (hw : Weighs (g.ReachedLeads direction source) weight source k v) :
    g.Reaches direction source v := by
  induction hw with
  | refl => exact .refl
  | step _ he ih => exact ih.tail ⟨_, he.2⟩

/-- On the way everything is reached. -/
theorem Guided.weighs (hg : g.Guided val h direction source m k v) :
    Weighs (g.ReachedLeads direction source) (fun u x => g.weight val x + h u) source m v := by
  have hreach : ∀ {p : ℚ × ℚ} {v}, Weighs (g.Leads direction)
      (fun u x => (g.weight val x + h u, g.weight val x)) source p v →
      Weighs (g.ReachedLeads direction source) (fun u x => g.weight val x + h u) source p.1 v := by
    intro p v hp
    induction hp with
    | refl => exact .refl
    | step hv he ih => exact .step ih ⟨Graph.Path.reaches (hv.map (AddMonoidHom.snd ℚ ℚ)), he⟩
  exact hreach hg

end Graph

/-! ### The loop relaxes relationships -/

namespace Store

/-- `expand` returns the relationships of a node. -/
def Expands (s : Store) (direction : Direction) (n : Ulong) (rels : List Relationship) : Prop :=
  ∃ N, ∀ fuel ≥ N, ∃ s₁, run (HF.expand fuel n direction) s = .ok (rels, s₁)

variable {s : Store} {Q : PrioQueue Total} {fits : Q.Carrier → Prop} {L : Q.LawfulIn fits}
  {val : Double → ℚ} {est : Ulong → ℚ} {heuristic : DistDict} {fuel : ℕ} {direction : Direction}
  {source target h : Ulong}
  {p : PathSearch Q} {t : Labels Ulong Ulong ℚ} {queue : Multiset (WithTop ℚ × Ulong)}

/-- The dictionaries and the queue hold the labels that are not infinite. -/
structure HoldsFinite (L : Q.LawfulIn fits) (p : PathSearch Q) (t : Labels Ulong Ulong ℚ)
    (queue : Multiset (WithTop ℚ × Ulong)) : Prop where
  parents : ∀ v, p.parents.lookup v = (t.pred v).map Prod.snd
  distance : ∀ v, p.distance.lookup v = if t.dist v = ⊤ then none else some (.of (t.dist v))
  entries : L.Has p.prioQueue (queue.map (Prod.map Total.of id))

theorem HoldsFinite.improve (hp : HoldsFinite L p t queue) (w x : Ulong) {d : WithTop ℚ}
    (hd : d ≠ ⊤) : ∃ p', p.improve w x (.of d) = .ok p' ∧
      HoldsFinite L p' (t.lower h x w d) ((d, w) ::ₘ queue) := by
  obtain ⟨q, hinsert, hq⟩ := L.insert _ _ (.of d) w hp.entries
  refine ⟨⟨p.parents.insert w x, p.distance.insert w (.of d), q⟩,
    by rw [PathSearch.improve, hinsert]; rfl, fun v => ?_, fun v => ?_, ?_⟩
  · by_cases hv : v = w
    · rw [hv, AList.lookup_insert, Labels.pred_lower_self]
      rfl
    · rw [AList.lookup_insert_ne hv, Labels.pred_lower_of_ne hv, hp.parents]
  · by_cases hv : v = w
    · rw [hv, AList.lookup_insert, Labels.dist_lower_self, if_neg hd]
    · rw [AList.lookup_insert_ne hv, Labels.dist_lower_of_ne hv, hp.distance]
  · rw [Multiset.map_cons]
    exact hq

theorem HoldsFinite.mem_iff (hp : HoldsFinite L p t queue) {v : Ulong} :
    v ∈ p.distance ↔ t.dist v ≠ ⊤ := by
  rw [← AList.lookup_isSome, hp.distance]
  split
  · rename_i hv
    exact iff_of_false (fun h => by cases h) fun hn => hn hv
  · rename_i hv
    exact iff_of_true rfl hv

theorem HoldsFinite.getDirect_ok (hp : HoldsFinite L p t queue) {v : Ulong} (hv : t.dist v ≠ ⊤) :
    p.distance.getDirect v = .ok (.of (t.dist v)) :=
  NumDict.getDirect_ok (by rw [hp.distance, if_neg hv])

/-- **The relationships of a node** are relaxed, and its heuristic counts with each. -/
theorem relaxGuidedAll_ok (hest : heuristic.lookup h = some (est h : WithTop ℚ)) (rels : List Relationship) :
    ∀ {p : PathSearch Q} {t : Labels Ulong Ulong ℚ} {queue : Multiset (WithTop ℚ × Ulong)},
    HoldsFinite L p t queue → t.dist h ≠ ⊤ → (∀ r ∈ rels, s.graph.rel r.id = some r) →
    ∃ p', PathSearch.forRels (PathSearch.relaxGuided val heuristic h) rels p = .ok p' ∧
      HoldsFinite L p'
        (relaxEdges (fun u x => s.graph.weight val x + est u) h (edgesFrom h rels) t queue).1
        (relaxEdges (fun u x => s.graph.weight val x + est u) h (edgesFrom h rels) t queue).2 := by
  induction rels with
  | nil => exact fun {p t queue} hp _ _ => ⟨p, rfl, hp⟩
  | cons r rels ih =>
      intro p t queue hp hh hrels
      have hrels' : ∀ r ∈ rels, s.graph.rel r.id = some r :=
        fun r' hr' => hrels r' (List.mem_cons_of_mem _ hr')
      have hweight : s.graph.weight val r.id = val r.weight := by
        rw [Graph.weight, hrels r List.mem_cons_self]
        rfl
      have hadd : Total.of (t.dist h) + .of (val r.weight) + .of (est h) =
          .of (t.dist h + ((val r.weight + est h : ℚ) : WithTop ℚ)) := by
        rw [Total.of_add_coe, Total.of_add_coe, add_assoc, WithTop.coe_add]
      have hd : t.dist h + ((val r.weight + est h : ℚ) : WithTop ℚ) ≠ ⊤ :=
        WithTop.add_ne_top.mpr ⟨hh, WithTop.coe_ne_top⟩
      rw [PathSearch.forRels, PathSearch.relaxGuided, hp.getDirect_ok hh, ok_bind,
        NumDict.getDirect_ok hest, ok_bind, hadd, edgesFrom, List.map_cons, relaxEdges, hweight]
      obtain ⟨p₁, h₁, hp₁⟩ := hp.improve (h := h) (r.otherEnd h) r.id hd
      have hbetter := ih hp₁ (Labels.dist_lower_ne_top hh hd) hrels'
      by_cases htop : t.dist (r.otherEnd h) = ⊤
      · rw [if_neg (fun hm => hp.mem_iff.mp hm htop), htop, if_pos (lt_top_iff_ne_top.mpr hd), h₁]
        exact hbetter
      · rw [if_pos (hp.mem_iff.mpr htop), hp.getDirect_ok htop, ok_bind]
        by_cases hlt : t.dist (r.otherEnd h) > t.dist h + ((val r.weight + est h : ℚ) : WithTop ℚ)
        · rw [if_pos (Total.of_lt_of.mpr hlt), if_pos hlt, h₁]
          exact hbetter
        · rw [if_neg (fun hlt' => hlt (Total.of_lt_of.mp hlt')), if_neg hlt]
          exact ih hp hh hrels'

/-! ### The path -/

theorem nodeBefore_of_leads {x : Ulong} {r : Relationship} {u v : Ulong}
    (hl : s.graph.Leads direction u x v) (hr : s.graph.rel x = some r) : r.nodeBefore v = u := by
  obtain ⟨r', hr', hg, rfl⟩ := hl
  obtain rfl := Option.some.inj (hr.symm.trans hr')
  rw [Relationship.nodeBefore, Relationship.otherEnd]
  rcases hg.at with rfl | rfl
  · rw [if_pos rfl, if_pos rfl]
  · by_cases e : r.targetNode = r.sourceNode
    · rw [if_pos e, if_pos rfl, e]
    · rw [if_neg e, if_neg e]

variable (val) in
/-- **`construct_path`** follows the predecessors back to the source, one relationship a turn. -/
theorem run_constructPathLoop {K : Type} [AddCommMonoid K] [LinearOrder K] (hv : s.Valid)
    {t : Labels Ulong Ulong K} {parents : Dict} {weight : Ulong → Ulong → K}
    (hedge : ∀ v u x, t.pred v = some (u, x) → s.graph.Leads direction u x v)
    (hroot : t.pred source = none) (hp : ∀ v, parents.lookup v = (t.pred v).map Prod.snd) {m : K}
    {nodes : List Ulong} {v : Ulong} (hc : t.Climbs weight source m nodes v) (hne : v ≠ source) :
    ∃ k edges, Weighs (s.graph.Leads direction) (fun u x => (weight u x, s.graph.weight val x)) source
        (m, k) v ∧
      s.graph.Route direction source edges.reverse v ∧ k = (edges.map (s.graph.weight val)).sum ∧
      ∀ turns acc d, run (HF.constructPathLoop val source parents turns v acc d) s =
        if edges.length ≤ turns then .ok ((acc ++ edges, d + k), s) else .error .diverge := by
  -- by induction on the way from the source to the node; the loop takes it backwards
  induction hc with
  | root => exact absurd rfl hne
  | @step m nodes u v x hpred hl hu ih =>
      have hleads := hedge _ _ _ hpred
      obtain ⟨r, hr, -, -⟩ := id hleads
      have hweight : s.graph.weight val x = val r.weight := by
        rw [Graph.weight, hr]
        rfl
      have hget : parents.getDirect v = .ok x := Dict.getDirect_ok (by rw [hp, hpred]; rfl)
      have hturn : ∀ turns acc d,
          run (HF.constructPathLoop val source parents (turns + 1) v acc d) s =
            run (if u = source then pure (acc ++ [x], d + val r.weight)
              else HF.constructPathLoop val source parents turns u (acc ++ [x])
                (d + val r.weight)) s := by
        intro turns acc d
        rw [run, HF.constructPathLoop, Prog.run_bind_ok _ (run_lift hget s),
          Prog.run_bind_ok _ (run_readRelationship hv hr), nodeBefore_of_leads hleads hr]
      by_cases hu' : u = source
      · subst hu'
        cases hu with
        | root =>
            refine ⟨0 + s.graph.weight val x, [x], .step .refl hleads, .cons hleads (.nil v), ?_,
              fun turns acc d => ?_⟩
            · rw [List.map_singleton, List.sum_singleton, zero_add]
            · cases turns with
              | zero => rfl
              | succ turns =>
                  have hlen : [x].length ≤ turns + 1 := Nat.succ_le_succ (Nat.zero_le turns)
                  rw [hturn, if_pos rfl, if_pos hlen, hweight, zero_add]
                  rfl
        | step hpred' _ _ =>
            rw [hroot] at hpred'
            cases hpred'
      · obtain ⟨k, edges, hk, hroute, hsum, hrun⟩ := ih hu'
        refine ⟨k + s.graph.weight val x, x :: edges, .step hk hleads, ?_, ?_, fun turns acc d => ?_⟩
        · rw [List.reverse_cons]
          exact hroute.concat hleads
        · rw [List.map_cons, List.sum_cons, hsum, add_comm]
        · cases turns with
          | zero => rfl
          | succ turns =>
              rw [hturn, if_neg hu', hrun turns, hweight, List.append_assoc, List.singleton_append,
                add_right_comm, ← add_assoc]
              simp only [List.length_cons, Nat.add_le_add_iff_right]

variable (val) in
/-- `construct_path` of a node that leads back to the source. -/
theorem run_constructPath_of_climbs {K : Type} [AddCommMonoid K] [LinearOrder K] (hv : s.Valid)
    (hsrc : source ≠ uninitializedLong) (htgt : target ≠ uninitializedLong) (hne : source ≠ target)
    {t : Labels Ulong Ulong K} {parents : Dict} {weight : Ulong → Ulong → K}
    (hedge : ∀ v u x, t.pred v = some (u, x) → s.graph.Leads direction u x v)
    (hroot : t.pred source = none) (hp : ∀ v, parents.lookup v = (t.pred v).map Prod.snd) {m : K}
    {nodes : List Ulong} (hc : t.Climbs weight source m nodes target) :
    ∃ (k : ℚ) (edges : List Ulong), Weighs (s.graph.Leads direction)
        (fun u x => (weight u x, s.graph.weight val x)) source (m, k) target ∧
      s.graph.Route direction source edges.reverse target ∧
      k = (edges.map (s.graph.weight val)).sum ∧
      ∀ fuel, run (HF.constructPath val fuel source target parents) s =
        if edges.length ≤ fuel then .ok (⟨source, target, k, edges.reverse⟩, s)
        else .error .diverge := by
  obtain ⟨k, edges, hk, hroute, hsum, hrun⟩ :=
    run_constructPathLoop val hv hedge hroot hp hc hne.symm
  refine ⟨k, edges, hk, hroute, hsum, fun fuel => ?_⟩
  rw [run, HF.constructPath, if_neg (not_or.mpr ⟨hsrc, htgt⟩)]
  have hloop := hrun fuel [] 0
  split
  · rename_i hle
    rw [if_pos hle] at hloop
    rw [Prog.run_bind_ok _ hloop, List.nil_append, zero_add]
    rfl
  · rename_i hle
    rw [if_neg hle] at hloop
    exact Prog.run_bind_error _ hloop _

/-! ### The loop of `a_star` -/

/-- The loop, after an entry is extracted. -/
theorem run_aStarLoop_turn {p : PathSearch Q} {x : Total × Ulong} {q : Q.Carrier}
    (hnum : Q.numNodes p.prioQueue > 0) (hx : Q.extractMin p.prioQueue = .ok (x, q))
    (turns fuel : ℕ) :
    run (HF.aStarLoop Q val heuristic fuel source target direction (turns + 1) p) s =
      run (if x.2 = target then HF.constructPath val fuel source target p.parents
        else do
          let rels ← HF.expand fuel x.2 direction
          let t ← HF.lift (PathSearch.forRels (PathSearch.relaxGuided val heuristic x.2) rels
            { p with prioQueue := q })
          HF.aStarLoop Q val heuristic fuel source target direction turns t) s := by
  rw [run, HF.aStarLoop, if_pos hnum, Prog.run_bind_ok _ (run_lift hx s)]

/-- An entry with the least key is taken, until it is that of the target. -/
def TakesLeast (target : Ulong) (x : WithTop ℚ × Ulong) (rest : Multiset (WithTop ℚ × Ulong)) : Prop :=
  (∀ y ∈ rest, x.1 ≤ y.1) ∧ x.2 ≠ target

/-- **The loop** returns a path that is the least with heuristics. -/
theorem Walkable.run_aStarLoop (hs : s.Walkable) (hsrc : s.Live .node source)
    (htgt : s.Live .node target) (hne : source ≠ target)
    (hest : ∀ v, s.Live .node v → heuristic.lookup v = some (est v : WithTop ℚ)) (hL : L.Least)
    (hpos : ∀ u x v, s.graph.ReachedLeads direction source u x v →
      0 ≤ s.graph.weight val x + est u) : ∀ t queue,
    Relax (s.graph.ReachedLeads direction source) (fun u x => s.graph.weight val x + est u)
      (TakesLeast target) source t none queue → ∀ p : PathSearch Q, HoldsFinite L p t queue →
    p.FitsFrom (s.Expands direction) val heuristic target fits →
    ∃ N path, (∀ turns ≥ N, ∀ fuel ≥ N,
      run (HF.aStarLoop Q val heuristic fuel source target direction turns p) s = .ok (path, s)) ∧
      path.Guided s.graph val est direction source target := by
  have hv := hs.counted.valid
  have hE : ∀ u x v, s.graph.ReachedLeads direction source u x v → s.graph.Leads direction u x v :=
    fun _ _ _ he => he.2
  refine Relax.turn_induction (mem_nodeIds.mpr hsrc)
    (fun u x v _ he => mem_nodeIds.mpr (hs.leads_live he.2)) hpos
    (hs.finite_weights hE fun u x => s.graph.weight val x + est u) fun t queue ht ih p hp hfits => ?_
  have hS := ht.shortest hpos
  rcases Multiset.empty_or_exists_mem queue with rfl | ⟨y, hy⟩
  · have hnot : ¬ s.graph.Reaches direction source target := by
      intro hr
      obtain ⟨k, hk⟩ := hr.path
      obtain ⟨m, hm⟩ := hk.exists_guided est
      obtain ⟨_, hmem⟩ := ht.exists_mem_queue (fun _ _ h => h.2)
        ((hS.ne_top_iff hpos).mpr ⟨m, hm.weighs⟩)
      exact Multiset.notMem_zero _ hmem
    refine ⟨1, ⟨source, target, ⊤, []⟩, fun turns hturns fuel _ => ?_, .unreached hnot rfl rfl⟩
    obtain ⟨turns, rfl⟩ := Nat.exists_eq_add_of_le' hturns
    rw [run, HF.aStarLoop, L.numNodes _ _ hp.entries, if_neg (by simp)]
    rfl
  · have hnonempty : queue.map (Prod.map Total.of id) ≠ 0 := by
      rw [ne_eq, Multiset.map_eq_zero]
      rintro rfl
      exact Multiset.notMem_zero y hy
    have hpositive : Q.numNodes p.prioQueue > 0 := by
      rw [L.numNodes _ _ hp.entries]
      exact Multiset.card_pos.mpr hnonempty
    have hfit := hfits p .refl hpositive
    obtain ⟨x', q, es, hx, hes, hq⟩ := L.extractMin _ _ hp.entries hnonempty hfit
    -- the entry is one of those that are queued
    obtain ⟨x, hxq, rfl⟩ := Multiset.mem_map.mp (hes ▸ Multiset.mem_cons_self x' es)
    have hleast' := hL _ _ _ _ hp.entries hfit hx
    obtain ⟨rest, rfl⟩ := Multiset.exists_cons_of_mem hxq
    rw [Multiset.map_cons, Multiset.cons_inj_right] at hes
    subst hes
    have hleast : ∀ y ∈ rest, x.1 ≤ y.1 := fun y hy => Total.of_le_of.mp
      (hleast' _ (Multiset.mem_map_of_mem _ (Multiset.mem_cons_of_mem hy)))
    have hfinite := (hS.queued x (Multiset.mem_cons_self _ _)).1
    by_cases hxt : x.2 = target
    · obtain ⟨m, nodes, hc, hm⟩ := hS.climbs_le hfinite
      rw [hxt] at hc
      obtain ⟨k, edges, hk, -, -, hrun⟩ := run_constructPath_of_climbs val hv
        (hv.ne_uninitialized hsrc.2.1) (hv.ne_uninitialized htgt.2.1) hne
        (fun _ _ _ hpred => hE _ _ _ (hS.edge _ _ _ hpred).1) hS.root hp.parents hc
      refine ⟨edges.length + 1, ⟨source, target, k, edges.reverse⟩, fun turns hturns fuel hfuel => ?_,
        .reached hk (fun m' k' hg => ?_) rfl⟩
      · obtain ⟨turns, rfl⟩ := Nat.exists_eq_add_of_le' (Nat.one_le_of_lt hturns)
        rw [run_aStarLoop_turn hpositive hx,
          if_pos (show (Prod.map Total.of id x).2 = target from hxt), hrun,
          if_pos (Nat.le_of_succ_le hfuel)]
      · have hle := hS.least_of_key hpos (hxt ▸ hne.symm) hleast (hxt ▸ hg.weighs)
        exact WithTop.coe_le_coe.mp (hm.trans hle)
    · have hlive := hs.live_of_noted hsrc hS.toNoted hE hfinite
      obtain ⟨k, hk⟩ := WithTop.ne_top_iff_exists.mp hfinite
      have hreach := Graph.reaches_of_weighs (hS.walk x.2 k hk.symm)
      obtain ⟨rels, hrun, hrels⟩ := hs.run_expand hlive direction
      obtain ⟨p₁, h₁, hp₁⟩ := relaxGuidedAll_ok (s := s) (L := L) (hest x.2 hlive) rels
        (p := { p with prioQueue := q }) ⟨hp.parents, hp.distance, hq⟩ hfinite
        fun r hr => ((hrels r).mp hr).1
      obtain ⟨ht₁, hprec⟩ := ht.turn hpos ⟨hleast, hxt⟩ fun y w =>
        (mem_edgesFrom hrels y w).trans ⟨fun he => ⟨hreach, he⟩, fun he => he.2⟩
      obtain ⟨N, path, hrun₂, hpath⟩ := ih _ _ ht₁ hprec p₁ hp₁
        (hfits.turn (.go hpositive hx hxt ⟨_, fun fuel hfuel => ⟨s, hrun fuel hfuel⟩⟩ h₁))
      refine ⟨max (N + 1) (maxPageNo 4096 * 256), path, fun turns hturns fuel hfuel => ?_, hpath⟩
      obtain ⟨hturns', -⟩ := max_le_iff.mp hturns
      obtain ⟨hN, hmax⟩ := max_le_iff.mp hfuel
      obtain ⟨turns, rfl⟩ := Nat.exists_eq_add_of_le' (Nat.one_le_of_lt hturns')
      rw [run_aStarLoop_turn hpositive hx]
      change run (if x.2 = target then _ else HF.expand fuel x.2 direction >>= fun rels =>
        HF.lift (PathSearch.forRels (PathSearch.relaxGuided val heuristic x.2) rels _) >>= _) s = _
      rw [if_neg hxt, run, Prog.run_bind_ok _ (hrun fuel hmax), Prog.run_bind_ok _ (run_lift h₁ s)]
      exact hrun₂ turns (Nat.le_of_succ_le_succ hturns') fuel (Nat.le_of_succ_le hN)

/-- **`a_star`** returns a path that is the least with heuristics, if the source is not the target. -/
theorem Walkable.run_aStar (hs : s.Walkable) (hsrc : s.Live .node source)
    (htgt : s.Live .node target) (hne : source ≠ target)
    (hest : ∀ v, s.Live .node v → heuristic.lookup v = some (est v : WithTop ℚ)) (hL : L.Least)
    (hpos : ∀ u x v, s.graph.ReachedLeads direction source u x v →
      0 ≤ s.graph.weight val x + est u)
    (hfits : PathSearch.Fitting (s.Expands direction) val heuristic source target fits) :
    ∃ N path, (∀ fuel ≥ N,
      run (HF.aStar Q val fuel heuristic source target direction) s = .ok (path, s)) ∧
      path.Guided s.graph val est direction source target := by
  have hv := hs.counted.valid
  have hids : ¬ (source = uninitializedLong ∨ target = uninitializedLong) :=
    not_or.mpr ⟨hv.ne_uninitialized hsrc.2.1, hv.ne_uninitialized htgt.2.1⟩
  obtain ⟨q, hq, hentries⟩ := L.insert _ _ (.of ⊤) source L.create
  have hstart : PathSearch.start Q ∅ (.of ⊤) 0 source =
      .ok ⟨∅, (∅ : NumDict Total).insert source 0, q⟩ := by
    rw [PathSearch.start, hq]
    rfl
  have hp : HoldsFinite L ⟨∅, (∅ : NumDict Total).insert source 0, q⟩ (.start source)
      {(⊤, source)} := by
    refine ⟨fun v => AList.lookup_empty v, fun v => ?_, hentries⟩
    by_cases hvs : v = source
    · subst hvs
      rw [AList.lookup_insert, Labels.dist_start_self, if_neg WithTop.zero_ne_top]
      rfl
    · rw [AList.lookup_insert_ne hvs, Labels.dist_start_of_ne hvs, AList.lookup_empty, if_pos rfl]
  obtain ⟨N, path, hrun, hpath⟩ := hs.run_aStarLoop hsrc htgt hne hest hL hpos _ _ .start _ hp
    (hfits.from_start hstart)
  refine ⟨N, path, fun fuel hfuel => ?_, hpath⟩
  rw [HF.aStar, if_neg hids, run, Prog.run_bind_ok _ (run_lift hstart s)]
  exact hrun fuel hfuel fuel hfuel

/-- There is no predecessor of the source for `construct_path` to begin with. -/
theorem run_aStar_self (hv : s.Valid) (hsrc : s.Live .node source) (L : Q.LawfulIn fits)
    (hfits : PathSearch.Fitting (s.Expands direction) val heuristic source source fits) {path : Path}
    {s' : Store} : run (HF.aStar Q val fuel heuristic source source direction) s ≠ .ok (path, s') := by
  intro hrun
  have hids : ¬ (source = uninitializedLong ∨ source = uninitializedLong) :=
    not_or.mpr ⟨hv.ne_uninitialized hsrc.2.1, hv.ne_uninitialized hsrc.2.1⟩
  obtain ⟨q₀, hq₀, hentries⟩ := L.insert _ _ (.of ⊤) source L.create
  have hstart : PathSearch.start Q ∅ (.of ⊤) 0 source =
      .ok ⟨∅, (∅ : NumDict Total).insert source 0, q₀⟩ := by
    rw [PathSearch.start, hq₀]
    rfl
  have hpositive : Q.numNodes q₀ > 0 := by
    rw [L.numNodes _ _ hentries]
    exact Nat.one_pos
  obtain ⟨x, q, es, hx, hes, -⟩ := L.extractMin _ _ hentries (by simp)
    (hfits.from_start hstart _ .refl hpositive)
  have hxs : x.2 = source := by
    have hmem := Multiset.mem_cons_self x es
    rw [← hes] at hmem
    exact congrArg Prod.snd (Multiset.mem_singleton.mp hmem)
  rw [HF.aStar, if_neg hids, run, Prog.run_bind_ok _ (run_lift hstart s)] at hrun
  cases fuel with
  | zero => cases hrun
  | succ fuel =>
      rw [← run, run_aStarLoop_turn hpositive hx, if_pos hxs, HF.constructPath, if_neg hids] at hrun
      obtain ⟨_, _, hloop, -⟩ := Prog.run_bind_inv _ hrun
      rw [HF.constructPathLoop] at hloop
      obtain ⟨x, _, hget, -⟩ := Prog.run_bind_inv _ hloop
      rw [Dict.getDirect, AList.lookup_empty] at hget
      cases hget

end Store

namespace HeapFile

/-- `expand` returns the relationships of a node. -/
def Expands (hf : HeapFile PhyDatabase) (direction : Direction) (n : Ulong)
    (rels : List Relationship) : Prop :=
  ∃ N, ∀ fuel ≥ N, ∃ hf₁, run (HF.expand fuel n direction) hf = .ok (rels, hf₁)

variable {hf : HeapFile PhyDatabase} {source target : Ulong} {est : Ulong → ℚ}
  {heuristic : DistDict} {Q : PrioQueue Total} {fits : Q.Carrier → Prop} {L : Q.LawfulIn fits}
  {val : Double → ℚ} {direction : Direction}

/-- A run on the pages is a run on the store. -/
theorem expands_iff (hw : hf.WellFormed) {n : Ulong} {rels : List Relationship} :
    hf.Expands direction n rels ↔ (Store.of hf).Expands direction n rels := by
  constructor
  · rintro ⟨N, h⟩
    refine ⟨N, fun fuel hfuel => ?_⟩
    obtain ⟨hf₁, hrun⟩ := h fuel hfuel
    exact ⟨_, (run_inv hw.good hrun).2⟩
  · rintro ⟨N, h⟩
    refine ⟨N, fun fuel hfuel => ?_⟩
    obtain ⟨s₁, hrun⟩ := h fuel hfuel
    obtain ⟨hf₁, hrun', -, -⟩ := run_ok hw.good hrun
    exact ⟨hf₁, hrun'⟩

section Optimal

variable (hw : hf.WellFormed) (hc : (Store.of hf).Counted)
  (hsrc : (Store.of hf).Live .node source) (htgt : (Store.of hf).Live .node target)
  (hest : ∀ v, (Store.of hf).Live .node v → heuristic.lookup v = some (est v : WithTop ℚ))
  (hL : L.Least)
  (hfits : PathSearch.Fitting (hf.Expands direction) val heuristic source target fits)
include hw hc hsrc htgt hest hL hfits

/-- If every path that is the least with heuristics is a shortest one, `a_star` returns one. -/
theorem optimal_of_steers (hsteer : hf.graph.Steers val est direction source target) :
    ∃ p N, (∀ fuel ≥ N, ∃ hf₁,
        run (HF.aStar Q val fuel heuristic source target direction) hf = .ok (p, hf₁)) ∧
      p.Optimal hf.graph val direction source target := by
  have hs := hw.store.walkable hc
  obtain ⟨N, p, hrun, hp⟩ := hs.run_aStar hsrc htgt hsteer.ne hest hL hsteer.nonneg
    (hfits.mono fun _ _ => (expands_iff hw).mpr)
  refine ⟨p, N, fun fuel hfuel => ?_, ?_⟩
  · obtain ⟨hf₁, hrun', -, -⟩ := run_ok hw.good (hrun fuel hfuel)
    exact ⟨hf₁, hrun'⟩
  · cases hp with
    | reached hg hm hd =>
        exact ⟨fun _ => ⟨_, hd, ⟨hg.path, fun k' hk' => hsteer.least _ _ hg hm k' hk'⟩,
          fun e => absurd e hsteer.ne⟩, fun hn => absurd hg.path.reaches hn⟩
    | unreached hr hd he => exact ⟨fun h => absurd h hr, fun _ => ⟨hd, he⟩⟩

/-- What `a_star` returns is the least with heuristics, if it returns a shortest path. -/
theorem guided_of_optimal (hopt : ∃ p N, (∀ fuel ≥ N, ∃ hf₁,
        run (HF.aStar Q val fuel heuristic source target direction) hf = .ok (p, hf₁)) ∧
      p.Optimal hf.graph val direction source target) :
    source ≠ target ∧
    ((∀ u x v, hf.graph.ReachedLeads direction source u x v → 0 ≤ hf.graph.weight val x + est u) →
      hf.graph.Reaches direction source target →
      ∃ m k, hf.graph.Guided val est direction source m k target ∧
        (∀ m' k', hf.graph.Guided val est direction source m' k' target → m ≤ m') ∧
        IsLeast {k | hf.graph.Path val direction source k target} k) := by
  have hs := hw.store.walkable hc
  obtain ⟨p, N, hrun, hopt⟩ := hopt
  have hne : source ≠ target := by
    rintro rfl
    obtain ⟨hf₁, hrun'⟩ := hrun N le_rfl
    exact Store.run_aStar_self hs.counted.valid hsrc L (hfits.mono fun _ _ => (expands_iff hw).mpr)
      (run_inv hw.good hrun').2
  refine ⟨hne, fun hpos hreach => ?_⟩
  obtain ⟨N', p', hrun', hp'⟩ := hs.run_aStar hsrc htgt hne hest hL hpos
    (hfits.mono fun _ _ => (expands_iff hw).mpr)
  obtain ⟨hf₁, hrun₁⟩ := hrun (max N N') (le_max_left _ _)
  have hsame := (run_inv hw.good hrun₁).2.symm.trans (hrun' (max N N') (le_max_right _ _))
  obtain rfl : p = p' := congrArg Prod.fst (Except.ok.inj hsame)
  obtain ⟨k, hk, hleast, -⟩ := hopt.reached hreach
  cases hp' with
  | reached hg hm hd =>
      rw [hk] at hd
      exact ⟨_, _, hg, hm, WithTop.coe_injective hd ▸ hleast⟩
  | unreached hr _ _ => exact absurd hreach hr

end Optimal

end HeapFile

end Goedb
