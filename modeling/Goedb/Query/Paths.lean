import Goedb.Query.AStarHeap

/-!
# Query — paths

`random_walk`, the paths of `a_star` that are not asked to be shortest ones, and
`path_extract_vertices`.

Whatever the heuristic and the order in which the queue gives its entries back, the predecessors that
`a_star` has noted lead back to the source: a note is only overwritten when a distance becomes
strictly less, and none of the weights and heuristics is negative.  So `construct_path` ends, and the
relationships it collects lead from the source to the target (`HeapFile.paths_are_walks`).  The loop ends
as well where the queue does not give back what was never put in, as the Fibonacci heap that fits.
-/

namespace Goedb

open Lib

namespace HF

/-- The loop of `path_extract_vertices`. -/
def pathExtractVerticesLoop : (edges nodes : List Ulong) → HF (List Ulong)
  | [], nodes => pure nodes
  | edge :: edges, nodes => do
      let rel ← readRelationship edge
      match nodes.getLast? with
      | none => exit "List - get: Buffer overflow!"
      | some prevNode =>
          if rel.sourceNode = prevNode then
            pathExtractVerticesLoop edges (nodes ++ [rel.targetNode])
          else if rel.targetNode = prevNode then
            pathExtractVerticesLoop edges (nodes ++ [rel.sourceNode])
          else pathExtractVerticesLoop edges nodes

/-- `path_extract_vertices`. -/
def pathExtractVertices (p : Path) : HF (List Ulong) := pathExtractVerticesLoop p.edges [p.source]

variable (val : Double → ℚ)

/-- The loop of `random_walk`; `rand` gives the outcomes of `rand()` one after the other. -/
def randomWalkLoop (fuel : ℕ) (rand : ℕ → ℕ) (direction : Direction) :
    (steps i : ℕ) → (currentNode : Ulong) → (visitedRels : List Ulong) → (distance : ℚ) →
      HF (Ulong × List Ulong × ℚ)
  | 0, _, currentNode, visitedRels, distance => pure (currentNode, visitedRels, distance)
  | steps + 1, i, currentNode, visitedRels, distance => do
      let curRels ← expand fuel currentNode direction
      if curRels.length = 0 then pure (currentNode, visitedRels, distance)
      else
        match curRels[rand i % curRels.length]? with
        | none => exit "List - get: Buffer overflow!"
        | some rel =>
            randomWalkLoop fuel rand direction steps (i + 1)
              (if rel.sourceNode = currentNode then rel.targetNode else rel.sourceNode)
              (visitedRels ++ [rel.id]) (distance + val rel.weight)

/-- `random_walk`. -/
def randomWalk (fuel : ℕ) (rand : ℕ → ℕ) (nodeId : Ulong) (numSteps : ℕ) (direction : Direction) :
    HF Path := do
  if nodeId = uninitializedLong then exit "DB is NULL or node id uninitialized"
  else
    let (currentNode, visitedRels, distance) ←
      randomWalkLoop val fuel rand direction numSteps 0 nodeId [] 0
    return ⟨nodeId, currentNode, distance, visitedRels⟩

end HF

/-! ### Walks -/

namespace Path

/-- The relationships of the path lead from its source to its target, and it is as long as they are
together. -/
structure Walks (p : Path) (g : Graph) (val : Double → ℚ) (direction : Direction) : Prop where
  route : g.Route direction p.source p.edges p.target
  distance : p.distance = ((p.edges.map (g.weight val)).sum : ℚ)

/-- The nodes are those that the path passes, one after the other. -/
structure Passes (p : Path) (g : Graph) (direction : Direction) (nodes : List Ulong) : Prop where
  length : nodes.length = p.edges.length + 1
  first : nodes.head? = some p.source
  last : nodes.getLast? = some p.target
  joins : ∀ i u x v, nodes[i]? = some u → p.edges[i]? = some x → nodes[i + 1]? = some v →
    g.Leads direction u x v

end Path

namespace PrioQueue

variable {K : Type} {Q : PrioQueue K} {fits : Q.Carrier → Prop}

/-- In these states the queue has an entry to give back while there are nodes, and it does not give more
values back than were put in. -/
structure Sound (Q : PrioQueue K) (fits : Q.Carrier → Prop) where
  Holds : Q.Carrier → Multiset Ulong → Prop
  create : Holds Q.create 0
  insert : ∀ q vs k v, Holds q vs → ∃ q', Q.insert q k v = .ok q' ∧ Holds q' (v ::ₘ vs)
  extractMin : ∀ q vs, Holds q vs → Q.numNodes q > 0 → fits q →
    ∃ x q' vs', Q.extractMin q = .ok (x, q') ∧ x.2 ::ₘ vs' ≤ vs ∧ Holds q' vs'

/-- What is known of a queue and of the values that were put in stays so when an entry is inserted, unless
there is a reason to stop. -/
def Inserts (Q : PrioQueue K) (known : Q.Carrier → Multiset Ulong → Prop) (stops : Prop) : Prop :=
  ∀ q vs k v, known q vs → (∃ e, Q.insert q k v = .error e ∧ stops) ∨
    ∃ q', Q.insert q k v = .ok q' ∧ known q' (v ::ₘ vs)

/-- Of any queue nothing is known. -/
theorem inserts_unknown (Q : PrioQueue K) : Q.Inserts (fun _ _ => True) True := by
  intro q vs k v _
  cases Q.insert q k v with
  | error e => exact .inl ⟨e, rfl, trivial⟩
  | ok q' => exact .inr ⟨q', rfl, trivial⟩

/-- The queue holds some of the values that were put in. -/
def Sound.Some (S : Q.Sound fits) (q : Q.Carrier) (vs : Multiset Ulong) : Prop :=
  ∃ vs' ≤ vs, S.Holds q vs'

theorem Sound.inserts (S : Q.Sound fits) : Q.Inserts S.Some False := by
  rintro q vs k v ⟨vs', hle, hvs'⟩
  obtain ⟨q', hinsert, hq'⟩ := S.insert q vs' k v hvs'
  exact .inr ⟨q', hinsert, _, Multiset.cons_le_cons v hle, hq'⟩

/-- A queue that keeps its entries is one of these. -/
def LawfulIn.sound (L : Q.LawfulIn fits) : Q.Sound fits where
  Holds q vs := ∃ es, L.Has q es ∧ vs = es.map Prod.snd
  create := ⟨0, L.create, (Multiset.map_zero Prod.snd).symm⟩
  insert q vs k v h := by
    obtain ⟨es, hes, rfl⟩ := h
    obtain ⟨q', hinsert, hq'⟩ := L.insert q es k v hes
    exact ⟨q', hinsert, _, hq', (Multiset.map_cons Prod.snd (k, v) es).symm⟩
  extractMin q vs h hnum hfits := by
    obtain ⟨es, hes, rfl⟩ := h
    have hne : es ≠ 0 := by
      rintro rfl
      rw [L.numNodes q 0 hes, Multiset.card_zero] at hnum
      exact hnum.false
    obtain ⟨x, q', es', hx, rfl, hes'⟩ := L.extractMin q es hes hne hfits
    exact ⟨x, q', _, hx, (Multiset.map_cons Prod.snd x es').ge, es', hes', rfl⟩

end PrioQueue

namespace Store

variable {s : Store} {val : Double → ℚ} {fuel : ℕ} {direction : Direction} {u v source : Ulong}

/-! ### `path_extract_vertices` -/

/-- **The loop** adds the nodes to which the relationships lead. -/
theorem run_pathExtractVerticesLoop (hv : s.Valid) {edges : List Ulong} {w : Ulong}
    (h : s.graph.Route direction u edges w) : ∀ nodes : List Ulong, nodes.getLast? = some u →
    ∃ more : List Ulong, run (HF.pathExtractVerticesLoop edges nodes) s = .ok (nodes ++ more, s) ∧
      more.length = edges.length ∧ (u :: more).getLast? = some w ∧
      ∀ (i : ℕ) (a x b : Ulong), (u :: more)[i]? = some a → edges[i]? = some x →
        more[i]? = some b → s.graph.Leads direction a x b := by
  induction h with
  | nil u =>
      intro nodes _
      refine ⟨[], ?_, rfl, rfl, fun i a x b _ hx => by cases hx⟩
      rw [List.append_nil]
      rfl
  | @cons u x v w edges hx _ ih =>
      intro nodes hlast
      obtain ⟨r, hr, hg, hend⟩ := id hx
      obtain ⟨more, hrun, hlen, hmlast, hjoins⟩ := ih (nodes ++ [v]) List.getLast?_concat
      refine ⟨v :: more, ?_, by rw [List.length_cons, List.length_cons, hlen], ?_, ?_⟩
      · have hnext : run (HF.pathExtractVerticesLoop (x :: edges) nodes) s =
            run (HF.pathExtractVerticesLoop edges (nodes ++ [v])) s := by
          rw [run, HF.pathExtractVerticesLoop, Prog.run_bind_ok _ (run_readRelationship hv hr), hlast]
          show run (if r.sourceNode = u then _ else if r.targetNode = u then _ else _) s = _
          rw [Relationship.otherEnd] at hend
          by_cases hsource : r.sourceNode = u
          · rw [if_pos hsource]
            rw [if_pos hsource.symm] at hend
            rw [hend]
          · rw [if_neg hsource, if_pos (hg.at.resolve_left hsource)]
            rw [if_neg (Ne.symm hsource)] at hend
            rw [hend]
        rw [hnext, hrun, List.append_assoc]
        rfl
      · rw [List.getLast?_cons_cons, hmlast]
      · rintro (_ | i) a y b ha hy hb
        · cases ha
          cases hy
          cases hb
          exact hx
        · exact hjoins i a y b ha hy hb

/-- **`path_extract_vertices`** returns the nodes of a path. -/
theorem run_pathExtractVertices (hv : s.Valid) {p : Path}
    (h : s.graph.Route direction p.source p.edges p.target) :
    ∃ nodes, run (HF.pathExtractVertices p) s = .ok (nodes, s) ∧ p.Passes s.graph direction nodes := by
  obtain ⟨more, hrun, hlen, hlast, hjoins⟩ := run_pathExtractVerticesLoop hv h [p.source] rfl
  refine ⟨p.source :: more, hrun, by rw [List.length_cons, hlen], rfl, hlast, ?_⟩
  exact fun i a x b ha hx hb => hjoins i a x b ha hx hb

/-! ### `random_walk` -/

variable (val) in
/-- **The loop** adds relationships that lead on. -/
theorem Walkable.run_randomWalkLoop (hs : s.Walkable) (rand : ℕ → ℕ) (direction : Direction)
    (steps : ℕ) : ∀ (i : ℕ) {u : Ulong}, s.Live .node u →
    ∃ w edges, s.graph.Route direction u edges w ∧
      ∀ fuel ≥ maxPageNo 4096 * 256, ∀ acc d,
        run (HF.randomWalkLoop val fuel rand direction steps i u acc d) s =
          .ok ((w, acc ++ edges, d + (edges.map (s.graph.weight val)).sum), s) := by
  induction steps with
  | zero =>
      intro i u _
      refine ⟨u, [], .nil u, fun fuel _ acc d => ?_⟩
      rw [List.append_nil, List.map_nil, List.sum_nil, add_zero]
      rfl
  | succ steps ih =>
      intro i u hu
      obtain ⟨rels, hrun, hrels⟩ := hs.run_expand hu direction
      by_cases hnil : rels.length = 0
      · refine ⟨u, [], .nil u, fun fuel hfuel acc d => ?_⟩
        rw [run, HF.randomWalkLoop, Prog.run_bind_ok _ (hrun fuel hfuel), if_pos hnil, List.append_nil,
          List.map_nil, List.sum_nil, add_zero]
        rfl
      · have hlt : rand i % rels.length < rels.length := Nat.mod_lt _ (Nat.pos_of_ne_zero hnil)
        obtain ⟨hr, hg⟩ := (hrels _).mp (List.getElem_mem hlt)
        set r := rels[rand i % rels.length]
        have hleads : s.graph.Leads direction u r.id (r.otherEnd u) := ⟨r, hr, hg, rfl⟩
        obtain ⟨w, edges, hroute, hloop⟩ := ih (i + 1) (hs.leads_live hleads)
        refine ⟨w, r.id :: edges, .cons hleads hroute, fun fuel hfuel acc d => ?_⟩
        have hend : (if r.sourceNode = u then r.targetNode else r.sourceNode) = r.otherEnd u := by
          rw [Relationship.otherEnd]
          exact if_congr eq_comm rfl rfl
        have hweight : s.graph.weight val r.id = val r.weight := by
          rw [Graph.weight, hr]
          rfl
        rw [run, HF.randomWalkLoop, Prog.run_bind_ok _ (hrun fuel hfuel), if_neg hnil,
          List.getElem?_eq_getElem hlt]
        show run (HF.randomWalkLoop val fuel rand direction steps (i + 1) (if r.sourceNode = u then
          r.targetNode else r.sourceNode) (acc ++ [r.id]) (d + val r.weight)) s = _
        rw [hend, hloop fuel hfuel, List.append_assoc, List.map_cons, List.sum_cons, hweight, add_assoc]
        rfl

/-- **`random_walk`** returns a walk, whatever the outcomes of `rand()`. -/
theorem Walkable.run_randomWalk (hs : s.Walkable) (hsrc : s.Live .node source) (rand : ℕ → ℕ)
    (numSteps : ℕ) (direction : Direction) : ∃ p : Path, p.source = source ∧
      p.Walks s.graph val direction ∧ ∀ fuel ≥ maxPageNo 4096 * 256,
        run (HF.randomWalk val fuel rand source numSteps direction) s = .ok (p, s) := by
  obtain ⟨w, edges, hroute, hrun⟩ :=
    hs.run_randomWalkLoop val rand direction numSteps 0 hsrc
  refine ⟨⟨source, w, ((edges.map (s.graph.weight val)).sum : ℚ), edges⟩, rfl, ⟨hroute, rfl⟩,
    fun fuel hfuel => ?_⟩
  rw [run, HF.randomWalk, if_neg (hs.counted.valid.ne_uninitialized hsrc.2.1),
    Prog.run_bind_ok _ (hrun fuel hfuel [] 0), zero_add]
  rfl

/-! ### `a_star` -/

section AStar

variable {Q : PrioQueue Total} {known : Q.Carrier → Multiset Ulong → Prop} {stops : Prop}
  {fits : Q.Carrier → Prop} {heuristic : DistDict} {target h : Ulong} {p p' : PathSearch Q}
  {t : Labels Ulong Ulong Total} {queue : Multiset (WithTop Total × Ulong)}

/-- What a relationship adds to the distance of `u`: a node without heuristic is not passed. -/
def guidedWeight (s : Store) (val : Double → ℚ) (heuristic : DistDict) (u x : Ulong) : Total :=
  .of (s.graph.weight val x) + .of ((heuristic.lookup u).getD 0)

/-- The dictionaries hold the labels, and something is known of the queue and the values that are queued. -/
structure HoldsSome (known : Q.Carrier → Multiset Ulong → Prop) (p : PathSearch Q)
    (t : Labels Ulong Ulong Total) (queue : Multiset (WithTop Total × Ulong)) : Prop where
  parents : ∀ v, p.parents.lookup v = (t.pred v).map Prod.snd
  distance : ∀ v d, p.distance.lookup v = some d ↔ t.dist v = (d : WithTop Total)
  values : known p.prioQueue (queue.map Prod.snd)

theorem HoldsSome.mem_iff (hp : HoldsSome known p t queue) {v : Ulong} :
    v ∈ p.distance ↔ t.dist v ≠ ⊤ := by
  rw [← AList.lookup_isSome, Option.isSome_iff_exists, WithTop.ne_top_iff_exists]
  exact exists_congr fun d => (hp.distance v d).trans eq_comm

/-- The search that is returned holds the labels, unless there is a reason to stop. -/
def Relaxed (known : Q.Carrier → Multiset Ulong → Prop) (stops : Prop)
    (r : Except Fault (PathSearch Q)) (t : Labels Ulong Ulong Total)
    (queue : Multiset (WithTop Total × Ulong)) : Prop :=
  (∃ e, r = .error e ∧ stops) ∨ ∃ p, r = .ok p ∧ HoldsSome known p t queue

theorem Relaxed.bind {r : Except Fault (PathSearch Q)}
    {f : PathSearch Q → Except Fault (PathSearch Q)} {t' : Labels Ulong Ulong Total}
    {queue' : Multiset (WithTop Total × Ulong)} (h : Relaxed known stops r t queue)
    (hf : ∀ p, HoldsSome known p t queue → Relaxed known stops (f p) t' queue') :
    Relaxed known stops (r >>= f) t' queue' := by
  rcases h with ⟨e, rfl, hs⟩ | ⟨p, rfl, hp⟩
  · exact .inl ⟨e, rfl, hs⟩
  · exact hf p hp

/-- The distance of a node is lowered, if the queue takes the entry. -/
theorem HoldsSome.improve (hQ : Q.Inserts known stops) (hp : HoldsSome known p t queue) (w x : Ulong)
    (d : Total) : Relaxed known stops (p.improve w x d) (t.lower h x w d) ((d, w) ::ₘ queue) := by
  rw [PathSearch.improve]
  rcases hQ p.prioQueue _ d w hp.values with ⟨e, herror, hs⟩ | ⟨q, hinsert, hq⟩
  · exact .inl ⟨e, by rw [herror]; rfl, hs⟩
  refine .inr ⟨⟨p.parents.insert w x, p.distance.insert w d, q⟩, by rw [hinsert]; rfl, fun v => ?_,
    fun v k => ?_, by rwa [Multiset.map_cons]⟩
  · by_cases hv : v = w
    · rw [hv, AList.lookup_insert, Labels.pred_lower_self]
      rfl
    · rw [AList.lookup_insert_ne hv, Labels.pred_lower_of_ne hv, hp.parents]
  · by_cases hv : v = w
    · rw [hv, AList.lookup_insert, Labels.dist_lower_self, Option.some.injEq, WithTop.coe_inj]
    · rw [AList.lookup_insert_ne hv, Labels.dist_lower_of_ne hv, hp.distance]

/-- At the start the source is queued. -/
theorem HoldsSome.start {source : Ulong} {q : Q.Carrier} (hq : known q {source}) :
    HoldsSome known ⟨∅, (∅ : NumDict Total).insert source 0, q⟩ (.start source) {(⊤, source)} := by
  refine ⟨fun v => AList.lookup_empty v, fun v d => ?_, by rwa [Multiset.map_singleton]⟩
  by_cases hvs : v = source
  · subst hvs
    rw [AList.lookup_insert, Labels.dist_start_self, Option.some.injEq]
    exact (WithTop.coe_inj (a := (0 : Total)) (b := d)).symm
  · rw [AList.lookup_insert_ne hvs, Labels.dist_start_of_ne hvs, AList.lookup_empty]
    exact iff_of_false (fun h => by cases h) fun h => WithTop.coe_ne_top h.symm

variable (val heuristic) in
/-- **The relationships of a node** are relaxed, if it has a heuristic and the queue takes the entries. -/
theorem forRels_guided (hQ : Q.Inserts known stops) (rels : List Relationship) : ∀ {p : PathSearch Q}
    {t : Labels Ulong Ulong Total} {queue : Multiset (WithTop Total × Ulong)},
    HoldsSome known p t queue → t.dist h ≠ ⊤ → (∀ r ∈ rels, s.graph.rel r.id = some r) →
    Relaxed known (heuristic.lookup h = none ∨ stops)
      (PathSearch.forRels (PathSearch.relaxGuided val heuristic h) rels p)
      (relaxEdges (s.guidedWeight val heuristic) h (edgesFrom h rels) t queue).1
      (relaxEdges (s.guidedWeight val heuristic) h (edgesFrom h rels) t queue).2 := by
  have hQ' : Q.Inserts known (heuristic.lookup h = none ∨ stops) := fun q vs k v hq =>
    (hQ q vs k v hq).imp_left fun h => h.imp fun _ h => h.imp_right .inr
  induction rels with
  | nil => exact fun {p t queue} hp _ _ => .inr ⟨p, rfl, hp⟩
  | cons r rels ih =>
      intro p t queue hp hh hrels
      have hrels' : ∀ r ∈ rels, s.graph.rel r.id = some r :=
        fun r' hr' => hrels r' (List.mem_cons_of_mem _ hr')
      obtain ⟨d, hd⟩ := WithTop.ne_top_iff_exists.mp hh
      have hget := NumDict.getDirect_ok ((hp.distance h d).mpr hd.symm)
      rw [PathSearch.forRels, PathSearch.relaxGuided, hget, ok_bind]
      rcases Option.eq_none_or_eq_some (heuristic.lookup h) with hest | ⟨est, hest⟩
      · refine .inl ⟨.exit "htable - get_direct: no such key!", ?_, .inl hest⟩
        rw [NumDict.getDirect, hest]
        rfl
      · have hnew : t.dist h + s.guidedWeight val heuristic h r.id =
            ((d + .of (val r.weight) + .of est : Total) : WithTop Total) := by
          rw [← hd, guidedWeight, hest, Graph.weight, hrels r List.mem_cons_self, Option.getD_some,
            Option.elim_some, ← WithTop.coe_add, ← add_assoc]
        rw [NumDict.getDirect_ok hest, ok_bind, edgesFrom, List.map_cons, relaxEdges, hnew]
        -- the end of the relationship gets the new distance, unless the queue stops
        have hbetter := (hp.improve (h := h) hQ' (r.otherEnd h) r.id
          (d + .of (val r.weight) + .of est)).bind fun p₁ hp₁ =>
            ih hp₁ (Labels.dist_lower_ne_top hh WithTop.coe_ne_top) hrels'
        by_cases htop : t.dist (r.otherEnd h) = ⊤
        · rw [if_neg (fun hm => hp.mem_iff.mp hm htop), htop, if_pos (WithTop.coe_lt_top _)]
          exact hbetter
        · obtain ⟨k, hk⟩ := WithTop.ne_top_iff_exists.mp htop
          rw [if_pos (hp.mem_iff.mpr htop), NumDict.getDirect_ok ((hp.distance _ k).mpr hk.symm),
            ok_bind, ← hk]
          by_cases hlt : d + .of (val r.weight) + .of est < k
          · rw [if_pos hlt, if_pos (WithTop.coe_lt_coe.mpr hlt)]
            exact hbetter
          · rw [if_neg hlt, if_neg (fun h => hlt (WithTop.coe_lt_coe.mp h))]
            exact ih hp hh hrels'

/-- A node without distance has no relationships to relax, or the search stops. -/
theorem forRels_unlabelled (hp : HoldsSome known p t queue) (hh : t.dist h = ⊤) {rels : List Relationship}
    (hrun : PathSearch.forRels (PathSearch.relaxGuided val heuristic h) rels p = .ok p') : p' = p := by
  cases rels with
  | nil =>
      cases hrun
      rfl
  | cons r rels =>
      have hnone : p.distance.lookup h = none := by
        rw [Option.eq_none_iff_forall_not_mem]
        intro d hd
        rw [(hp.distance h d).mp hd] at hh
        exact WithTop.coe_ne_top hh
      rw [PathSearch.forRels, PathSearch.relaxGuided, NumDict.getDirect, hnone] at hrun
      cases hrun

variable (val) in
/-- The predecessors lead from a node that has a distance back to the source, and `construct_path`
follows them. -/
theorem run_constructPath (hv : s.Valid) (hsrc : source ≠ uninitializedLong)
    (htgt : target ≠ uninitializedLong) (hne : source ≠ target)
    (hS : Noted (s.graph.Leads direction) (s.guidedWeight val heuristic) source t)
    (hp : HoldsSome known p t queue) (ht : t.dist target ≠ ⊤) :
    ∃ (path : Path) (N : ℕ), path.source = source ∧ path.target = target ∧
      path.Walks s.graph val direction ∧ ∀ fuel,
        run (HF.constructPath val fuel source target p.parents) s =
          if N ≤ fuel then .ok (path, s) else .error .diverge := by
  obtain ⟨m, nodes, hc, -⟩ := hS.climbs_le ht
  obtain ⟨k, edges, -, hroute, hsum, hrun⟩ := run_constructPath_of_climbs val hv hsrc htgt hne
    (fun _ _ _ hpred => (hS.edge _ _ _ hpred).1) hS.root hp.parents hc
  refine ⟨⟨source, target, k, edges.reverse⟩, edges.length, rfl, rfl, ⟨hroute, ?_⟩, hrun⟩
  rw [hsum, List.map_reverse, List.sum_reverse]

theorem guidedWeight_nonneg (hval : ∀ x r, s.graph.rel x = some r → 0 ≤ val r.weight)
    (hest : ∀ v d, heuristic.lookup v = some d → 0 ≤ d) (direction : Direction) :
    ∀ u x v, s.graph.Leads direction u x v → 0 ≤ s.guidedWeight val heuristic u x := by
  intro u x v he
  have hweight := WithTop.coe_nonneg.mpr (s.graph.weight_nonneg hval direction u x v he)
  refine add_nonneg (Total.of_le_of.mpr hweight) (Total.of_le_of.mpr ?_)
  rcases Option.eq_none_or_eq_some (heuristic.lookup u) with h | ⟨d, h⟩
  · rw [h]
    exact le_refl 0
  · rw [h]
    exact hest u d h

/-- The notes are right in the search `p`. -/
def NotesOf (s : Store) (val : Double → ℚ) (heuristic : DistDict) (direction : Direction)
    (source : Ulong) (p : PathSearch Q) : Prop :=
  ∃ t queue, Noted (s.graph.Leads direction) (s.guidedWeight val heuristic) source t ∧
    HoldsSome (fun _ _ => True) p t queue

/-- They stay right in a turn, whatever the queue does. -/
theorem Walkable.notesOf_turn (hs : s.Walkable)
    (hpos : ∀ u x v, s.graph.Leads direction u x v → 0 ≤ s.guidedWeight val heuristic u x)
    (hp : s.NotesOf val heuristic direction source p)
    (hturn : p.Turn (s.Expands direction) val heuristic target p') :
    s.NotesOf val heuristic direction source p' := by
  obtain ⟨t, queue, hS, hp⟩ := hp
  cases hturn with
  | @go x q rels _ _ _ hexpands hrels =>
      obtain ⟨N, hexpand⟩ := hexpands
      obtain ⟨s₁, hrun⟩ := hexpand (max N (maxPageNo 4096 * 256)) (le_max_left _ _)
      obtain ⟨-, -, hmem⟩ := hs.run_expand_inv (le_max_right _ _) hrun
      have hq : HoldsSome (fun _ _ => True) { p with prioQueue := q } t queue :=
        ⟨hp.parents, hp.distance, trivial⟩
      by_cases hd : t.dist x.2 = ⊤
      · rw [forRels_unlabelled hq hd hrels]
        exact ⟨t, queue, hS, hq⟩
      · rcases forRels_guided val heuristic Q.inserts_unknown rels hq hd (fun r hr => ((hmem r).mp hr).1) with
          ⟨e, herror, -⟩ | ⟨p₂, h₂, hp₂⟩
        · rw [herror] at hrels
          cases hrels
        · obtain rfl : p₂ = p' := Except.ok.inj (h₂.symm.trans hrels)
          exact ⟨_, _, hS.relaxEdges hpos _ hd fun e he => (mem_edgesFrom hmem e.1 e.2).mp he, hp₂⟩

/-- They are right in every search that `a_star` comes to. -/
theorem Walkable.notesOf_of_comes (hs : s.Walkable)
    (hpos : ∀ u x v, s.graph.Leads direction u x v → 0 ≤ s.guidedWeight val heuristic u x)
    (hp : p.Comes (s.Expands direction) val heuristic source target) :
    s.NotesOf val heuristic direction source p := by
  obtain ⟨p₀, hstart, hturns⟩ := hp
  induction hturns with
  | refl =>
      obtain ⟨q, -, hp₀⟩ := Lib.bind_inv hstart
      cases hp₀
      exact ⟨_, _, .start_noted _ _ _, .start trivial⟩
  | tail _ hturn ih => exact hs.notesOf_turn hpos ih hturn

/-- A run of the loop that returns took some turns, and then the queue was empty or gave back the
target. -/
theorem Walkable.run_aStarLoop_inv (hs : s.Walkable) (hfuel : maxPageNo 4096 * 256 ≤ fuel)
    {path : Path} {s' : Store} (turns : ℕ) : ∀ {p : PathSearch Q},
    run (HF.aStarLoop Q val heuristic fuel source target direction turns p) s = .ok (path, s') →
    (s' = s ∧ path = ⟨source, target, ⊤, []⟩) ∨
    ∃ p₁, Relation.ReflTransGen (PathSearch.Turn (s.Expands direction) val heuristic target) p p₁ ∧
      run (HF.constructPath val fuel source target p₁.parents) s = .ok (path, s') := by
  induction turns with
  | zero => exact fun hrun => by cases hrun
  | succ turns ih =>
      intro p hrun
      by_cases hnum : Q.numNodes p.prioQueue > 0
      swap
      · rw [run, HF.aStarLoop, if_neg hnum] at hrun
        cases hrun
        exact .inl ⟨rfl, rfl⟩
      cases hx : Q.extractMin p.prioQueue with
      | error e =>
          rw [run, HF.aStarLoop, if_pos hnum, hx] at hrun
          cases hrun
      | ok r =>
          obtain ⟨x, q⟩ := r
          rw [run_aStarLoop_turn hnum hx] at hrun
          by_cases hxt : x.2 = target
          · rw [if_pos hxt] at hrun
            exact .inr ⟨p, .refl, hrun⟩
          · rw [if_neg hxt] at hrun
            obtain ⟨rels, s₁, hexpand, hrest⟩ := Prog.run_bind_inv _ hrun
            obtain ⟨rfl, hexpands, -⟩ := hs.run_expand_inv hfuel hexpand
            obtain ⟨p₁, s₂, hlift, hloop⟩ := Prog.run_bind_inv _ hrest
            obtain ⟨hrels, rfl⟩ := run_lift_inv hlift
            refine (ih hloop).imp_right ?_
            rintro ⟨p₂, hturns, hpath⟩
            exact ⟨p₂, .head (.go hnum hx hxt ⟨_, fun fuel h => ⟨_, hexpands fuel h⟩⟩ hrels) hturns,
              hpath⟩

/-- `construct_path` of a node without distance stops. -/
theorem run_constructPath_none
    (hS : Noted (s.graph.Leads direction) (s.guidedWeight val heuristic) source t)
    (hp : HoldsSome known p t queue) (hne : source ≠ target) (ht : t.dist target = ⊤) {path : Path}
    {s' : Store} : run (HF.constructPath val fuel source target p.parents) s ≠ .ok (path, s') := by
  intro hrun
  have hnone : t.pred target = none := by
    have := (hS.isSome_pred target hne.symm).not.mpr (not_not.mpr ht)
    rwa [Bool.not_eq_true, Option.isSome_eq_false_iff, Option.isNone_iff_eq_none] at this
  rw [HF.constructPath] at hrun
  split at hrun
  · cases hrun
  · obtain ⟨_, _, hloop, -⟩ := Prog.run_bind_inv _ hrun
    cases fuel with
    | zero => cases hloop
    | succ fuel =>
        rw [HF.constructPathLoop] at hloop
        obtain ⟨_, _, hget, -⟩ := Prog.run_bind_inv _ hloop
        rw [Dict.getDirect, hp.parents, hnone] at hget
        cases hget

/-- **The loop** of `a_star` returns walks, whatever the queue does. -/
theorem Walkable.run_aStarLoop_walks (hs : s.Walkable) (hsrc : s.Live .node source)
    (htgt : target ≠ uninitializedLong) (hne : source ≠ target)
    (hpos : ∀ u x v, s.graph.Leads direction u x v → 0 ≤ s.guidedWeight val heuristic u x)
    (hfuel : maxPageNo 4096 * 256 ≤ fuel) {path : Path} {s' : Store} {turns : ℕ}
    (hstart : PathSearch.start Q ∅ (.of ⊤) 0 source = .ok p)
    (hrun : run (HF.aStarLoop Q val heuristic fuel source target direction turns p) s =
      .ok (path, s')) :
    s' = s ∧ path.source = source ∧ path.target = target ∧
      (path.distance ≠ ⊤ → path.Walks s.graph val direction) := by
  rcases hs.run_aStarLoop_inv hfuel turns hrun with ⟨rfl, rfl⟩ | ⟨p₁, hturns, hpath⟩
  · exact ⟨rfl, rfl, rfl, fun h => absurd rfl h⟩
  obtain ⟨t, queue, hS, hp⟩ := hs.notesOf_of_comes hpos ⟨p, hstart, hturns⟩
  by_cases hd : t.dist target = ⊤
  · exact absurd hpath (run_constructPath_none hS hp hne hd)
  · obtain ⟨path', N, hsource, htarget, hwalks, hpath'⟩ := run_constructPath val hs.counted.valid
      (hs.counted.valid.ne_uninitialized hsrc.2.1) htgt hne hS hp hd
    rw [hpath' fuel] at hpath
    split at hpath
    · cases hpath
      exact ⟨rfl, hsource, htarget, fun _ => hwalks⟩
    · cases hpath

/-- **The loop** ends when the queue does not invent values. -/
theorem Walkable.run_aStarLoop_returns (hs : s.Walkable) (hsrc : s.Live .node source)
    (hne : source ≠ target) (S : Q.Sound fits)
    (hpos : ∀ u x v, s.graph.Leads direction u x v → 0 ≤ s.guidedWeight val heuristic u x)
    (hall : ∀ v, s.Live .node v → v ∈ heuristic) : ∀ t queue,
    Relax (s.graph.Leads direction) (s.guidedWeight val heuristic) (fun _ _ => True) source t none
      queue → ∀ p, HoldsSome S.Some p t queue →
    p.FitsFrom (s.Expands direction) val heuristic target fits →
    ∃ N path, ∀ turns ≥ N, ∀ fuel ≥ N,
      run (HF.aStarLoop Q val heuristic fuel source target direction turns p) s = .ok (path, s) := by
  have hv := hs.counted.valid
  refine Relax.turn_induction (mem_nodeIds.mpr hsrc)
    (fun u x v _ he => mem_nodeIds.mpr (hs.leads_live he)) hpos
    (hs.finite_weights (fun _ _ _ he => he) _) fun t queue ht ih p hp hfits => ?_
  have hS := ht.shortest hpos
  by_cases hnum : Q.numNodes p.prioQueue > 0
  swap
  · refine ⟨1, ⟨source, target, ⊤, []⟩, fun turns hturns fuel _ => ?_⟩
    obtain ⟨turns, rfl⟩ := Nat.exists_eq_add_of_le' hturns
    rw [run, HF.aStarLoop, if_neg hnum]
    rfl
  obtain ⟨vs, hvs, hholds⟩ := hp.values
  obtain ⟨x, q, vs', hx, hle, hq⟩ := S.extractMin _ _ hholds hnum (hfits p .refl hnum)
  -- the value that is extracted is one that is queued
  replace hle := hle.trans hvs
  obtain ⟨y, hy, hyx⟩ := Multiset.mem_map.mp (Multiset.mem_of_le hle (Multiset.mem_cons_self _ _))
  obtain ⟨rest, rfl⟩ := Multiset.exists_cons_of_mem hy
  rw [Multiset.map_cons, hyx, Multiset.cons_le_cons_iff] at hle
  have hdist : t.dist x.2 ≠ ⊤ := hyx ▸ (hS.queued y hy).1
  have hlive := hs.live_of_noted hsrc hS.toNoted (fun _ _ _ he => he) hdist
  by_cases hxt : x.2 = target
  · obtain ⟨path, N, -, -, -, hpath⟩ := run_constructPath val hv
      (hv.ne_uninitialized hsrc.2.1) (hv.ne_uninitialized (hxt ▸ hlive).2.1) hne hS.toNoted hp
      (hxt ▸ hdist)
    refine ⟨N + 1, path, fun turns hturns fuel hfuel => ?_⟩
    obtain ⟨turns, rfl⟩ := Nat.exists_eq_add_of_le' (Nat.one_le_of_lt hturns)
    rw [run_aStarLoop_turn hnum hx, if_pos hxt, hpath, if_pos (Nat.le_of_succ_le hfuel)]
  · obtain ⟨rels, hrun, hrels⟩ := hs.run_expand hlive direction
    have hp' : HoldsSome S.Some { p with prioQueue := q } t rest :=
      ⟨hp.parents, hp.distance, vs', hle, hq⟩
    rcases forRels_guided val heuristic S.inserts rels hp' hdist
      (fun r hr => ((hrels r).mp hr).1) with ⟨e, -, hnone | hstops⟩ | ⟨p₁, h₁, hp₁⟩
    · have hmem := AList.lookup_isSome.mpr (hall x.2 hlive)
      rw [hnone] at hmem
      cases hmem
    · exact hstops.elim
    · obtain ⟨ht₁, hprec⟩ := ht.turn hpos trivial fun y' w => (hyx ▸ mem_edgesFrom hrels y' w :
        (y', w) ∈ edgesFrom x.2 rels ↔ s.graph.Leads direction y.2 y' w)
      rw [hyx] at ht₁ hprec
      obtain ⟨N, path, hN⟩ := ih _ _ ht₁ hprec p₁ hp₁
        (hfits.turn (.go hnum hx hxt ⟨_, fun fuel h => ⟨s, hrun fuel h⟩⟩ h₁))
      refine ⟨max (N + 1) (maxPageNo 4096 * 256), path, fun turns hturns fuel hfuel => ?_⟩
      obtain ⟨hturns', -⟩ := max_le_iff.mp hturns
      obtain ⟨hN', hmax⟩ := max_le_iff.mp hfuel
      obtain ⟨turns, rfl⟩ := Nat.exists_eq_add_of_le' (Nat.one_le_of_lt hturns')
      rw [run_aStarLoop_turn hnum hx, if_neg hxt, run, Prog.run_bind_ok _ (hrun fuel hmax),
        Prog.run_bind_ok _ (run_lift h₁ s)]
      exact hN turns (Nat.le_of_succ_le_succ hturns') fuel (Nat.le_of_succ_le hN')

end AStar

end Store

namespace HeapFile

variable {hf : HeapFile PhyDatabase} {source : Ulong}

/-- `path_extract_vertices` returns the nodes of the path. -/
def Extracts (hf : HeapFile PhyDatabase) (p : Path) (g : Graph) (direction : Direction) : Prop :=
  ∃ nodes hf', run (HF.pathExtractVertices p) hf = .ok (nodes, hf') ∧ p.Passes g direction nodes

theorem extracts (hg : hf.Good) (hv : (Store.of hf).Valid) {p : Path} {direction : Direction}
    (h : hf.graph.Route direction p.source p.edges p.target) :
    hf.Extracts p hf.graph direction := by
  obtain ⟨nodes, hrun, hpasses⟩ := Store.run_pathExtractVertices hv h
  obtain ⟨hf', hrun', -, -⟩ := run_ok hg hrun
  exact ⟨nodes, hf', hrun', hpasses⟩

section Walks

variable (hw : hf.WellFormed) (hc : (Store.of hf).Counted) (hsrc : (Store.of hf).Live .node source)
  {val : Double → ℚ} {direction : Direction}
include hw hc hsrc

theorem randomWalk_walks (rand : ℕ → ℕ) (numSteps : ℕ) :
    ∃ (p : Path) (N : ℕ), p.source = source ∧ p.Walks hf.graph val direction ∧
      ∀ fuel ≥ N, ∃ hf₁, run (HF.randomWalk val fuel rand source numSteps direction) hf =
        .ok (p, hf₁) ∧ hf₁.Extracts p hf.graph direction := by
  obtain ⟨p, hp, hwalks, hrun⟩ := (hw.store.walkable hc).run_randomWalk hsrc rand numSteps direction
  refine ⟨p, maxPageNo 4096 * 256, hp, hwalks, fun fuel hfuel => ?_⟩
  obtain ⟨hf₁, hrun₁, hgood, hof⟩ := run_ok hw.good (hrun fuel hfuel)
  have hgraph : hf₁.graph = hf.graph := congrArg Store.graph hof
  exact ⟨hf₁, hrun₁, hgraph ▸ extracts hgood (hof ▸ hc.valid) (hgraph ▸ hwalks.route)⟩

variable {Q : PrioQueue Total} {fits : Q.Carrier → Prop} {heuristic : DistDict} {target : Ulong}
  (hne : source ≠ target)
  (hpos : ∀ u x v, hf.graph.Leads direction u x v →
    0 ≤ (Store.of hf).guidedWeight val heuristic u x)
include hne hpos

theorem aStar_walks {fuel : ℕ} (hfuel : maxPageNo 4096 * 256 ≤ fuel) {p : Path}
    {hf₁ : HeapFile PhyDatabase}
    (hrun : run (HF.aStar Q val fuel heuristic source target direction) hf = .ok (p, hf₁))
    (hfin : p.distance ≠ ⊤) : p.source = source ∧ p.target = target ∧
      p.Walks hf.graph val direction ∧ hf₁.Extracts p hf.graph direction := by
  have hs := hw.store.walkable hc
  obtain ⟨hgood, hrun'⟩ := run_inv hw.good hrun
  have hids : ¬ (source = uninitializedLong ∨ target = uninitializedLong) := by
    intro h
    rw [HF.aStar, if_pos h] at hrun'
    cases hrun'
  rw [HF.aStar, if_neg hids] at hrun'
  obtain ⟨p₀, s₀, hlift, hloop⟩ := Prog.run_bind_inv _ hrun'
  obtain ⟨hstart, rfl⟩ := Store.run_lift_inv hlift
  obtain ⟨hof, hsource, htarget, hwalks⟩ := hs.run_aStarLoop_walks hsrc (not_or.mp hids).2 hne
    hpos hfuel hstart hloop
  have hgraph : hf₁.graph = hf.graph := congrArg Store.graph hof
  exact ⟨hsource, htarget, hwalks hfin,
    hgraph ▸ extracts hgood (hof ▸ hc.valid) (hgraph ▸ (hwalks hfin).route)⟩

/-- `construct_path` ends, if the target has a distance. -/
theorem constructPath_ends {t : PathSearch Q}
    (ht : t.Comes (hf.Expands direction) val heuristic source target) (htgt : target ∈ t.distance) :
    ∃ (p : Path) (N : ℕ), ∀ fuel ≥ N, ∃ hf₁,
      run (HF.constructPath val fuel source target t.parents) hf = .ok (p, hf₁) := by
  have hs := hw.store.walkable hc
  obtain ⟨l, queue, hS, hp⟩ :=
    hs.notesOf_of_comes hpos (ht.mono fun _ _ => (expands_iff hw).mp)
  have hd := hp.mem_iff.mp htgt
  have hlive := hs.live_of_noted hsrc hS (fun _ _ _ he => he) hd
  obtain ⟨p, N, -, -, -, hpath⟩ := Store.run_constructPath val hc.valid
    (hc.valid.ne_uninitialized hsrc.2.1) (hc.valid.ne_uninitialized hlive.2.1) hne hS hp hd
  refine ⟨p, N, fun fuel hfuel => ?_⟩
  obtain ⟨hf₁, hrun, -, -⟩ := run_ok hw.good ((hpath fuel).trans (if_pos hfuel))
  exact ⟨hf₁, hrun⟩

theorem aStar_returns (S : Q.Sound fits)
    (hfits : PathSearch.Fitting (hf.Expands direction) val heuristic source target fits)
    (hall : ∀ v, (Store.of hf).Live .node v → v ∈ heuristic) (htgt : target ≠ uninitializedLong) :
    ∃ (p : Path) (N : ℕ), ∀ fuel ≥ N, ∃ hf₁,
      run (HF.aStar Q val fuel heuristic source target direction) hf = .ok (p, hf₁) := by
  obtain ⟨q, hinsert, hq⟩ := S.insert _ _ (.of ⊤) source S.create
  have hstart : PathSearch.start Q ∅ (.of ⊤) 0 source =
      .ok ⟨∅, (∅ : NumDict Total).insert source 0, q⟩ := by
    rw [PathSearch.start, hinsert]
    rfl
  obtain ⟨N, p, hN⟩ := (hw.store.walkable hc).run_aStarLoop_returns hsrc hne S hpos hall _ _ .start _
    (.start ⟨_, le_rfl, hq⟩) ((hfits.mono fun _ _ => (expands_iff hw).mpr).from_start hstart)
  refine ⟨p, N, fun fuel hfuel => ?_⟩
  have hrun : Store.run (HF.aStar Q val fuel heuristic source target direction) (Store.of hf) =
      .ok (p, Store.of hf) := by
    rw [HF.aStar, if_neg (not_or.mpr ⟨hc.valid.ne_uninitialized hsrc.2.1, htgt⟩), Store.run,
      Prog.run_bind_ok _ (Store.run_lift hstart _)]
    exact hN fuel hfuel fuel hfuel
  obtain ⟨hf₁, hrun₁, -, -⟩ := run_ok hw.good hrun
  exact ⟨hf₁, hrun₁⟩

end Walks

/-- **The paths are walks.**  `random_walk` returns one for all outcomes of `rand()`.  So does `a_star`
with a distance that is not infinite, whatever its queue does, and `construct_path` ends in every search
that it comes to where the target has a distance.  `a_star` returns if the queue does not invent values
and no heuristic is missing.  `path_extract_vertices` returns the nodes. -/
theorem paths_are_walks (hw : hf.WellFormed) (hc : (Store.of hf).Counted)
    (hsrc : (Store.of hf).Live .node source) (val : Double → ℚ)
    (hval : ∀ x r, hf.graph.rel x = some r → 0 ≤ val r.weight) (direction : Direction) :
    (∀ rand numSteps, ∃ (p : Path) (N : ℕ), p.source = source ∧ p.Walks hf.graph val direction ∧
      ∀ fuel ≥ N, ∃ hf₁, run (HF.randomWalk val fuel rand source numSteps direction) hf =
        .ok (p, hf₁) ∧ hf₁.Extracts p hf.graph direction) ∧
    ∀ (Q : PrioQueue Total) (heuristic : DistDict) (target : Ulong),
      (∀ v d, heuristic.lookup v = some d → 0 ≤ d) → source ≠ target →
      (∃ N, ∀ fuel ≥ N, ∀ (p : Path) hf₁,
        run (HF.aStar Q val fuel heuristic source target direction) hf = .ok (p, hf₁) →
        p.distance ≠ ⊤ → p.source = source ∧ p.target = target ∧ p.Walks hf.graph val direction ∧
          hf₁.Extracts p hf.graph direction) ∧
      (∀ t : PathSearch Q, t.Comes (hf.Expands direction) val heuristic source target →
        target ∈ t.distance → ∃ (p : Path) (N : ℕ), ∀ fuel ≥ N, ∃ hf₁,
          run (HF.constructPath val fuel source target t.parents) hf = .ok (p, hf₁)) ∧
      ∀ fits, Q.Sound fits →
        PathSearch.Fitting (hf.Expands direction) val heuristic source target fits →
        (∀ v, (Store.of hf).Live .node v → v ∈ heuristic) → target ≠ uninitializedLong →
        ∃ (p : Path) (N : ℕ), ∀ fuel ≥ N, ∃ hf₁,
          run (HF.aStar Q val fuel heuristic source target direction) hf = .ok (p, hf₁) := by
  refine ⟨randomWalk_walks hw hc hsrc, fun Q heuristic target hest hne => ?_⟩
  have hpos := Store.guidedWeight_nonneg hval hest direction
  exact ⟨⟨maxPageNo 4096 * 256, fun fuel hfuel p hf₁ => aStar_walks hw hc hsrc hne hpos hfuel⟩,
    fun t => constructPath_ends hw hc hsrc hne hpos,
    fun fits S hfits hall htgt => aStar_returns hw hc hsrc hne hpos S hfits hall htgt⟩

theorem nonneg_insert {heuristic : DistDict} (h : ∀ v d, heuristic.lookup v = some d → 0 ≤ d)
    {w : Ulong} {k : WithTop ℚ} (hk : 0 ≤ k) : ∀ v d, (heuristic.insert w k).lookup v = some d → 0 ≤ d := by
  intro v d hd
  by_cases hv : v = w
  · rw [hv, AList.lookup_insert, Option.some.injEq] at hd
    exact hd ▸ hk
  · rw [AList.lookup_insert_ne hv] at hd
    exact h v d hd

/-- On a detour, with the heap of `a_star`. -/
theorem paths_are_walks_detour : ∃ db hf₀ hf ids, PhyDatabase.create 4096 = .ok db ∧
    create 4096 1000 (PhyDatabase.flat 4096) db = .ok hf₀ ∧
    run (HF.creations 4096 1000 detour) hf₀ = .ok (ids, hf) ∧
    (∃ (p : Path) (N : ℕ), p.source = 0#64 ∧ p.Walks hf.graph detourWeight .outgoing ∧
      ∀ fuel ≥ N, ∃ hf₁, run (HF.randomWalk detourWeight fuel (fun _ => 7) 0#64 3 .outgoing) hf =
        .ok (p, hf₁) ∧ hf₁.Extracts p hf.graph .outgoing) ∧
    ∃ N, ∀ fuel ≥ N, ∃ (p : Path) (hf₁ : _), run (HF.aStar (.fibHeap maxDegree) detourWeight fuel
        (detourHeuristic 4 2) 0#64 2#64 .outgoing) hf = .ok (p, hf₁) ∧
      (p.distance ≠ ⊤ → p.Walks hf.graph detourWeight .outgoing) := by
  obtain ⟨db, hf₀, hf, ids, hdb, hcreate, hrun, h⟩ := exists_detour
  have hest : ∀ (v : Ulong) (d : WithTop ℚ), (detourHeuristic 4 2).lookup v = some d → 0 ≤ d :=
    nonneg_insert (nonneg_insert (nonneg_insert (fun v d hd => by cases hd)
      (WithTop.coe_nonneg.mpr (by norm_num))) (WithTop.coe_nonneg.mpr (by norm_num))) le_rfl
  obtain ⟨hwalk, hstar⟩ := paths_are_walks h.wellFormed h.counted ((h.live_iff 0#64).mpr (.inl rfl))
    detourWeight (fun x r _ => detourWeight_nonneg r.weight) .outgoing
  obtain ⟨⟨N, hN⟩, -, hreturns⟩ := hstar (.fibHeap maxDegree) (detourHeuristic 4 2) 2#64 hest
    (by decide)
  obtain ⟨p, M, hM⟩ := hreturns _ (PrioQueue.fibHeapLawful maxDegree).sound
    (h.fits (4, 2) (by decide)) (fun v hv => by
      rw [← AList.lookup_isSome, h.lookup 4 2 hv]
      rfl) (by decide)
  refine ⟨db, hf₀, hf, ids, hdb, hcreate, hrun, hwalk _ 3, max N M, fun fuel hfuel => ?_⟩
  obtain ⟨hNf, hMf⟩ := max_le_iff.mp hfuel
  obtain ⟨hf₁, hrun₁⟩ := hM fuel hMf
  exact ⟨p, hf₁, hrun₁, fun hfin => (hN fuel hNf p hf₁ hrun₁ hfin).2.2.1⟩

end HeapFile

end Goedb
