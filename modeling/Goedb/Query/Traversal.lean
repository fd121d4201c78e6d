import Goedb.Access.Expand
import Goedb.Lib.Search
import Goedb.Order.Reorder

/-!
# Query — `bfs` and `dfs`

The two functions differ in what they take the next node from, a queue or a stack; both are the loop
of `HF.traverse`.  A node is given its number and its parent when it is pushed.

On a store whose nodes have their cycles of relationships they are searches
(`Store.run_traverse`), so the results of `Lib.Search` hold of the dictionaries that they return.
-/

namespace Goedb

open Lib

/-- `ULONG_MAX`. -/
def ulongMax : Ulong := BitVec.allOnes 64

/-- `traversal_result`. -/
structure TraversalResult where
  source : Ulong
  traversalNumbers : Dict
  parents : Dict

/-- The node that a relationship of `nodeId` joins it with. -/
def Relationship.otherEnd (nodeId : Ulong) (rel : Relationship) : Ulong :=
  if nodeId = rel.sourceNode then rel.targetNode else rel.sourceNode

/-- The dictionaries of a traversal, and the nodes in its queue or on its stack. -/
structure Traversal where
  numbers : Dict
  parents : Dict
  pending : List Ulong

namespace Traversal

/-- What is done with a relationship of `nodeId`. -/
def visit (nodeId : Ulong) (rel : Relationship) (t : Traversal) : Except Fault Traversal := do
  let temp := rel.otherEnd nodeId
  let number ← t.numbers.getDirect temp
  if number = ulongMax then
    let level ← t.numbers.getDirect nodeId
    return ⟨t.numbers.insert temp (level + 1), t.parents.insert temp rel.id, t.pending ++ [temp]⟩
  else return t

/-- The loop over the relationships of a node. -/
def visitAll (nodeId : Ulong) : List Relationship → Traversal → Except Fault Traversal
  | [], t => .ok t
  | rel :: rels, t => do
      let t ← t.visit nodeId rel
      visitAll nodeId rels t

end Traversal

/-- `queue_ul_pop`. -/
def popFirst : List Ulong → Option (Ulong × List Ulong)
  | [] => none
  | x :: l => some (x, l)

/-- `stack_ul_pop`. -/
def popLast (l : List Ulong) : Option (Ulong × List Ulong) := l.getLast?.map (·, l.dropLast)

/-- The loop that gives every node a number. -/
def insertNodes (number : Ulong) : (n : ℕ) → List Node → Dict → Except Fault Dict
  | 0, _, numbers => .ok numbers
  | _ + 1, [], _ => .error (.exit "List - get: Buffer overflow!")
  | n + 1, node :: nodes, numbers => insertNodes number n nodes (numbers.insert node.id number)

namespace HF

/-- The loop of `bfs` and `dfs`. -/
def traverseLoop (pop : List Ulong → Option (Ulong × List Ulong)) (fuel : ℕ) (direction : Direction) :
    (turns : ℕ) → Traversal → HF Traversal
  | 0, _ => abort .diverge
  | turns + 1, t =>
      match pop t.pending with
      | none => pure t
      | some (nodeId, pending) => do
          let rels ← expand fuel nodeId direction
          let t ← lift (Traversal.visitAll nodeId rels { t with pending := pending })
          traverseLoop pop fuel direction turns t

/-- What `bfs` and `dfs` have in common. -/
def traverse (pop : List Ulong → Option (Ulong × List Ulong)) (msg : String) (P fuel : ℕ)
    (sourceNodeId : Ulong) (direction : Direction) : HF TraversalResult := do
  if sourceNodeId = uninitializedLong then exit msg
  else
    let nodes ← getNodes P fuel
    let c ← Prog.perform .getCounters
    let numbers ← lift (insertNodes ulongMax c.nNodes.toNat nodes ∅)
    let t ← traverseLoop pop fuel direction fuel ⟨numbers.insert sourceNodeId 0, ∅, [sourceNodeId]⟩
    return ⟨sourceNodeId, t.numbers, t.parents⟩

/-- `bfs`. -/
def bfs (P fuel : ℕ) (sourceNodeId : Ulong) (direction : Direction) : HF TraversalResult :=
  traverse popFirst "bfs: Invalid Arguments" P fuel sourceNodeId direction

/-- `dfs`. -/
def dfs (P fuel : ℕ) (sourceNodeId : Ulong) (direction : Direction) : HF TraversalResult :=
  traverse popLast "dfs: Invalid Arguments!" P fuel sourceNodeId direction

end HF

/-! ### The edges of a graph -/

/-- The relationship `x` leads from `v` to `w` in the direction. -/
def Graph.Leads (g : Graph) (direction : Direction) (v x w : Ulong) : Prop :=
  ∃ r, g.rel x = some r ∧ r.Goes v direction ∧ r.otherEnd v = w

theorem Relationship.otherEnd_otherEnd {r : Relationship} {v : Ulong} (h : r.At v) :
    r.otherEnd (r.otherEnd v) = v := by
  rcases h with rfl | rfl
  · rw [otherEnd, otherEnd, if_pos rfl]
    split
    · rename_i e
      exact e
    · rfl
  · rw [otherEnd, otherEnd]
    split
    · rfl
    · rw [if_pos rfl]

theorem Relationship.at_otherEnd (r : Relationship) (v : Ulong) : r.At (r.otherEnd v) := by
  rw [otherEnd]
  split
  · exact .inr rfl
  · exact .inl rfl

/-- In both directions an edge leads back. -/
theorem Graph.Leads.symm {g : Graph} {v x w : Ulong} (h : g.Leads .both v x w) :
    g.Leads .both w x v := by
  obtain ⟨r, hr, hg, rfl⟩ := h
  refine ⟨r, hr, ?_, Relationship.otherEnd_otherEnd hg.at⟩
  exact (r.at_otherEnd v).imp (fun h => ⟨h, by decide⟩) fun h => ⟨h, by decide⟩

/-! ### The relationships of a node -/

namespace Store

variable {s : Store} {fuel : ℕ} {direction : Direction} {source h : Ulong}

/-- What a traversal needs of a store: every node has its cycle of relationships, endpoints exist, and
the nodes are counted. -/
structure Walkable (s : Store) : Prop where
  counted : s.Counted
  circular : s.graph.Circular
  endpoints : ∀ x r, s.graph.rel x = some r →
    s.Live .node r.sourceNode ∧ s.Live .node r.targetNode

theorem WellFormed.walkable (hw : s.WellFormed) (hc : s.Counted) : s.Walkable where
  counted := hc
  circular := hw.graph.circular
  endpoints x r hr := by
    obtain ⟨⟨nd, hnd⟩, nd', hnd'⟩ := hw.graph.endpoints x r hr
    exact ⟨(node_eq_some.mp hnd).1, (node_eq_some.mp hnd').1⟩

/-- **`expand`** returns the relationships that go in the direction. -/
theorem Walkable.run_expand (hs : s.Walkable) (hl : s.Live .node h) (direction : Direction) :
    ∃ rels, (∀ fuel ≥ maxPageNo 4096 * 256,
      run (HF.expand fuel h direction) s = .ok (rels, s)) ∧
      ∀ r, r ∈ rels ↔ s.graph.rel r.id = some r ∧ r.Goes h direction := by
  have hv := hs.counted.valid
  have hnd : s.graph.node h = some (s.nodeAt h) := node_eq_some.mpr ⟨hl, rfl⟩
  obtain ⟨l, hw⟩ := hs.circular h _ hnd
  have hlen := walk_length_le hw
  have hpages := hv.pages_lt .relationship
  exact ⟨_, fun fuel hfuel => Store.run_expand hv hnd hw direction (by omega),
    fun r => hw.mem_expand s.keyed⟩

/-- What `expand` returns are the relationships of a node, and it returns them with more fuel too. -/
theorem Walkable.run_expand_inv (hs : s.Walkable) (hfuel : maxPageNo 4096 * 256 ≤ fuel)
    {rels : List Relationship} {s' : Store} (hr : run (HF.expand fuel h direction) s = .ok (rels, s')) :
    s' = s ∧ (∀ fuel ≥ maxPageNo 4096 * 256, run (HF.expand fuel h direction) s = .ok (rels, s)) ∧
      ∀ r, r ∈ rels ↔ s.graph.rel r.id = some r ∧ r.Goes h direction := by
  obtain ⟨nd, s₁, hnode, -⟩ := Prog.run_bind_inv _ hr
  have hlive := (node_eq_some.mp (readNode_inv hs.counted.valid hnode).1).1
  obtain ⟨rels', hrun, hrels⟩ := hs.run_expand hlive direction
  have hsame := Except.ok.inj (hr.symm.trans (hrun fuel hfuel))
  obtain ⟨rfl, rfl⟩ := Prod.mk.inj hsame
  exact ⟨rfl, hrun, hrels⟩

/-! ### A traversal is a search -/

/-- The number that stands for a level. -/
def numberOf (level : Option ℕ) : Ulong := level.elim ulongMax (BitVec.ofNat 64)

/-- The dictionaries hold what is found. -/
structure Represents (s : Store) (numbers parents : Dict) (f : Found Ulong Ulong) : Prop where
  numbers : ∀ v, numbers.lookup v = if s.Live .node v then some (numberOf (f.level v)) else none
  parents : ∀ v, parents.lookup v = (f.parent v).map Prod.snd

/-- The nodes. -/
def nodeIds (s : Store) : Finset Ulong := (s.liveIds .node).toFinset

theorem mem_nodeIds {v : Ulong} : v ∈ s.nodeIds ↔ s.Live .node v := by
  rw [nodeIds, List.mem_toFinset, mem_liveIds]

theorem card_nodeIds_le (s : Store) : s.nodeIds.card ≤ s.pages .node * 256 :=
  (List.toFinset_card_le _).trans (s.length_liveIds_le _)

theorem Walkable.leads_live (hs : s.Walkable) {v x w : Ulong}
    (h : s.graph.Leads direction v x w) : s.Live .node w := by
  obtain ⟨r, hr, -, rfl⟩ := h
  obtain ⟨h₁, h₂⟩ := hs.endpoints x r hr
  rcases r.at_otherEnd v with e | e
  · rwa [← e]
  · rwa [← e]

section Search

variable {Take : List Ulong → Ulong → List Ulong → Prop} {f : Found Ulong Ulong}
  {current : Option Ulong} {queue : List Ulong}

/-- What is found are nodes, and their levels fit into their numbers. -/
theorem Walkable.search_room (hs : s.Walkable) (hsrc : s.Live .node source)
    (hS : Search (s.graph.Leads direction) Take source f current queue) :
    (∀ v, (f.level v).isSome → s.Live .node v) ∧ ∀ v k, f.level v = some k → k < 2 ^ 60 := by
  obtain ⟨hin, hlt⟩ := hS.room (U := s.nodeIds) (mem_nodeIds.mpr hsrc)
    fun v e w _ he => mem_nodeIds.mpr (hs.leads_live he)
  have hcard := card_nodeIds_le s
  have hpages := hs.counted.valid.pages_lt .node
  have hmax : maxPageNo 4096 < 2 ^ 51 := by decide
  refine ⟨fun v hv => mem_nodeIds.mp (hin v hv), fun v k hk => ?_⟩
  have := hlt v k hk
  omega

theorem numberOf_ne_ulongMax {k : ℕ} (hk : k < 2 ^ 60) : numberOf (some k) ≠ ulongMax := by
  intro h
  have := congrArg BitVec.toNat h
  rw [numberOf, Option.elim_some, BitVec.toNat_ofNat, Nat.mod_eq_of_lt (by omega), ulongMax,
    BitVec.toNat_allOnes] at this
  omega

/-- **One relationship** of the node that is expanded. -/
theorem Walkable.visit_ok (hs : s.Walkable) (hsrc : s.Live .node source)
    (hS : Search (s.graph.Leads direction) Take source f (some h) queue)
    {t : Traversal} (hrep : s.Represents t.numbers t.parents f) (hpend : t.pending = queue)
    (hfound : (f.level h).isSome) {r : Relationship} (hr : s.graph.rel r.id = some r)
    (hg : r.Goes h direction) : ∃ t' f', t.visit h r = .ok t' ∧
      Search (s.graph.Leads direction) Take source f' (some h) t'.pending ∧
      s.Represents t'.numbers t'.parents f' ∧ (f'.level (r.otherEnd h)).isSome ∧
      (∀ v, (f.level v).isSome → (f'.level v).isSome) ∧
      (f'.rest s.nodeIds).card + t'.pending.length = (f.rest s.nodeIds).card + queue.length := by
  subst hpend
  have hE : s.graph.Leads direction h r.id (r.otherEnd h) := ⟨r, hr, hg, rfl⟩
  obtain ⟨hin, hlt⟩ := hs.search_room hsrc hS
  obtain ⟨k, hk⟩ := Option.isSome_iff_exists.mp hfound
  have hlook : ∀ {v}, s.Live .node v → t.numbers.getDirect v = .ok (numberOf (f.level v)) :=
    fun hv => Dict.getDirect_ok (by rw [hrep.numbers, if_pos hv])
  have hw := hs.leads_live hE
  rw [Traversal.visit, hlook hw, ok_bind]
  cases hlevel : f.level (r.otherEnd h) with
  | some j =>
      rw [if_neg (numberOf_ne_ulongMax (hlt _ j hlevel))]
      exact ⟨t, f, rfl, hS, hrep, by rw [hlevel]; rfl, fun v hv => hv, rfl⟩
  | none =>
      rw [if_pos (show numberOf none = ulongMax from rfl), hlook (hin h hfound), ok_bind]
      have hnumber : numberOf (f.level h) + 1 = numberOf (some (k + 1)) := by
        rw [hk, numberOf, numberOf, Option.elim_some, Option.elim_some, BitVec.ofNat_add]
        rfl
      refine ⟨_, _, rfl, hS.add hk hlevel hE, ⟨fun v => ?_, fun v => ?_⟩, ?_, fun v hv =>
        Found.isSome_level_add hlevel hv, ?_⟩
      · by_cases hv : v = r.otherEnd h
        · rw [hv, AList.lookup_insert, if_pos hw, Found.level_add_self, hnumber]
        · rw [AList.lookup_insert_ne hv, Found.level_add_of_ne hv, hrep.numbers]
      · by_cases hv : v = r.otherEnd h
        · rw [hv, AList.lookup_insert, Found.parent_add_self]
          rfl
        · rw [AList.lookup_insert_ne hv, Found.parent_add_of_ne hv, hrep.parents]
      · rw [Found.level_add_self]
        rfl
      · have hcard := Found.card_rest_add (h := h) (k := k) (e := r.id) (mem_nodeIds.mpr hw) hlevel
        rw [List.length_append, List.length_singleton]
        omega

/-- **All relationships** of the node that is expanded. -/
theorem Walkable.visitAll_ok (hs : s.Walkable) (hsrc : s.Live .node source)
    (rels : List Relationship) : ∀ {f : Found Ulong Ulong} {t : Traversal},
    Search (s.graph.Leads direction) Take source f (some h) t.pending →
    s.Represents t.numbers t.parents f → (f.level h).isSome →
    (∀ r ∈ rels, s.graph.rel r.id = some r ∧ r.Goes h direction) →
    ∃ t' f', Traversal.visitAll h rels t = .ok t' ∧
      Search (s.graph.Leads direction) Take source f' (some h) t'.pending ∧
      s.Represents t'.numbers t'.parents f' ∧ (∀ r ∈ rels, (f'.level (r.otherEnd h)).isSome) ∧
      (∀ v, (f.level v).isSome → (f'.level v).isSome) ∧
      (f'.rest s.nodeIds).card + t'.pending.length =
        (f.rest s.nodeIds).card + t.pending.length := by
  induction rels with
  | nil => exact fun {f t} hS hrep _ _ =>
      ⟨t, f, rfl, hS, hrep, fun r hr => absurd hr List.not_mem_nil, fun v hv => hv, rfl⟩
  | cons r rels ih =>
      intro f t hS hrep hfound hrels
      obtain ⟨hr, hg⟩ := hrels r List.mem_cons_self
      obtain ⟨t₁, f₁, h₁, hS₁, hrep₁, hend, hkeep, hsize⟩ :=
        hs.visit_ok hsrc hS hrep rfl hfound hr hg
      obtain ⟨t₂, f₂, h₂, hS₂, hrep₂, hends, hkeep', hsize'⟩ := ih hS₁ hrep₁ (hkeep h hfound)
        fun r' hr' => hrels r' (List.mem_cons_of_mem _ hr')
      refine ⟨t₂, f₂, ?_, hS₂, hrep₂, fun r' hr' => ?_, fun v hv => hkeep' v (hkeep v hv),
        hsize'.trans hsize⟩
      · rw [Traversal.visitAll, h₁, ok_bind, h₂]
      · rcases List.mem_cons.mp hr' with rfl | hr'
        · exact hkeep' _ hend
        · exact hends r' hr'

/-- The function takes a node from the pending ones, if there are any. -/
def Pops (pop : List Ulong → Option (Ulong × List Ulong))
    (Take : List Ulong → Ulong → List Ulong → Prop) : Prop :=
  pop [] = none ∧ ∀ queue, queue ≠ [] → ∃ h rest, pop queue = some (h, rest) ∧ Take queue h rest

theorem pops_popFirst : Pops popFirst TakeFirst := by
  refine ⟨rfl, fun queue hne => ?_⟩
  cases queue with
  | nil => exact absurd rfl hne
  | cons x l => exact ⟨x, l, rfl, rfl⟩

theorem pops_popLast : Pops popLast TakeLast := by
  refine ⟨rfl, fun queue hne => ?_⟩
  refine ⟨queue.getLast hne, queue.dropLast, ?_, (List.dropLast_append_getLast hne).symm⟩
  rw [popLast, List.getLast?_eq_some_getLast hne]
  rfl

/-- **The loop** comes to its end: every turn takes a node, and every node is queued once. -/
theorem Walkable.run_traverseLoop (hs : s.Walkable) (hsrc : s.Live .node source)
    {pop : List Ulong → Option (Ulong × List Ulong)} (hpop : Pops pop Take) (hT : TakesOne Take)
    (hfuel : maxPageNo 4096 * 256 ≤ fuel) (turns : ℕ) : ∀ {f : Found Ulong Ulong} {t : Traversal},
    Search (s.graph.Leads direction) Take source f none t.pending →
    s.Represents t.numbers t.parents f →
    (f.rest s.nodeIds).card + t.pending.length < turns →
    ∃ t' f', run (HF.traverseLoop pop fuel direction turns t) s = .ok (t', s) ∧
      Search (s.graph.Leads direction) Take source f' none [] ∧
      s.Represents t'.numbers t'.parents f' := by
  induction turns with
  | zero => exact fun _ _ hlt => absurd hlt (Nat.not_lt_zero _)
  | succ turns ih =>
      intro f t hS hrep hlt
      by_cases hnil : t.pending = []
      · refine ⟨t, f, ?_, hnil ▸ hS, hrep⟩
        rw [run, HF.traverseLoop, hnil, hpop.1]
        rfl
      · obtain ⟨h, rest, hp, ht⟩ := hpop.2 t.pending hnil
        have hperm := hT _ _ _ ht
        have hfound := (hS.forest hT).found h (hperm.mem_iff.mpr List.mem_cons_self)
        obtain ⟨rels, hrun, hrels⟩ := hs.run_expand ((hs.search_room hsrc hS).1 h hfound) direction
        obtain ⟨t₁, f₁, h₁, hS₁, hrep₁, hends, -, hsize⟩ := hs.visitAll_ok hsrc rels
          (t := { t with pending := rest }) (hS.take ht) hrep hfound fun r hr => (hrels r).mp hr
        have hdone : ∀ x w, s.graph.Leads direction h x w → (f₁.level w).isSome := by
          rintro x w ⟨r, hr, hg, rfl⟩
          refine hends r ((hrels r).mpr ⟨?_, hg⟩)
          rw [s.keyed x r hr]
          exact hr
        have hlen := hperm.length_eq
        rw [List.length_cons] at hlen
        obtain ⟨t₂, f₂, h₂, hS₂, hrep₂⟩ := ih (hS₁.done hdone) hrep₁ (by
          rw [hsize]
          show _ + rest.length < turns
          omega)
        refine ⟨t₂, f₂, ?_, hS₂, hrep₂⟩
        rw [run, HF.traverseLoop, hp]
        show run (HF.expand fuel h direction >>= _) s = _
        rw [run, Prog.run_bind_ok _ (hrun fuel hfuel), Prog.run_bind_ok _ (run_lift h₁ s)]
        exact h₂

end Search

/-! ### The two functions -/

/-- Every node gets the number. -/
theorem insertNodes_ok (number : Ulong) (nodes : List Node) : ∀ numbers : Dict,
    insertNodes number nodes.length nodes numbers =
      .ok ((nodes.map Node.id).foldl (fun d id => d.insert id number) numbers) := by
  induction nodes with
  | nil => exact fun _ => rfl
  | cons nd nodes ih => exact fun numbers => ih (numbers.insert nd.id number)

theorem Walkable.insertNodes_ok (hs : s.Walkable) (number : Ulong) : ∃ numbers,
    insertNodes number s.counters.nNodes.toNat ((s.liveIds .node).map s.nodeAt) ∅ = .ok numbers ∧
      ∀ v, numbers.lookup v = if s.Live .node v then some number else none := by
  have hok := Store.insertNodes_ok number ((s.liveIds .node).map s.nodeAt) ∅
  rw [hs.counted.length_nodes, map_id_nodeAt] at hok
  refine ⟨_, hok, fun v => ?_⟩
  rw [Dict.lookup_foldl_insert, AList.lookup_empty]
  simp only [mem_liveIds]

/-- **`bfs` and `dfs`** return what a search has found. -/
theorem Walkable.run_traverse (hs : s.Walkable) (hsrc : s.Live .node source)
    {pop : List Ulong → Option (Ulong × List Ulong)}
    {Take : List Ulong → Ulong → List Ulong → Prop} (hpop : Pops pop Take) (hT : TakesOne Take)
    (hfuel : maxPageNo 4096 * 256 ≤ fuel) (msg : String) (direction : Direction) :
    ∃ r f, run (HF.traverse pop msg 4096 fuel source direction) s = .ok (r, s) ∧
      r.source = source ∧ Search (s.graph.Leads direction) Take source f none [] ∧
      s.Represents r.traversalNumbers r.parents f := by
  have hv := hs.counted.valid
  have hpages := hv.pages_lt .node
  have hcard := card_nodeIds_le s
  obtain ⟨numbers, hinsert, hlook⟩ := hs.insertNodes_ok ulongMax
  have hrep : s.Represents (numbers.insert source 0) ∅ (.start source) := by
    refine ⟨fun v => ?_, fun v => AList.lookup_empty v⟩
    by_cases hvs : v = source
    · subst hvs
      rw [AList.lookup_insert, if_pos hsrc, Found.level_start_self]
      rfl
    · rw [AList.lookup_insert_ne hvs, hlook, Found.level_start_of_ne hvs]
      rfl
  have hrest : ((Found.start source : Found Ulong Ulong).rest s.nodeIds).card < s.nodeIds.card := by
    have hstart : Search (s.graph.Leads direction) Take source (.start source) none [source] := .start
    have := (hstart.room (mem_nodeIds.mpr hsrc) fun v e w _ he =>
      mem_nodeIds.mpr (hs.leads_live he)).2 source 0 Found.level_start_self
    omega
  obtain ⟨t, f, hrun, hS, hrep'⟩ := hs.run_traverseLoop hsrc hpop hT hfuel fuel
    (t := ⟨numbers.insert source 0, ∅, [source]⟩) .start hrep (by
      rw [List.length_singleton]
      omega)
  have hget : run (Prog.perform .getCounters) s = .ok (s.counters, s) := rfl
  refine ⟨⟨source, t.numbers, t.parents⟩, f, ?_, rfl, hS, hrep'⟩
  rw [run, HF.traverse, if_neg (hv.ne_uninitialized hsrc.2.1),
    Prog.run_bind_ok _ (run_getNodes hv (by omega)), Prog.run_bind_ok _ hget,
    Prog.run_bind_ok _ (run_lift hinsert s), Prog.run_bind_ok _ hrun]
  rfl

end Store

end Goedb
