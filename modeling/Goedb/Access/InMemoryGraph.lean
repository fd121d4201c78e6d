import Goedb.Access.Creation
import Goedb.Access.Expand

/-!
# Access — the in-memory graph

`in_memory_graph.c`.  The records lie in two dictionaries and are shared: who looks a relationship
up has a pointer to the record in the dictionary, and an assignment through it is seen by everyone.
A dictionary is a finite map from keys to records, and a pointer to one of its records is the key.

* `InMemoryGraph.run_createRelationshipWeighted`: `in_memory_create_relationship_weighted` links the
  new relationship in (`Graph.link`), the same change as `create_relationship` of the heap file.
* `InMemoryGraph.run_expand`: `in_memory_expand` returns what `expand` returns.
-/

namespace Goedb

open Lib

/-- `in_memory_graph`. -/
structure InMemoryGraph where
  cacheNodes : Ulong → Option Node
  cacheRels : Ulong → Option Relationship
  nNodes : Ulong
  nRels : Ulong

/-- The calls of the in-memory graph on its fields. -/
inductive MemOp : Type → Type where
  /-- `dict_ul_node_get_direct`. -/
  | getNode (id : Ulong) : MemOp Node
  /-- `dict_ul_rel_get_direct`. -/
  | getRel (id : Ulong) : MemOp Relationship
  /-- `dict_ul_node_insert`, or an assignment to the node under a key. -/
  | putNode (id : Ulong) (node : Node) : MemOp Unit
  /-- `dict_ul_rel_insert`, or an assignment to the relationship under a key. -/
  | putRel (id : Ulong) (rel : Relationship) : MemOp Unit
  /-- `n_nodes++`. -/
  | takeNodeId : MemOp Ulong
  /-- `n_rels++`. -/
  | takeRelId : MemOp Ulong
  | stop (f : Fault) : MemOp Empty

/-- `get_direct` of a dictionary. -/
def getDirect {α : Type} : Option α → Except Fault α
  | some a => .ok a
  | none => .error (.exit "htable - get_direct: no such key!")

/-- What the calls do. -/
def InMemoryGraph.step : Handler MemOp InMemoryGraph Fault
  | _, .getNode id, m => (getDirect (m.cacheNodes id)).map (·, m)
  | _, .getRel id, m => (getDirect (m.cacheRels id)).map (·, m)
  | _, .putNode id nd, m =>
      .ok ((), { m with cacheNodes := Function.update m.cacheNodes id (some nd) })
  | _, .putRel id r, m => .ok ((), { m with cacheRels := Function.update m.cacheRels id (some r) })
  | _, .takeNodeId, m => .ok (m.nNodes, { m with nNodes := m.nNodes + 1 })
  | _, .takeRelId, m => .ok (m.nRels, { m with nRels := m.nRels + 1 })
  | _, .stop f, _ => .error f

/-- A function of the in-memory graph. -/
abbrev Mem := Prog MemOp

/-- A pointer to a relationship: to the new one, which is in no dictionary yet, or to the one under a
key. -/
inductive RelPtr where
  | new
  | cell (id : Ulong)
  deriving DecidableEq, Repr

/-- The id of the relationship behind a pointer. -/
def RelPtr.relId (rel : Relationship) : RelPtr → Ulong
  | .new => rel.id
  | .cell id => id

namespace Mem

/-- `exit(EXIT_FAILURE)` after a message. -/
def exit {α : Type} (msg : String) : Mem α := Prog.call (.stop (.exit msg)) Empty.elim

/-- `in_memory_create_node`. -/
def createNode (label : Ulong) : Mem Ulong := do
  let id ← Prog.perform .takeNodeId
  Prog.perform (.putNode id { newNode with id := id, label := label })
  return id

/-- `in_memory_get_relationship`. -/
def getRelationship (id : Ulong) : Mem Relationship :=
  if id = uninitializedLong then
    exit "in_memory - get_relationship: in memory file is NULL or invalid relationship requested!"
  else Prog.perform (.getRel id)

/-- The relationship behind a pointer, where `rel` is the new one. -/
def deref (rel : Relationship) : RelPtr → Mem Relationship
  | .new => pure rel
  | .cell id => Prog.perform (.getRel id)

/-- An assignment through a pointer, with what the new relationship is after it. -/
def assign (f : Relationship → Relationship) (rel : Relationship) : RelPtr → Mem Relationship
  | .new => pure (f rel)
  | .cell id => do
      let r ← Prog.perform (.getRel id)
      Prog.perform (.putRel id (f r))
      return rel

/-- The first and the last relationship of a node's chain. -/
def chainEnds (node : Node) : Mem (RelPtr × RelPtr) :=
  if node.firstRelationship = uninitializedLong then pure (.new, .new)
  else do
    let firstRel ← getRelationship node.firstRelationship
    let tempId := firstRel.prevAt node.id
    let _ ← getRelationship tempId
    return (.cell node.firstRelationship, .cell tempId)

/-- The pointer assignments of `in_memory_create_relationship_weighted`. -/
def linkNew (rel : Relationship) (fromId toId : Ulong) (firstFrom lastFrom firstTo lastTo : RelPtr) :
    Mem Relationship := do
  let lastSource ← deref rel lastFrom
  let firstSource ← deref rel firstFrom
  let lastTarget ← deref rel lastTo
  let firstTarget ← deref rel firstTo
  let relId := rel.id
  let rel := { rel with
    prevRelSource := lastSource.id, nextRelSource := firstSource.id
    prevRelTarget := lastTarget.id, nextRelTarget := firstTarget.id }
  let rel ← assign (·.setNext fromId relId) rel lastFrom
  let rel ← assign (·.setNext toId relId) rel lastTo
  let rel ← assign (·.setPrev fromId relId) rel firstFrom
  assign (·.setPrev toId relId) rel firstTo

/-- `first_relationship` set where the chain was empty. -/
def setFirstRelationship (nodeId relId : Ulong) : Mem Unit := do
  let node ← Prog.perform (.getNode nodeId)
  if node.firstRelationship = uninitializedLong then
    Prog.perform (.putNode nodeId { node with firstRelationship := relId })
  else pure ()

/-- `in_memory_create_relationship_weighted`. -/
def createRelationshipWeighted (fromId toId : Ulong) (weight : Double) (label : Ulong) :
    Mem Ulong := do
  if fromId = uninitializedLong ∨ toId = uninitializedLong ∨ weight = uninitializedWeight then
    exit "create_relationship: in memory file is NULL or invalid nodes or weight passed as argument!"
  else
    let sourceNode ← Prog.perform (.getNode fromId)
    let targetNode ← Prog.perform (.getNode toId)
    let relId ← Prog.perform .takeRelId
    let rel := { newRelationship with
      id := relId, sourceNode := fromId, targetNode := toId, weight := weight, label := label }
    let (firstFrom, lastFrom) ← chainEnds sourceNode
    let (firstTo, lastTo) ← chainEnds targetNode
    let rel ← linkNew rel fromId toId firstFrom lastFrom firstTo lastTo
    setFirstRelationship fromId relId
    setFirstRelationship toId relId
    Prog.perform (.putRel relId rel)
    return relId

/-- `in_memory_create_relationship`. -/
def createRelationship (nodeFrom nodeTo label : Ulong) : Mem Ulong :=
  createRelationshipWeighted nodeFrom nodeTo doubleOne label

/-- `in_memory_next_relationship_id`. -/
def nextRelationshipId (fuel : ℕ) (nodeId : Ulong) (rel : Relationship) (direction : Direction) :
    Mem Ulong := do
  if nodeId = uninitializedLong then
    exit "in_memory - next_relationship: Arguments must be not NULL!"
  else
    nextLoop .stop nodeId direction (fun id => Prog.perform (.getRel id))
      (fun rel => pure (rel.nextAt nodeId)) rel.id fuel (rel.nextAt nodeId)

/-- `in_memory_expand`. -/
def expand (fuel : ℕ) (nodeId : Ulong) (direction : Direction) : Mem (List Relationship) := do
  let node ← Prog.perform (.getNode nodeId)
  collectFrom .stop nodeId direction getRelationship (fun id => Prog.perform (.getRel id))
    (nextRelationshipId fuel node.id · direction) fuel node.firstRelationship

end Mem

namespace InMemoryGraph

/-- `in_memory_graph_create`. -/
def create : InMemoryGraph :=
  { cacheNodes := fun _ => none, cacheRels := fun _ => none, nNodes := 0, nRels := 0 }

/-- The records of the dictionaries. -/
def graph (m : InMemoryGraph) : Graph := ⟨m.cacheNodes, m.cacheRels⟩

/-- A run of a function. -/
abbrev run {α : Type} (x : Mem α) (m : InMemoryGraph) : Except Fault (α × InMemoryGraph) :=
  Prog.run step x m

/-- The records form a well-formed graph, lie under their ids, and the ids are the numbers below the
two counters, which have not reached the null value. -/
structure WellFormed (m : InMemoryGraph) : Prop where
  graph : m.graph.WellFormed
  keyed : m.graph.Keyed
  node_id : ∀ n nd, m.cacheNodes n = some nd → nd.id = n
  nodes : ∀ n, (m.cacheNodes n).isSome ↔ n.toNat < m.nNodes.toNat
  rels : ∀ x, (m.cacheRels x).isSome ↔ x.toNat < m.nRels.toNat
  nNodes_le : m.nNodes.toNat ≤ uninitializedLong.toNat
  nRels_le : m.nRels.toNat ≤ uninitializedLong.toNat

theorem create_wellFormed : create.WellFormed where
  graph := ⟨fun _ _ h => by (cases h), fun _ _ h => by (cases h), fun _ _ h => by (cases h)⟩
  keyed _ _ h := by cases h
  node_id _ _ h := by cases h
  nodes n := by simp [create]
  rels x := by simp [create]
  nNodes_le := Nat.zero_le _
  nRels_le := Nat.zero_le _

variable {m : InMemoryGraph} {n x : Ulong} {nd : Node} {r rel : Relationship}

namespace WellFormed

variable (hw : m.WellFormed)
include hw

theorem fresh_rel : m.cacheRels m.nRels = none := by
  rw [← Option.not_isSome_iff_eq_none, hw.rels]
  exact Nat.lt_irrefl _

theorem fresh_node : m.cacheNodes m.nNodes = none := by
  rw [← Option.not_isSome_iff_eq_none, hw.nodes]
  exact Nat.lt_irrefl _

theorem rel_ne_null (h : m.cacheRels x = some r) : x ≠ uninitializedLong := by
  rintro rfl
  have hlt := (hw.rels _).mp (Option.isSome_of_eq_some h)
  exact absurd hw.nRels_le (Nat.not_le_of_lt hlt)

theorem node_ne_null (h : m.cacheNodes n = some nd) : n ≠ uninitializedLong := by
  rintro rfl
  have hlt := (hw.nodes _).mp (Option.isSome_of_eq_some h)
  exact absurd hw.nNodes_le (Nat.not_le_of_lt hlt)

end WellFormed

/-! ### The calls -/

theorem run_getNode (h : m.cacheNodes n = some nd) :
    run (Prog.perform (.getNode n)) m = .ok (nd, m) := by
  rw [run, Prog.run_perform, step, h]
  rfl

theorem run_getRel (h : m.cacheRels x = some r) :
    run (Prog.perform (.getRel x)) m = .ok (r, m) := by
  rw [run, Prog.run_perform, step, h]
  rfl

theorem run_getRelationship (h : m.cacheRels x = some r) (hx : x ≠ uninitializedLong) :
    run (Mem.getRelationship x) m = .ok (r, m) := by
  rw [run, Mem.getRelationship, if_neg hx]
  exact run_getRel h

/-- The graph with one node more. -/
def addNode (m : InMemoryGraph) (label : Ulong) : InMemoryGraph :=
  { m with
    cacheNodes := Function.update m.cacheNodes m.nNodes
      (some { newNode with id := m.nNodes, label := label })
    nNodes := m.nNodes + 1 }

theorem addNode_graph (m : InMemoryGraph) (label : Ulong) :
    (m.addNode label).graph = m.graph.setNode { newNode with id := m.nNodes, label := label } := rfl

/-- **`in_memory_create_node`** adds a node without relationships. -/
theorem run_createNode (m : InMemoryGraph) (label : Ulong) :
    run (Mem.createNode label) m = .ok (m.nNodes, m.addNode label) := rfl

/-! ### Assignments through pointers -/

/-- A change of every relationship of the dictionary. -/
def mapRels (m : InMemoryGraph) (f : Relationship → Relationship) : InMemoryGraph :=
  { m with cacheRels := fun x => (m.cacheRels x).map f }

/-- The pointer leads to a relationship: the new one, `rel`, or one of the dictionary. -/
def Points (m : InMemoryGraph) : RelPtr → Prop
  | .new => True
  | .cell id => (m.cacheRels id).isSome

variable {p : RelPtr} {f : Relationship → Relationship}

theorem Points.mapRels (hp : m.Points p) : (m.mapRels f).Points p := by
  cases p with
  | new => trivial
  | cell id => exact Option.isSome_map.trans hp

theorem keyed_mapRels (hk : m.graph.Keyed) (hf : ∀ r, (f r).id = r.id) :
    (m.mapRels f).graph.Keyed := by
  intro x r hr
  obtain ⟨r', hr', rfl⟩ := Option.map_eq_some_iff.mp hr
  rw [hf]
  exact hk x r' hr'

theorem run_deref (rel : Relationship) (hk : m.graph.Keyed) (hp : m.Points p) :
    ∃ r, run (Mem.deref rel p) m = .ok (r, m) ∧ r.id = p.relId rel := by
  cases p with
  | new => exact ⟨rel, rfl, rfl⟩
  | cell id =>
      obtain ⟨r, hr⟩ := Option.isSome_iff_exists.mp hp
      exact ⟨r, run_getRel hr, hk id r hr⟩

/-- An assignment through a pointer is a patch of the relationship that has the id. -/
theorem run_assign (hk : m.graph.Keyed) (hx : m.cacheRels rel.id = none) (hp : m.Points p) :
    run (Mem.assign f rel p) m =
      .ok (rel.patch (p.relId rel) f, m.mapRels (·.patch (p.relId rel) f)) := by
  have hother : ∀ {x r} (g : Relationship → Relationship) {id : Ulong}, m.cacheRels x = some r →
      x ≠ id → r.patch id g = r := by
    intro x r g id hr hne
    rw [Relationship.patch, if_neg (by rwa [hk x r hr])]
  cases p with
  | new =>
      have hself : rel.patch (RelPtr.relId rel .new) f = f rel := if_pos rfl
      have hm : m.mapRels (·.patch (RelPtr.relId rel .new) f) = m := by
        simp only [mapRels]
        congr 1
        funext x
        cases hr : m.cacheRels x with
        | none => rfl
        | some r =>
            refine congrArg some (hother f hr ?_)
            rintro rfl
            exact absurd (hr.symm.trans hx) (Option.some_ne_none r)
      rw [hself, hm]
      rfl
  | cell id =>
      obtain ⟨r, hr⟩ := Option.isSome_iff_exists.mp hp
      have hne : rel.id ≠ id := by
        rintro rfl
        exact absurd (hr.symm.trans hx) (Option.some_ne_none r)
      have hself : rel.patch (RelPtr.relId rel (.cell id)) f = rel := if_neg hne
      have hm : m.mapRels (·.patch (RelPtr.relId rel (.cell id)) f) =
          { m with cacheRels := Function.update m.cacheRels id (some (f r)) } := by
        simp only [mapRels, RelPtr.relId]
        congr 1
        funext x
        by_cases hx' : x = id
        · subst hx'
          rw [hr, Function.update_self, Option.map_some, Relationship.patch, if_pos (hk x r hr)]
        · rw [Function.update_of_ne hx']
          cases hr' : m.cacheRels x with
          | none => rfl
          | some r' => exact congrArg some (hother f hr' hx')
      rw [run, Mem.assign, Prog.run_bind_ok _ (run_getRel hr), hself, hm]
      rfl

/-- The ends of a chain, as pointers to the relationships that `Graph.endsOf` names. -/
theorem run_chainEnds (hw : m.WellFormed) {l : List Ulong} (hid : nd.id = n)
    (hc : m.graph.Chain n nd.firstRelationship l) {k : Ulong} (rel : Relationship) :
    ∃ p q, run (Mem.chainEnds nd) { m with nRels := k } = .ok ((p, q), { m with nRels := k }) ∧
      m.Points p ∧ m.Points q ∧
      (p.relId rel, q.relId rel) = m.graph.endsOf rel.id n nd.firstRelationship := by
  rw [run, Mem.chainEnds, Graph.endsOf]
  split
  · exact ⟨.new, .new, rfl, trivial, trivial, rfl⟩
  · rename_i hne
    cases l with
    | nil => exact absurd (hc.first_eq_iff.mpr rfl) hne
    | cons a t =>
        have ha : nd.firstRelationship = a := hc.first_eq
        obtain ⟨r, hr, hat⟩ := (hc.mem a).mp List.mem_cons_self
        obtain ⟨r', hr', -⟩ := (hc.mem _).mp (hc.prev_mem hr hat)
        have h₁ : m.cacheRels nd.firstRelationship = some r := ha ▸ hr
        have h₂ : m.cacheRels (r.prevAt n) = some r' := hr'
        refine ⟨.cell nd.firstRelationship, .cell (r.prevAt n), ?_, Option.isSome_of_eq_some h₁,
          Option.isSome_of_eq_some h₂, ?_⟩
        · rw [Prog.run_bind_ok _ (run_getRelationship (m := { m with nRels := k }) h₁ hne), hid]
          exact Prog.run_bind_ok _ (run_getRelationship (m := { m with nRels := k }) h₂
            (hw.rel_ne_null h₂)) _
        · simp only [RelPtr.relId, Graph.prev_of_rel (g := m.graph) h₁]

theorem relId_congr {rel' : Relationship} (h : rel'.id = rel.id) (p : RelPtr) :
    p.relId rel' = p.relId rel := by
  cases p with
  | new => exact h
  | cell id => rfl

/-- An assignment after others, which have changed the relationships by `F`. -/
theorem run_assign_map (hk : m.graph.Keyed) (hx : m.cacheRels rel.id = none) (hp : m.Points p)
    {F : Relationship → Relationship} (hF : Relationship.Keeps F) {rel' : Relationship}
    (hrel : rel'.id = rel.id) :
    run (Mem.assign f (F rel') p) (m.mapRels F) =
      .ok ((F rel').patch (p.relId rel) f, m.mapRels fun r => (F r).patch (p.relId rel) f) := by
  have hid : (F rel').id = rel.id := (hF.id rel').trans hrel
  have hx' : (m.mapRels F).cacheRels (F rel').id = none := by
    simp only [mapRels, hid, hx, Option.map_none]
  rw [run_assign (keyed_mapRels hk hF.id) hx' hp.mapRels, relId_congr hid]
  simp only [mapRels, Option.map_map]
  rfl

/-- The pointer assignments, by the ids of the relationships. -/
theorem run_linkNew (hk : m.graph.Keyed) (hx : m.cacheRels rel.id = none) {ff lf ft lt : RelPtr}
    (hff : m.Points ff) (hlf : m.Points lf) (hft : m.Points ft) (hlt : m.Points lt)
    (fromId toId : Ulong) :
    run (Mem.linkNew rel fromId toId ff lf ft lt) m =
      .ok (Relationship.relink fromId toId (lf.relId rel) rel.id (lt.relId rel) rel.id
          (ff.relId rel) rel.id (ft.relId rel) rel.id
          { rel with prevRelSource := lf.relId rel, nextRelSource := ff.relId rel
                     prevRelTarget := lt.relId rel, nextRelTarget := ft.relId rel },
        m.mapRels (Relationship.relink fromId toId (lf.relId rel) rel.id (lt.relId rel) rel.id
          (ff.relId rel) rel.id (ft.relId rel) rel.id)) := by
  obtain ⟨rlf, h₁, e₁⟩ := run_deref rel hk hlf
  obtain ⟨rff, h₂, e₂⟩ := run_deref rel hk hff
  obtain ⟨rlt, h₃, e₃⟩ := run_deref rel hk hlt
  obtain ⟨rft, h₄, e₄⟩ := run_deref rel hk hft
  set rel' : Relationship := { rel with
    prevRelSource := lf.relId rel, nextRelSource := ff.relId rel
    prevRelTarget := lt.relId rel, nextRelTarget := ft.relId rel } with hrel'
  have hid : rel'.id = rel.id := rfl
  have k₁ := (Relationship.keeps_setNext fromId rel.id).patch (lf.relId rel)
  have k₂ := ((Relationship.keeps_setNext toId rel.id).patch (lt.relId rel)).comp k₁
  have k₃ := ((Relationship.keeps_setPrev fromId rel.id).patch (ff.relId rel)).comp k₂
  have hx' : m.cacheRels rel'.id = none := hx
  have a₁ := run_assign (f := (·.setNext fromId rel.id)) hk hx' hlf
  have a₂ := run_assign_map (f := (·.setNext toId rel.id)) hk hx hlt k₁ hid
  have a₃ := run_assign_map (f := (·.setPrev fromId rel.id)) hk hx hff k₂ hid
  have a₄ := run_assign_map (f := (·.setPrev toId rel.id)) hk hx hft k₃ hid
  rw [run, Mem.linkNew, Prog.run_bind_ok _ h₁, Prog.run_bind_ok _ h₂, Prog.run_bind_ok _ h₃,
    Prog.run_bind_ok _ h₄, e₁, e₂, e₃, e₄, ← hrel']
  rw [relId_congr hid] at a₁
  refine (Prog.run_bind_ok _ a₁ _).trans ((Prog.run_bind_ok _ a₂ _).trans
    ((Prog.run_bind_ok _ a₃ _).trans ?_))
  exact a₄

/-- `first_relationship` set at the node `n` where its chain is empty. -/
def setFirst (m : InMemoryGraph) (n relId : Ulong) : InMemoryGraph :=
  { m with cacheNodes := fun k => (m.cacheNodes k).map fun nd =>
      if nd.firstRelationship = uninitializedLong ∧ n = k then
        { nd with firstRelationship := relId } else nd }

theorem setFirst_cacheNodes_of_ne {k relId : Ulong} (hk : k ≠ n) :
    (m.setFirst n relId).cacheNodes k = m.cacheNodes k := by
  have : ∀ nd : Node, ¬ (nd.firstRelationship = uninitializedLong ∧ n = k) :=
    fun nd h => hk h.2.symm
  simp only [setFirst, if_neg (this _), Option.map_id']

theorem run_setFirstRelationship (hn : m.cacheNodes n = some nd) (relId : Ulong) :
    run (Mem.setFirstRelationship n relId) m = .ok ((), m.setFirst n relId) := by
  have heq : ∀ c : Ulong → Option Node, (∀ k, k ≠ n → c k = m.cacheNodes k) →
      c n = (m.setFirst n relId).cacheNodes n → { m with cacheNodes := c } = m.setFirst n relId := by
    intro c hne hself
    refine congrArg (fun c => { m with cacheNodes := c }) (funext fun k => ?_)
    by_cases hk : k = n
    · exact hk ▸ hself
    · exact (hne k hk).trans (setFirst_cacheNodes_of_ne hk).symm
  rw [run, Mem.setFirstRelationship, Prog.run_bind_ok _ (run_getNode hn)]
  by_cases hfirst : nd.firstRelationship = uninitializedLong
  · rw [if_pos hfirst, Prog.run_perform, step, heq _ (fun k hk => Function.update_of_ne hk _ _)]
    simp [setFirst, hn, hfirst]
  · rw [if_neg hfirst]
    refine congrArg (fun m' => Except.ok ((), m')) (heq m.cacheNodes (fun _ _ => rfl) ?_)
    simp [setFirst, hn, hfirst]

/-- The nodes once `first_relationship` is set at both endpoints. -/
theorem setFirst_setFirst (m : InMemoryGraph) {rel : Relationship}
    (hU : rel.id ≠ uninitializedLong) (fromFirst toFirst : Ulong) :
    ((m.setFirst rel.sourceNode rel.id).setFirst rel.targetNode rel.id).cacheNodes =
      (m.graph.link rel fromFirst toFirst).node := by
  funext k
  simp only [setFirst, Graph.link, graph, Option.map_map]
  congr 1
  funext nd
  by_cases hfirst : nd.firstRelationship = uninitializedLong
  · by_cases hs : rel.sourceNode = k
    · simp [hfirst, hs, hU, Relationship.At]
    · simp [hfirst, hs, Relationship.At]
  · simp [hfirst]

/-- The relationships once the new one is inserted. -/
theorem mapRels_insert (m : InMemoryGraph) (rel : Relationship) (fromFirst toFirst : Ulong) :
    Function.update (m.mapRels (m.graph.relinkNew rel fromFirst toFirst)).cacheRels rel.id
        (some (m.graph.relinkNew rel fromFirst toFirst (m.graph.withEnds rel fromFirst toFirst))) =
      (m.graph.link rel fromFirst toFirst).rel := by
  funext x
  by_cases h : x = rel.id
  · subst h
    rw [Function.update_self, Graph.link_rel_self]
  · rw [Function.update_of_ne h, Graph.link_rel_of_ne h]
    rfl

/-- **`in_memory_create_relationship_weighted`** links the new relationship in. -/
theorem run_createRelationshipWeighted (hw : m.WellFormed) {fromId toId weight : Ulong}
    {nf nt : Node} (hnf : m.cacheNodes fromId = some nf) (hnt : m.cacheNodes toId = some nt)
    (hwt : weight ≠ uninitializedWeight) (hlt : m.nRels.toNat < uninitializedLong.toNat)
    (label : Ulong) :
    ∃ m', run (Mem.createRelationshipWeighted fromId toId weight label) m = .ok (m.nRels, m') ∧
      m'.graph = m.graph.link (Store.relOf m.nRels fromId toId weight label) nf.firstRelationship
        nt.firstRelationship ∧ m'.nNodes = m.nNodes ∧ m'.nRels = m.nRels + 1 := by
  have hargs : ¬ (fromId = uninitializedLong ∨ toId = uninitializedLong ∨
      weight = uninitializedWeight) := by
    rintro (h | h | h)
    · exact hw.node_ne_null hnf h
    · exact hw.node_ne_null hnt h
    · exact hwt h
  have hU : m.nRels ≠ uninitializedLong := fun h => Nat.ne_of_lt hlt (congrArg BitVec.toNat h)
  obtain ⟨lF, hF⟩ := hw.graph.chain _ _ hnf
  obtain ⟨lT, hT⟩ := hw.graph.chain _ _ hnt
  set rel := Store.relOf m.nRels fromId toId weight label with hrel
  -- the ends of both chains are looked up before anything is linked
  obtain ⟨ff, lf, h₁, hff, hlf, e₁⟩ := run_chainEnds hw (k := m.nRels + 1) (hw.node_id _ _ hnf) hF
    rel
  obtain ⟨ft, lt, h₂, hft, hlt', e₂⟩ := run_chainEnds hw (k := m.nRels + 1) (hw.node_id _ _ hnt) hT
    rel
  set m₁ : InMemoryGraph := { m with nRels := m.nRels + 1 } with hm₁
  have hk₁ : m₁.graph.Keyed := hw.keyed
  have hx : m₁.cacheRels rel.id = none := hw.fresh_rel
  have h₃ := run_linkNew hk₁ hx (show m₁.Points ff from hff) (show m₁.Points lf from hlf)
    (show m₁.Points ft from hft) (show m₁.Points lt from hlt') fromId toId
  rw [Prod.ext_iff] at e₁ e₂
  have hF' : Relationship.relink fromId toId (lf.relId rel) rel.id (lt.relId rel) rel.id
      (ff.relId rel) rel.id (ft.relId rel) rel.id =
      m.graph.relinkNew rel nf.firstRelationship nt.firstRelationship := by
    simp only at e₁ e₂
    rw [e₁.1, e₁.2, e₂.1, e₂.2]
    rfl
  have hends : ({ rel with
      prevRelSource := lf.relId rel, nextRelSource := ff.relId rel
      prevRelTarget := lt.relId rel, nextRelTarget := ft.relId rel } : Relationship) =
      m.graph.withEnds rel nf.firstRelationship nt.firstRelationship := by
    simp only at e₁ e₂
    rw [e₁.1, e₁.2, e₂.1, e₂.2]
    rfl
  rw [hF', hends] at h₃
  set F := m.graph.relinkNew rel nf.firstRelationship nt.firstRelationship
  set w := m.graph.withEnds rel nf.firstRelationship nt.firstRelationship
  have h₄ := run_setFirstRelationship (m := m₁.mapRels F) hnf m.nRels
  have hnt' : ∃ nd, ((m₁.mapRels F).setFirst fromId m.nRels).cacheNodes toId = some nd :=
    ⟨_, congrArg (Option.map _) hnt⟩
  obtain ⟨nd, hnd⟩ := hnt'
  have h₅ := run_setFirstRelationship hnd m.nRels
  refine ⟨{ ((m₁.mapRels F).setFirst fromId m.nRels).setFirst toId m.nRels with
    cacheRels := Function.update (m.mapRels F).cacheRels m.nRels (some (F w)) }, ?_, ?_, rfl, rfl⟩
  · rw [run, Mem.createRelationshipWeighted, if_neg hargs, Prog.run_bind_ok _ (run_getNode hnf),
      Prog.run_bind_ok _ (run_getNode hnt)]
    refine (Prog.run_bind_ok _ h₁ _).trans ?_
    refine (Prog.run_bind_ok _ h₂ _).trans ?_
    refine (Prog.run_bind_ok _ h₃ _).trans ?_
    rw [Prog.run_bind_ok _ h₄, Prog.run_bind_ok _ h₅]
    rfl
  · have hU' : rel.id ≠ uninitializedLong := hU
    exact Graph.ext (setFirst_setFirst m hU' _ _) (mapRels_insert m rel _ _)

theorem getNode_inv {m' : InMemoryGraph} (h : run (Prog.perform (.getNode n)) m = .ok (nd, m')) :
    m.cacheNodes n = some nd ∧ m' = m := by
  rw [run, Prog.run_perform, step] at h
  cases hn : m.cacheNodes n with
  | none =>
      rw [hn] at h
      cases h
  | some nd' =>
      rw [hn] at h
      cases h
      exact ⟨rfl, rfl⟩

/-- It returns only between nodes that are there, with a weight. -/
theorem createRelationshipWeighted_inv {fromId toId weight label id : Ulong} {m' : InMemoryGraph}
    (h : run (Mem.createRelationshipWeighted fromId toId weight label) m = .ok (id, m')) :
    (∃ nd, m.cacheNodes fromId = some nd) ∧ (∃ nd, m.cacheNodes toId = some nd) ∧
      weight ≠ uninitializedWeight := by
  rw [run, Mem.createRelationshipWeighted] at h
  split at h
  · cases h
  · rename_i hargs
    obtain ⟨nf, m₁, h₁, h'⟩ := Prog.run_bind_inv _ h
    obtain ⟨hnf, rfl⟩ := getNode_inv h₁
    obtain ⟨nt, m₂, h₂, -⟩ := Prog.run_bind_inv _ h'
    obtain ⟨hnt, -⟩ := getNode_inv h₂
    exact ⟨⟨nf, hnf⟩, ⟨nt, hnt⟩, fun e => hargs (.inr (.inr e))⟩

/-! ### What the functions keep -/

/-- A counter that has not reached the null value counts one more. -/
theorem toNat_succ {k : Ulong} (h : k.toNat < uninitializedLong.toNat) :
    (k + 1).toNat = k.toNat + 1 := by
  have hU : uninitializedLong.toNat < 2 ^ 64 - 1 := by decide
  rw [BitVec.toNat_add]
  exact Nat.mod_eq_of_lt (show k.toNat + 1 < 2 ^ 64 by omega)

theorem lt_succ_iff {k x : Ulong} (h : k.toNat < uninitializedLong.toNat) :
    x.toNat < (k + 1).toNat ↔ x.toNat < k.toNat ∨ x = k := by
  rw [toNat_succ h, Nat.lt_succ_iff_lt_or_eq, BitVec.toNat_inj]

theorem WellFormed.addNode (hw : m.WellFormed) (hlt : m.nNodes.toNat < uninitializedLong.toNat)
    (label : Ulong) : (m.addNode label).WellFormed where
  graph := by
    rw [addNode_graph]
    exact Graph.WellFormed.setNode hw.graph hw.fresh_node rfl
  keyed := hw.keyed
  node_id n nd h := by
    simp only [InMemoryGraph.addNode] at h
    by_cases hn : n = m.nNodes
    · subst hn
      rw [Function.update_self] at h
      cases h
      rfl
    · rw [Function.update_of_ne hn] at h
      exact hw.node_id n nd h
  nodes n := by
    simp only [InMemoryGraph.addNode]
    rw [lt_succ_iff hlt, ← hw.nodes]
    by_cases hn : n = m.nNodes
    · simp [hn]
    · simp [hn]
  rels := hw.rels
  nNodes_le := by
    simp only [InMemoryGraph.addNode]
    rw [toNat_succ hlt]
    exact hlt
  nRels_le := hw.nRels_le

theorem WellFormed.link (hw : m.WellFormed) (hlt : m.nRels.toNat < uninitializedLong.toNat)
    {fromId toId weight label : Ulong} {nf nt : Node} (hnf : m.cacheNodes fromId = some nf)
    (hnt : m.cacheNodes toId = some nt) {m' : InMemoryGraph}
    (hg : m'.graph = m.graph.link (Store.relOf m.nRels fromId toId weight label)
      nf.firstRelationship nt.firstRelationship)
    (hnn : m'.nNodes = m.nNodes) (hnr : m'.nRels = m.nRels + 1) : m'.WellFormed := by
  set rel := Store.relOf m.nRels fromId toId weight label with hrel
  have hx : m.graph.rel rel.id = none := hw.fresh_rel
  have hU : rel.id ≠ uninitializedLong := fun h => Nat.ne_of_lt hlt (congrArg BitVec.toNat h)
  obtain ⟨lF, hF⟩ := hw.graph.chain _ _ hnf
  obtain ⟨lT, hT⟩ := hw.graph.chain _ _ hnt
  have hnode : m'.cacheNodes = _ := congrArg Graph.node hg
  have hrels : m'.cacheRels = _ := congrArg Graph.rel hg
  refine ⟨?_, ?_, fun n nd h => ?_, fun n => ?_, fun x => ?_, hnn ▸ hw.nNodes_le, ?_⟩
  · rw [hg]
    exact Graph.WellFormed.link hw.keyed hx hF hT hw.graph hU hnf hnt rfl rfl
  · rw [hg]
    intro x r hr
    by_cases h : x = rel.id
    · subst h
      rw [Graph.link_rel_self] at hr
      cases hr
      exact Graph.keeps_relinkNew.id _
    · rw [Graph.link_rel_of_ne h] at hr
      obtain ⟨r', hr', rfl⟩ := Option.map_eq_some_iff.mp hr
      exact (Graph.keeps_relinkNew.id r').trans (hw.keyed x r' hr')
  · rw [hnode] at h
    obtain ⟨nd', hnd', rfl⟩ := Option.map_eq_some_iff.mp h
    have hid := hw.node_id n nd' hnd'
    split
    · exact hid
    · exact hid
  · rw [hnode, hnn, ← hw.nodes]
    exact Bool.eq_iff_iff.mp Option.isSome_map
  · rw [hrels, hnr, lt_succ_iff hlt, ← hw.rels]
    by_cases h : x = rel.id
    · rw [h, Graph.link_rel_self]
      simp [hrel, Store.relOf]
    · have h' : x ≠ m.nRels := h
      rw [Graph.link_rel_of_ne h, Option.isSome_map]
      simp only [h', or_false]
      rfl
  · rw [hnr, toNat_succ hlt]
    exact hlt

theorem walks (hk : m.graph.Keyed) : Walks step m m.graph n
    (fun id => Prog.perform (.getRel id)) (fun rel => pure (rel.nextAt n)) where
  keyed := hk
  read _ _ h := run_getRel h
  follow _ _ _ _ := rfl

/-- **`in_memory_expand`**. -/
theorem run_expand (hw : m.WellFormed) {l : List Ulong} (hn : m.cacheNodes n = some nd)
    (hc : m.graph.Walk n nd.firstRelationship l) (direction : Direction) {fuel : ℕ}
    (hf : l.length < fuel) :
    run (Mem.expand fuel n direction) m = .ok (m.graph.expand n direction l, m) := by
  have hnull : uninitializedLong ∉ l := by
    intro h
    obtain ⟨r, hr, -⟩ := (hc.mem _).mp h
    exact hw.rel_ne_null hr rfl
  have hnext : FindsNext step m m.graph n direction l
      (Mem.nextRelationshipId fuel n · direction) := by
    intro x t r hl hx
    simp only [Mem.nextRelationshipId, if_neg (hw.node_ne_null hn)]
    exact (walks hw.keyed).run_nextFrom hc hl hx hf
  rw [run, Mem.expand, Prog.run_bind_ok _ (run_getNode hn), hw.node_id n nd hn]
  exact run_collectFrom hc hnull (fun _ _ h => run_getRel h) hnext
    (fun _ _ h => run_getRelationship h (hw.rel_ne_null h)) hf

end InMemoryGraph

end Goedb
