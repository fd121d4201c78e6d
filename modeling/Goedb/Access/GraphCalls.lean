import Goedb.Access.FindRecords
import Goedb.Access.PropertyGraph
import Goedb.Order.SlotAccounting

/-!
# Access — the calls of the heap file as steps of a property graph

`PropertyGraph.Step G c a G'` says what a call `c` answers on the multigraph `G`, and what becomes of
`G`: the specification of the heap file.  `PropertyGraph.Allows` is the care that the heap file leaves
to its callers: records are written back with the pointers they were read with, and the deletions and
exchanges are left out that the heap file gets wrong.

`Store.graphCall_refines`: on a store that represents a multigraph, each allowed call takes a step of
the multigraph, or has no step to take.
-/

namespace Goedb

open Lib

/-- A call of a function of the heap file. -/
inductive GraphCall where
  | createNode (label : Ulong)
  | createRelationship (fromId toId : Ulong) (weight : Double) (label : Ulong)
  | updateNode (node : Node)
  | updateRelationship (rel : Relationship)
  | deleteNode (nodeId : Ulong)
  | deleteRelationship (relId : Ulong)
  | swapNodes (fst snd : Ulong)
  | swapRelationships (fst snd : Ulong)
  | readNode (nodeId : Ulong)
  | readRelationship (relId : Ulong)
  | expand (nodeId : Ulong) (direction : Direction)
  | getNodes
  | getRelationships
  | findNode (label : Ulong)
  | findRelationships (label : Ulong)
  deriving DecidableEq, Repr

/-- What a call returns. -/
inductive GraphAnswer where
  | done
  | id (x : Ulong)
  | node (node : Node)
  | relationship (rel : Relationship)
  | nodes (nodes : List Node)
  | relationships (rels : List Relationship)
  deriving DecidableEq, Repr

namespace HF

/-- The call, with its answer. -/
def graphCall (P fuel : ℕ) : GraphCall → HF GraphAnswer
  | .createNode label => do
      let id ← createNode P fuel label
      return .id id
  | .createRelationship fromId toId weight label => do
      let id ← createRelationship P fuel fromId toId weight label
      return .id id
  | .updateNode node => do
      updateNode node
      return .done
  | .updateRelationship rel => do
      updateRelationship rel
      return .done
  | .deleteNode nodeId => do
      deleteNode fuel nodeId
      return .done
  | .deleteRelationship relId => do
      deleteRelationship relId
      return .done
  | .swapNodes fst snd => do
      swapNodes P fuel fst snd
      return .done
  | .swapRelationships fst snd => do
      swapRelationships P fst snd
      return .done
  | .readNode nodeId => do
      let node ← readNode nodeId
      return .node node
  | .readRelationship relId => do
      let rel ← readRelationship relId
      return .relationship rel
  | .expand nodeId direction => do
      let rels ← expand fuel nodeId direction
      return .relationships rels
  | .getNodes => do
      let nodes ← getNodes P fuel
      return .nodes nodes
  | .getRelationships => do
      let rels ← getRelationships P fuel
      return .relationships rels
  | .findNode label => do
      let node ← findNode P fuel label
      return .node node
  | .findRelationships label => do
      let rel ← findRelationships P fuel label
      return .relationship rel

end HF

/-! ### The specification -/

namespace PropertyGraph

/-- All the records, in the order of their ids. -/
structure InOrder {α : Type} (idOf : α → Ulong) (record : Ulong → Option α) (l : List α) : Prop where
  sorted : l.Pairwise fun a b => (idOf a).toNat < (idOf b).toNat
  mem : ∀ a, a ∈ l ↔ record (idOf a) = some a

/-- The record of the lowest id among those with a label. -/
structure Lowest {α : Type} (idOf : α → Ulong) (record : Ulong → Option α) (labelOf : α → Ulong)
    (label : Ulong) (a : α) : Prop where
  isRecord : record (idOf a) = some a
  hasLabel : labelOf a = label
  lowest : ∀ b, record (idOf b) = some b → labelOf b = label → (idOf a).toNat ≤ (idOf b).toNat

open Goedb.Graph (recordsOf)

/-- What a call answers, and the multigraph after it. -/
inductive Step (G : PropertyGraph) : GraphCall → GraphAnswer → PropertyGraph → Prop where
  | createNode {label x : Ulong} (hx : G.label x = none) :
      Step G (.createNode label) (.id x) (G.addNode x label)
  | createRelationship {fromId toId label x : Ulong} {weight : Double} (hx : G.edge x = none)
      (hs : (G.label fromId).isSome) (ht : (G.label toId).isSome) (hw : weight ≠ uninitializedWeight) :
      Step G (.createRelationship fromId toId weight label) (.id x)
        (G.addEdge x ⟨fromId, toId, weight, label⟩ hx hs ht)
  | updateNode {node : Node} (hn : (G.label node.id).isSome) :
      Step G (.updateNode node) .done (G.setLabel node.id node.label)
  | updateRelationship {rel : Relationship} (hr : (G.edge rel.id).isSome)
      (hw : rel.weight ≠ uninitializedWeight) :
      Step G (.updateRelationship rel) .done (G.setData rel.id (rel.weight, rel.label))
  | deleteNode {n : Ulong} (hn : (G.label n).isSome) : Step G (.deleteNode n) .done (G.removeNode n)
  | deleteRelationship {x : Ulong} (hx : (G.edge x).isSome) :
      Step G (.deleteRelationship x) .done (G.removeEdges [x])
  | swapNodes {fst snd : Ulong} :
      Step G (.swapNodes fst snd) .done (G.renameNodes (Equiv.swap fst snd))
  | swapRelationships {fst snd : Ulong} :
      Step G (.swapRelationships fst snd) .done (G.renameEdges (Equiv.swap fst snd))
  | readNode {n : Ulong} {nd : Node} (h : (recordsOf G).node n = some nd) :
      Step G (.readNode n) (.node nd) G
  | readRelationship {x : Ulong} {r : Relationship} (h : (recordsOf G).rel x = some r) :
      Step G (.readRelationship x) (.relationship r) G
  | expand {n : Ulong} {direction : Direction} (hn : (G.label n).isSome) :
      Step G (.expand n direction)
        (.relationships ((recordsOf G).expand n direction (G.incident n))) G
  | getNodes {nds : List Node} (h : InOrder Node.id (recordsOf G).node nds) :
      Step G .getNodes (.nodes nds) G
  | getRelationships {rs : List Relationship} (h : InOrder Relationship.id (recordsOf G).rel rs) :
      Step G .getRelationships (.relationships rs) G
  | findNode {label : Ulong} {nd : Node} (h : Lowest Node.id (recordsOf G).node Node.label label nd) :
      Step G (.findNode label) (.node nd) G
  | findRelationships {label : Ulong} {r : Relationship}
      (h : Lowest Relationship.id (recordsOf G).rel Relationship.label label r) :
      Step G (.findRelationships label) (.relationship r) G

/-- Calls with their answers, one after the other. -/
inductive Run : PropertyGraph → List (GraphCall × GraphAnswer) → PropertyGraph → Prop where
  | nil (G : PropertyGraph) : Run G [] G
  | snoc {G G₁ G₂ : PropertyGraph} {cs : List (GraphCall × GraphAnswer)} {c : GraphCall}
      {a : GraphAnswer} (h : Run G cs G₁) (hs : Step G₁ c a G₂) : Run G (cs ++ [(c, a)]) G₂

/-- The care that is left to the callers. -/
def Allows (G : PropertyGraph) : GraphCall → Prop
  | .updateNode nd => ∀ old, (recordsOf G).node nd.id = some old →
      nd.firstRelationship = old.firstRelationship
  | .updateRelationship r => ∀ old, (recordsOf G).rel r.id = some old →
      r = { old with weight := r.weight, label := r.label }
  | .deleteRelationship x => ¬ G.LoneAtSource x
  | .deleteNode n => G.Deletable n
  | .swapNodes fst snd => ¬ (G.label snd = none ∧ G.incident fst ≠ [])
  | .swapRelationships fst snd => fst.toNat % 4 = 0 ∧ snd.toNat % 4 = 0
  | _ => True

/-- A record more has a page to go to, and the slots that are exchanged are slots of the file. -/
def HasSlots (pages : FileType → ℕ) : GraphCall → Prop
  | .createNode _ => pages .node + 1 < maxPageNo 4096
  | .createRelationship .. => pages .relationship + 1 < maxPageNo 4096
  | .swapNodes fst snd =>
      HF.SwapAccepts 4096 .node (pages .node) fst ∧ HF.SwapAccepts 4096 .node (pages .node) snd
  | .swapRelationships fst snd => HF.SwapAccepts 4096 .relationship (pages .relationship) fst ∧
      HF.SwapAccepts 4096 .relationship (pages .relationship) snd
  | _ => True

theorem Lowest.of_find {α : Type} {idOf labelOf : α → Ulong} {record : Ulong → Option α} {label : Ulong}
    {l : List α} {a : α} (hl : InOrder idOf record l) (h : l.find? (label = labelOf ·) = some a) :
    Lowest idOf record labelOf label a := by
  obtain ⟨ha, p, q, rfl, hp⟩ := List.find?_eq_some_iff_append.mp h
  have hlabel : label = labelOf a := of_decide_eq_true ha
  refine ⟨(hl.mem a).mp (by simp), hlabel.symm, fun b hb hbl => ?_⟩
  have hmem := (hl.mem b).mpr hb
  rcases List.mem_append.mp hmem with hmem | hmem
  · have := hp b hmem
    simp [hbl] at this
  · rcases List.mem_cons.mp hmem with rfl | hmem
    · exact Nat.le_refl _
    · exact Nat.le_of_lt ((List.pairwise_cons.mp (List.pairwise_append.mp hl.sorted).2.1).1 b hmem)

theorem Lowest.exists_find {α : Type} {idOf labelOf : α → Ulong} {record : Ulong → Option α}
    {label : Ulong} {l : List α} {a : α} (hl : InOrder idOf record l)
    (h : Lowest idOf record labelOf label a) : ∃ b, l.find? (label = labelOf ·) = some b := by
  rw [← Option.isSome_iff_exists, List.find?_isSome]
  exact ⟨a, (hl.mem a).mpr h.isRecord, decide_eq_true h.hasLabel.symm⟩

end PropertyGraph

/-! ### The store -/

namespace Store

open PropertyGraph (Step Allows HasSlots)

/-- The well-formed store represents the multigraph, and its counters are right. -/
structure Shows (s : Store) (G : PropertyGraph) : Prop where
  wellFormed : s.WellFormed
  counted : s.Counted
  graph : s.graph.Represents G

/-- The call takes a step of the multigraph, or there is none to take. -/
def Refines (s : Store) (G : PropertyGraph) (fuel : ℕ) (c : GraphCall) : Prop :=
  (∃ a s' G', run (HF.graphCall 4096 fuel c) s = .ok (a, s') ∧ Step G c a G' ∧ s'.Shows G') ∨
    (∃ e, run (HF.graphCall 4096 fuel c) s = .error e) ∧
      (HasSlots s.pages c → ∀ a G', ¬ Step G c a G')

variable {s s' : Store} {G : PropertyGraph} {fuel : ℕ} {c : GraphCall} {n x : Ulong}

theorem Shows.records (h : s.Shows G) : s.graph = Graph.recordsOf G :=
  h.graph.eq_records (fun _ _ => node_id) h.wellFormed.graph s.keyed

theorem Shows.valid (h : s.Shows G) : s.Valid := h.wellFormed.valid

/-- A call that returns if and only if a condition holds. -/
theorem Refines.of_iff {p : Prop}
    (hinv : ∀ a s', run (HF.graphCall 4096 fuel c) s = .ok (a, s') → p)
    (hrun : p → ∃ a s' G', run (HF.graphCall 4096 fuel c) s = .ok (a, s') ∧ Step G c a G' ∧
      s'.Shows G')
    (hpre : HasSlots s.pages c → ∀ a G', Step G c a G' → p) : s.Refines G fuel c := by
  by_cases hp : p
  · exact .inl (hrun hp)
  · cases h : run (HF.graphCall 4096 fuel c) s with
    | ok p => exact absurd (hinv p.1 p.2 h) hp
    | error e => exact .inr ⟨⟨e, h⟩, fun hf a G' hs => hp (hpre hf a G' hs)⟩

theorem Shows.live_node (h : s.Shows G) : (G.label n).isSome ↔ ∃ nd, s.graph.node n = some nd := by
  rw [Option.isSome_iff_exists]
  constructor
  · rintro ⟨l, hl⟩
    obtain ⟨nd, hn, -⟩ := h.graph.exists_node hl
    exact ⟨nd, hn⟩
  · rintro ⟨nd, hn⟩
    exact ⟨_, h.graph.label_of_node hn⟩

theorem Shows.live_rel (h : s.Shows G) : (G.edge x).isSome ↔ ∃ r, s.graph.rel x = some r := by
  rw [Option.isSome_iff_exists]
  constructor
  · rintro ⟨d, hd⟩
    obtain ⟨r, hr, -⟩ := h.graph.exists_rel hd
    exact ⟨r, hr⟩
  · rintro ⟨r, hr⟩
    exact ⟨_, h.graph.edge_of_rel hr⟩

theorem Shows.node_of_incident (h : s.Shows G) (hx : x ∈ G.incident n) :
    ∃ nd, s.graph.node n = some nd := by
  refine h.live_node.mp (Option.isSome_iff_ne_none.mpr fun hnone => ?_)
  rw [Multigraph.incident_of_label_none hnone] at hx
  exact absurd hx List.not_mem_nil

/-! ### Records created and updated -/

section Writes

variable (h : s.Shows G) (hfuel : maxPageNo 4096 * 256 ≤ fuel)
include h hfuel

theorem Shows.enough (ft : FileType) : s.pages ft * 256 < fuel := by
  have := h.valid.pages_lt ft
  omega

theorem Shows.createNode_refines (label : Ulong) : s.Refines G fuel (.createNode label) := by
  rcases run_createNode h.valid fuel label with ⟨e, he, hnone⟩ | ⟨id, s', hrun, hC, hg⟩
  · refine .inr ⟨⟨e, Prog.run_bind_error _ he _⟩, fun hfit => ?_⟩
    have hfit' : s.pages .node + 1 < maxPageNo 4096 := hfit
    rcases hnone.exhausted with hlt | hlt
    · exact absurd (h.enough hfuel .node) (by omega)
    · omega
  · have hx : s.graph.node id = none := node_eq_none.mpr hC.fresh
    refine .inl ⟨_, s', _, Prog.run_bind_ok _ hrun _, .createNode (h.graph.label_eq_none.mpr hx),
      createNode_wellFormed h.wellFormed hrun, h.counted.createNode hrun, ?_⟩
    rw [hg]
    exact h.graph.addNode hx rfl

theorem Shows.createRelationship_refines (fromId toId : Ulong) (weight : Double) (label : Ulong) :
    s.Refines G fuel (.createRelationship fromId toId weight label) := by
  by_cases hpre : ((G.label fromId).isSome ∧ (G.label toId).isSome) ∧ weight ≠ uninitializedWeight
  · obtain ⟨⟨hs, ht⟩, hw⟩ := hpre
    obtain ⟨nf, hnf⟩ := h.live_node.mp hs
    obtain ⟨nt, hnt⟩ := h.live_node.mp ht
    rcases run_createRelationship h.wellFormed hnf hnt hw fuel label with
      ⟨e, he, hnone⟩ | ⟨id, s', hrun, -, -⟩
    · refine .inr ⟨⟨e, Prog.run_bind_error _ he _⟩, fun hfit => ?_⟩
      have hfit' : s.pages .relationship + 1 < maxPageNo 4096 := hfit
      rcases hnone.exhausted with hlt | hlt
      · exact absurd (h.enough hfuel .relationship) (by omega)
      · omega
    · obtain ⟨hw', hE⟩ := createRelationship_wellFormed h.wellFormed hnf hnt hw hrun
      exact .inl ⟨_, s', _, Prog.run_bind_ok _ hrun _,
        .createRelationship (h.graph.edge_eq_none.mpr hE.fresh) hs ht hw,
        hw', h.counted.createRelationship hrun, h.graph.addEdge hE hs ht⟩
  · refine .of_iff (p := ((G.label fromId).isSome ∧ (G.label toId).isSome) ∧
      weight ≠ uninitializedWeight) (fun a s' hr => ?_) (fun hp => absurd hp hpre) ?_
    · obtain ⟨id, s₁, hrun, -⟩ := Prog.run_bind_inv _ hr
      obtain ⟨hs, ht, hw⟩ := createRelationship_inv h.valid hrun
      exact ⟨⟨h.live_node.mpr hs, h.live_node.mpr ht⟩, hw⟩
    · rintro - a G' ⟨⟩
      exact ⟨⟨‹_›, ‹_›⟩, ‹_›⟩

end Writes

theorem updateNode_inv (hv : s.Valid) {nd : Node} {u : Unit}
    (hr : run (HF.updateNode nd) s = .ok (u, s')) : s.Live .node nd.id := by
  by_contra hl
  rw [run, HF.updateNode, HF.updateNodeInternal] at hr
  split at hr
  · cases hr
  · obtain ⟨b, s₁, hb, hr⟩ := Prog.run_bind_inv _ hr
    obtain ⟨rfl, rfl⟩ := checkRecordExists_inv hv hb
    simp only [decide_eq_false hl] at hr
    cases hr

theorem updateRelationship_live (hv : s.Valid) {r : Relationship} {u : Unit}
    (hr : run (HF.updateRelationship r) s = .ok (u, s')) :
    s.Live .relationship r.id ∧ r.weight ≠ uninitializedWeight := by
  rw [run, HF.updateRelationship, HF.updateRelationshipInternal] at hr
  split at hr
  · cases hr
  · rename_i hargs
    obtain ⟨b, s₁, hb, hr⟩ := Prog.run_bind_inv _ hr
    obtain ⟨rfl, rfl⟩ := checkRecordExists_inv hv hb
    refine ⟨?_, fun hw => hargs (.inr (.inr (.inr hw)))⟩
    by_contra hl
    simp only [decide_eq_false hl] at hr
    cases hr

section Updates

variable (h : s.Shows G)
include h

theorem Shows.updateNode_refines {nd : Node} (hallow : Allows G (.updateNode nd)) :
    s.Refines G fuel (.updateNode nd) := by
  refine .of_iff (p := s.Live .node nd.id) (fun a s' hr => ?_) (fun hl => ?_) ?_
  · obtain ⟨u, s₁, hrun, -⟩ := Prog.run_bind_inv _ hr
    exact updateNode_inv h.valid hrun
  · have ho : s.graph.node nd.id = some (s.nodeAt nd.id) := node_eq_some.mpr ⟨hl, rfl⟩
    have hfirst := hallow _ (h.records ▸ ho)
    have hg := graph_setNode hl
    have hG := h.graph.setLabel ho hfirst
    refine ⟨_, s.setNode nd, _, Prog.run_bind_ok _ (run_updateNode h.valid hl) _,
      .updateNode (h.live_node.mpr ⟨_, ho⟩), ⟨h.valid.setNode nd, fun x r hr => ?_, ?_⟩,
      h.counted.sameSlots (sameSlots_setNode nd), ?_⟩
    · rw [hg] at hr
      exact h.wellFormed.weights x r hr
    · rw [hg]
      exact hG.wellFormed h.wellFormed.graph.loops
    · rw [hg]
      exact hG
  · rintro - a G' ⟨⟩
    obtain ⟨nd', hn⟩ := h.live_node.mp ‹_›
    exact (node_eq_some.mp hn).1

theorem Shows.updateRelationship_refines {r : Relationship}
    (hallow : Allows G (.updateRelationship r)) : s.Refines G fuel (.updateRelationship r) := by
  refine .of_iff (p := s.Live .relationship r.id ∧ r.weight ≠ uninitializedWeight)
    (fun a s' hr => ?_) ?_ ?_
  · obtain ⟨u, s₁, hrun, -⟩ := Prog.run_bind_inv _ hr
    exact updateRelationship_live h.valid hrun
  · rintro ⟨hl, hweight⟩
    have ho : s.graph.rel r.id = some (s.relAt r.id) := rel_eq_some.mpr ⟨hl, rfl⟩
    have hsame := hallow _ (h.records ▸ ho)
    have hwr : Writable r := by
      have := h.wellFormed.writable ho
      rw [hsame]
      exact ⟨this.1, this.2.1, hweight⟩
    have hg := graph_setRel hl
    have hG := h.graph.setData ho hsame
    refine ⟨_, s.setRel r, _, Prog.run_bind_ok _ (run_updateRelationship h.valid hl hwr) _,
      .updateRelationship (h.live_rel.mpr ⟨_, ho⟩) hweight, ⟨h.valid.setRel r, fun x q hq => ?_, ?_⟩,
      h.counted.sameSlots (sameSlots_setRel r), ?_⟩
    · rw [hg] at hq
      simp only [Graph.setRel, Function.update_apply] at hq
      split at hq
      · cases hq
        exact hweight
      · exact h.wellFormed.weights x q hq
    · rw [hg]
      exact hG.wellFormed (h.wellFormed.graph.loops.setRel ho hsame)
    · rw [hg]
      exact hG
  · rintro - a G' ⟨⟩
    obtain ⟨q, hq⟩ := h.live_rel.mp ‹_›
    exact ⟨(rel_eq_some.mp hq).1, ‹_›⟩

end Updates

/-! ### Records deleted -/

section Deletes

variable (h : s.Shows G)
include h

/-- A relationship that is not alone at its source is taken out. -/
theorem Shows.deleteRelationship (hx : (G.edge x).isSome) (hlone : ¬ G.LoneAtSource x) :
    ∃ s', run (HF.deleteRelationship x) s = .ok ((), s') ∧ s'.Shows (G.removeEdges [x]) := by
  obtain ⟨rel, hr⟩ := h.live_rel.mp hx
  obtain ⟨s', hrun, hg, hD⟩ := h.wellFormed.run_deleteRelationship hr
  rw [h.graph.loneAtSource_iff s.keyed hr] at hlone
  obtain ⟨hw', hR⟩ := h.wellFormed.deleted hr hg hD.valid hlone
  refine ⟨s', hrun, hw', h.counted.deleted hD fun c gt => ?_, h.graph.removeEdge hR⟩
  cases gt
  · exact (BitVec.sub_zero _).symm
  · rfl

theorem Shows.deleteRelationship_refines (hallow : ¬ G.LoneAtSource x) :
    s.Refines G fuel (.deleteRelationship x) := by
  refine .of_iff (p := (G.edge x).isSome) (fun a s' hr => ?_) (fun hx => ?_) ?_
  · obtain ⟨u, s₁, hrun, -⟩ := Prog.run_bind_inv _ hr
    rw [HF.deleteRelationship] at hrun
    split at hrun
    · cases hrun
    · obtain ⟨rel, s₂, hread, -⟩ := Prog.run_bind_inv _ hrun
      exact h.live_rel.mpr ⟨rel, (readRelationship_inv h.valid hread).1⟩
  · obtain ⟨s', hrun, hs'⟩ := h.deleteRelationship hx hallow
    exact ⟨_, s', _, Prog.run_bind_ok _ hrun _, .deleteRelationship hx, hs'⟩
  · rintro - a G' ⟨⟩
    assumption

omit h in
/-- **The loop of `delete_node`** takes out the relationships of a node, from the last one on. -/
theorem Shows.deleteChain (n : Ulong) (p : List Ulong) : ∀ {s : Store} {G : PropertyGraph}
    {r lastId : Ulong} {fuel : ℕ}, s.Shows G → G.incident n = p ++ [r] → r ≠ lastId → G.Deletable n →
    (p ++ [r]).length < fuel →
    ∃ s', run (HF.deleteChain n fuel r lastId) s = .ok ((), s') ∧
      s'.Shows (G.removeEdges (p ++ [r])) := by
  induction p using List.reverseRecOn with
  | nil =>
      intro s G r lastId fuel h hinc hne hdel hfuel
      obtain ⟨fuel, rfl⟩ : ∃ k, fuel = k + 2 := ⟨fuel - 2, by simp at hfuel; omega⟩
      obtain ⟨rel, hr, ha⟩ := h.graph.mem_incident.mp (show r ∈ G.incident n by simp [hinc])
      have hlone := hdel [] r [] hinc
      rw [Multigraph.removeEdges_nil] at hlone
      obtain ⟨s₁, h₁, hs₁⟩ := h.deleteRelationship (h.live_rel.mpr ⟨rel, hr⟩) hlone
      -- the relationship precedes itself
      obtain ⟨nd, hn⟩ := h.node_of_incident (show r ∈ G.incident n by simp [hinc])
      have hc := h.graph.chain n nd hn
      rw [hinc] at hc
      have hprev : rel.prevAt n = r := by
        rw [← Graph.prev_of_rel hr]
        exact (Ring.singleton_iff.mp hc.ring).2
      refine ⟨s₁, ?_, hs₁⟩
      rw [run_deleteChain_turn h.valid hr ha hne, run, Prog.run_bind_ok _ h₁, hprev]
      exact run_deleteChain_stop fuel r
  | append_singleton p r₁ ih =>
      intro s G r lastId fuel h hinc hne hdel hfuel
      obtain ⟨fuel, rfl⟩ : ∃ k, fuel = k + 1 := ⟨fuel - 1, by omega⟩
      obtain ⟨rel, hr, ha⟩ := h.graph.mem_incident.mp (show r ∈ G.incident n by simp [hinc])
      have hlone := hdel (p ++ [r₁]) r [] hinc
      rw [Multigraph.removeEdges_nil] at hlone
      obtain ⟨s₁, h₁, hs₁⟩ := h.deleteRelationship (h.live_rel.mpr ⟨rel, hr⟩) hlone
      obtain ⟨nd, hn⟩ := h.node_of_incident (show r ∈ G.incident n by simp [hinc])
      have hc := h.graph.chain n nd hn
      rw [hinc] at hc
      have hprev : rel.prevAt n = r₁ := by
        rw [← Graph.prev_of_rel hr]
        exact hc.ring.links_concat.2
      have hnot : r ∉ p ++ [r₁] := fun h => (List.nodup_append.mp hc.nodup).2.2 r h r (by simp) rfl
      have hinc₁ : (G.removeEdges [r]).incident n = p ++ [r₁] := by
        rw [Multigraph.removeEdges_incident_singleton, hinc, List.erase_append_right _ hnot,
          List.erase_cons_head, List.append_nil]
      have hne₁ : r₁ ≠ r := fun e => hnot (by simp [e])
      have hlen : (p ++ [r₁]).length < fuel := by
        simp only [List.length_append, List.length_singleton] at hfuel ⊢
        omega
      obtain ⟨s', h', hs'⟩ := ih hs₁ hinc₁ hne₁ (hdel.removeLast hinc) hlen
      refine ⟨s', ?_, ?_⟩
      · rw [run_deleteChain_turn h.valid hr ha hne, run, Prog.run_bind_ok _ h₁, hprev]
        exact h'
      · rwa [Multigraph.removeEdges_removeEdges] at hs'

/-- A node without relationships is taken out. -/
theorem Shows.dropNode (hn : (G.label n).isSome) (hnil : G.incident n = []) (label : Ulong) :
    ∃ s', run (HF.dropNode n label) s = .ok ((), s') ∧ s'.Shows (G.dropNode n hnil) := by
  obtain ⟨nd, hnd⟩ := h.live_node.mp hn
  obtain ⟨s', hrun, hg, hD⟩ := run_dropNode h.valid (node_eq_some.mp hnd).1 label
  have hG := h.graph.dropNode hnil
  rw [← hg] at hG
  have hrel : s'.graph.rel = s.graph.rel := by
    rw [hg]
    rfl
  refine ⟨s', hrun, ⟨hD.valid, fun x r hr => ?_, hG.wellFormed fun x r hr => ?_⟩,
    h.counted.deleted hD fun c gt => ?_, hG⟩
  · rw [hrel] at hr
    exact h.wellFormed.weights x r hr
  · rw [hrel] at hr
    exact h.wellFormed.graph.loops x r hr
  · cases gt
    · rfl
    · exact (BitVec.sub_zero _).symm

theorem Shows.deleteNode_refines (hfuel : maxPageNo 4096 * 256 ≤ fuel) (hallow : G.Deletable n) :
    s.Refines G fuel (.deleteNode n) := by
  refine .of_iff (p := (G.label n).isSome) (fun a s' hr => ?_) (fun hn => ?_) ?_
  · obtain ⟨u, s₁, hrun, -⟩ := Prog.run_bind_inv _ hr
    rw [HF.deleteNode] at hrun
    split at hrun
    · cases hrun
    · obtain ⟨nd, s₂, hread, -⟩ := Prog.run_bind_inv _ hrun
      exact h.live_node.mpr ⟨nd, (readNode_inv h.valid hread).1⟩
  · obtain ⟨nd, hnd⟩ := h.live_node.mp hn
    have hc := h.graph.chain n nd hnd
    have heq := run_deleteNode_eq h.wellFormed hnd hc fuel
    obtain ⟨s', hrun, hs'⟩ : ∃ s', run (HF.deleteNode fuel n) s = .ok ((), s') ∧
        s'.Shows (G.removeNode n) := by
      rcases List.eq_nil_or_concat (G.incident n) with hnil | ⟨p, r, hp⟩
      · rw [heq, hnil]
        obtain ⟨s', hrun, hs'⟩ := h.dropNode hn hnil nd.label
        exact ⟨s', hrun, Multigraph.removeNode_of_nil hnil ▸ hs'⟩
      · rw [List.concat_eq_append] at hp
        have hr : r ∈ G.incident n := by simp [hp]
        obtain ⟨rel, hrel, -⟩ := h.graph.mem_incident.mp hr
        have hU : r ≠ uninitializedLong := h.valid.ne_uninitialized (rel_eq_some.mp hrel).1.2.1
        have hlen : (p ++ [r]).length < fuel := by
          rw [← hp]
          exact (walk_length_le hc.walk).trans_lt (h.enough hfuel .relationship)
        obtain ⟨s₁, h₁, hs₁⟩ := Shows.deleteChain n p h hp hU hallow hlen
        rw [← hp] at hs₁
        obtain ⟨s', hrun, hs'⟩ := hs₁.dropNode (n := n) hn
          (List.filter_eq_nil_iff.mpr (by simp)) nd.label
        refine ⟨s', ?_, hs'⟩
        rw [heq, hp, List.getLast?_concat]
        exact (Prog.run_bind_ok _ h₁ _).trans hrun
    exact ⟨_, s', _, Prog.run_bind_ok _ hrun _, .deleteNode hn, hs'⟩
  · rintro - a G' ⟨⟩
    assumption

end Deletes

/-! ### Records exchanged -/

section Swaps

variable {fst snd : Ulong} (h : s.Shows G)
include h

theorem Shows.renamed {ft : FileType} {G' : PropertyGraph} (hE : s.Exchanged ft fst snd s')
    (hU : Equiv.swap fst snd uninitializedLong = uninitializedLong)
    (hg : s'.graph = s.graph.renameAt ft (Equiv.swap fst snd)) (hG : s'.graph.Represents G') :
    s'.Shows G' := by
  have hw : s'.WellFormed := by
    cases ft with
    | node => exact h.wellFormed.rename hE.valid rfl hg
    | relationship => exact h.wellFormed.rename hE.valid hU hg
  exact ⟨hw, (Renamed.of_exchanged hE hw hg).counted h.counted, hG⟩

/-- Without stranded relationships the exchange of two nodes is a renaming. -/
theorem Shows.graph_of_swapNodes (hallow : Allows G (.swapNodes fst snd))
    (hn : s'.graph.node = (s.graph.rename (Equiv.swap fst snd) 1).node)
    (hr : s'.graph.rel = if s.Live .node fst ∧ ¬ s.Live .node snd then s.graph.rel
      else (s.graph.rename (Equiv.swap fst snd) 1).rel) :
    s'.graph = s.graph.rename (Equiv.swap fst snd) 1 := by
  refine Graph.ext hn ?_
  rw [hr]
  split
  · rename_i hl
    have hsnd : G.label snd = none := h.graph.label_eq_none.mpr (node_eq_none.mpr hl.2)
    refine (rename_rel_of_not_at fun x r hx => ⟨fun ha => hallow ⟨hsnd, ?_⟩, ?_⟩).symm
    · exact List.ne_nil_of_mem (h.graph.mem_incident.mpr ⟨r, hx, ha⟩)
    · exact h.wellFormed.not_at_of_not_live hl.2 hx
  · rfl

theorem Shows.swapNodes_refines (hfuel : maxPageNo 4096 * 256 ≤ fuel)
    (hallow : Allows G (.swapNodes fst snd)) : s.Refines G fuel (.swapNodes fst snd) := by
  refine .of_iff (p := HasSlots s.pages (.swapNodes fst snd)) (fun a s' hr => ?_)
    (fun hacc => ?_) fun hs _ _ _ => hs
  · obtain ⟨u, s₁, hrun, -⟩ := Prog.run_bind_inv _ hr
    rw [HF.swapNodes] at hrun
    obtain ⟨k, s₂, hnum, hrun⟩ := Prog.run_bind_inv _ hrun
    cases hnum
    split at hrun
    · cases hrun
    · rename_i hacc
      exact not_not.mp hacc
  · have hp := ((swapAccepts_iff .node h.valid).mp hacc.1).1
    have hq := ((swapAccepts_iff .node h.valid).mp hacc.2).1
    obtain ⟨s', hrun, hE, hn, hr⟩ := run_swapNodes h.wellFormed hp hq (h.enough hfuel .relationship)
    have hg := h.graph_of_swapNodes hallow hn hr
    refine ⟨_, s', _, Prog.run_bind_ok _ hrun _, .swapNodes, h.renamed hE ?_ hg ?_⟩
    · exact Equiv.swap_apply_of_ne_of_ne (h.valid.ne_uninitialized hp).symm
        (h.valid.ne_uninitialized hq).symm
    · rw [hg]
      exact h.graph.renameNodes _

theorem Shows.swapRelationships_refines (hallow : Allows G (.swapRelationships fst snd)) :
    s.Refines G fuel (.swapRelationships fst snd) := by
  refine .of_iff (p := HasSlots s.pages (.swapRelationships fst snd)) (fun a s' hr => ?_)
    (fun hacc => ?_) fun hs _ _ _ => hs
  · obtain ⟨u, s₁, hrun, -⟩ := Prog.run_bind_inv _ hr
    rw [HF.swapRelationships] at hrun
    obtain ⟨k, s₂, hnum, hrun⟩ := Prog.run_bind_inv _ hrun
    cases hnum
    split at hrun
    · cases hrun
    · rename_i hacc
      exact not_not.mp hacc
  · have hp := ((swapAccepts_iff .relationship h.valid).mp hacc.1).1
    have hq := ((swapAccepts_iff .relationship h.valid).mp hacc.2).1
    obtain ⟨s', hrun, hE, hg⟩ := run_swapRelationships h.wellFormed hallow.1 hallow.2 hp hq
    have hU : Equiv.swap fst snd uninitializedLong = uninitializedLong :=
      Equiv.swap_apply_of_ne_of_ne (h.valid.ne_uninitialized hp).symm
        (h.valid.ne_uninitialized hq).symm
    refine ⟨_, s', _, Prog.run_bind_ok _ hrun _, .swapRelationships, h.renamed hE hU hg ?_⟩
    rw [hg]
    exact h.graph.renameEdges hU

end Swaps

/-! ### Records read -/

section Reads

variable (h : s.Shows G) (hfuel : maxPageNo 4096 * 256 ≤ fuel)
include h

theorem Shows.readNode_refines (n : Ulong) : s.Refines G fuel (.readNode n) := by
  refine .of_iff (p := ∃ nd, s.graph.node n = some nd) (fun a s' hr => ?_) ?_ ?_
  · obtain ⟨nd, s₁, hrun, -⟩ := Prog.run_bind_inv _ hr
    exact ⟨nd, (readNode_inv h.valid hrun).1⟩
  · rintro ⟨nd, hn⟩
    exact ⟨_, s, _, Prog.run_bind_ok _ (run_readNode h.valid hn) _, .readNode (h.records ▸ hn), h⟩
  · rintro - a G' ⟨⟩
    rw [h.records]
    exact ⟨_, ‹_›⟩

theorem Shows.readRelationship_refines (x : Ulong) : s.Refines G fuel (.readRelationship x) := by
  refine .of_iff (p := ∃ r, s.graph.rel x = some r) (fun a s' hr => ?_) ?_ ?_
  · obtain ⟨r, s₁, hrun, -⟩ := Prog.run_bind_inv _ hr
    exact ⟨r, (readRelationship_inv h.valid hrun).1⟩
  · rintro ⟨r, hx⟩
    exact ⟨_, s, _, Prog.run_bind_ok _ (run_readRelationship h.valid hx) _,
      .readRelationship (h.records ▸ hx), h⟩
  · rintro - a G' ⟨⟩
    rw [h.records]
    exact ⟨_, ‹_›⟩

include hfuel

theorem Shows.expand_refines (n : Ulong) (direction : Direction) :
    s.Refines G fuel (.expand n direction) := by
  refine .of_iff (p := (G.label n).isSome) (fun a s' hr => ?_) (fun hn => ?_) ?_
  · obtain ⟨rs, s₁, hrun, -⟩ := Prog.run_bind_inv _ hr
    obtain ⟨nd, s₂, hread, -⟩ := Prog.run_bind_inv _ hrun
    exact h.live_node.mpr ⟨nd, (readNode_inv h.valid hread).1⟩
  · obtain ⟨nd, hnd⟩ := h.live_node.mp hn
    have hw := (h.graph.chain n nd hnd).walk
    have hrun := run_expand h.valid hnd hw direction
      ((walk_length_le hw).trans_lt (h.enough hfuel .relationship))
    refine ⟨_, s, _, Prog.run_bind_ok _ hrun _, ?_, h⟩
    rw [h.records]
    exact .expand hn
  · rintro - a G' ⟨⟩
    assumption

omit hfuel in
theorem Shows.nodes_inOrder :
    PropertyGraph.InOrder Node.id (Graph.recordsOf G).node ((s.liveIds .node).map s.nodeAt) where
  sorted := List.pairwise_map.mpr (pairwise_liveIds h.valid)
  mem nd := by
    rw [← h.records, node_eq_some, List.mem_map]
    constructor
    · rintro ⟨x, hx, rfl⟩
      exact ⟨mem_liveIds.mp hx, rfl⟩
    · rintro ⟨hl, he⟩
      exact ⟨nd.id, mem_liveIds.mpr hl, he⟩

omit hfuel in
theorem Shows.relationships_inOrder : PropertyGraph.InOrder Relationship.id (Graph.recordsOf G).rel
    ((s.liveIds .relationship).map s.relAt) where
  sorted := List.pairwise_map.mpr (pairwise_liveIds h.valid)
  mem r := by
    rw [← h.records, rel_eq_some, List.mem_map]
    constructor
    · rintro ⟨x, hx, rfl⟩
      exact ⟨mem_liveIds.mp hx, rfl⟩
    · rintro ⟨hl, he⟩
      exact ⟨r.id, mem_liveIds.mpr hl, he⟩

theorem Shows.getNodes_refines : s.Refines G fuel .getNodes :=
  .inl ⟨_, s, _, Prog.run_bind_ok _ (run_getNodes h.valid (h.enough hfuel .node)) _,
    .getNodes h.nodes_inOrder, h⟩

theorem Shows.getRelationships_refines : s.Refines G fuel .getRelationships :=
  .inl ⟨_, s, _, Prog.run_bind_ok _ (run_getRelationships h.valid (h.enough hfuel .relationship)) _,
    .getRelationships h.relationships_inOrder, h⟩

theorem Shows.findNode_refines (label : Ulong) : s.Refines G fuel (.findNode label) := by
  have hrun := run_findNode h.valid (h.enough hfuel .node) label
  rw [found] at hrun
  cases hfind : ((s.liveIds .node).map s.nodeAt).find? (label = Node.label ·) with
  | some nd =>
      rw [hfind] at hrun
      exact .inl ⟨_, s, _, Prog.run_bind_ok _ hrun _, .findNode (.of_find h.nodes_inOrder hfind), h⟩
  | none =>
      rw [hfind] at hrun
      refine .inr ⟨⟨_, Prog.run_bind_error _ hrun _⟩, ?_⟩
      rintro - a G' ⟨⟩
      obtain ⟨nd, hnd⟩ := PropertyGraph.Lowest.exists_find h.nodes_inOrder ‹_›
      rw [hfind] at hnd
      cases hnd

theorem Shows.findRelationships_refines (label : Ulong) :
    s.Refines G fuel (.findRelationships label) := by
  have hrun := run_findRelationships h.valid (h.enough hfuel .relationship) label
  rw [found] at hrun
  cases hfind : ((s.liveIds .relationship).map s.relAt).find? (label = Relationship.label ·) with
  | some r =>
      rw [hfind] at hrun
      exact .inl ⟨_, s, _, Prog.run_bind_ok _ hrun _,
        .findRelationships (.of_find h.relationships_inOrder hfind), h⟩
  | none =>
      rw [hfind] at hrun
      refine .inr ⟨⟨_, Prog.run_bind_error _ hrun _⟩, ?_⟩
      rintro - a G' ⟨⟩
      obtain ⟨r, hr⟩ := PropertyGraph.Lowest.exists_find h.relationships_inOrder ‹_›
      rw [hfind] at hr
      cases hr

end Reads

/-! ### All calls -/

/-- **The heap file is a property graph**: on a store that represents a multigraph, an allowed call
takes a step of the multigraph, or has none to take. -/
theorem graphCall_refines (h : s.Shows G) (hfuel : maxPageNo 4096 * 256 ≤ fuel)
    (hallow : Allows G c) : s.Refines G fuel c := by
  cases c with
  | createNode label => exact h.createNode_refines hfuel label
  | createRelationship fromId toId weight label =>
      exact h.createRelationship_refines hfuel fromId toId weight label
  | updateNode nd => exact h.updateNode_refines hallow
  | updateRelationship r => exact h.updateRelationship_refines hallow
  | deleteNode n => exact h.deleteNode_refines hfuel hallow
  | deleteRelationship x => exact h.deleteRelationship_refines hallow
  | swapNodes fst snd => exact h.swapNodes_refines hfuel hallow
  | swapRelationships fst snd => exact h.swapRelationships_refines hallow
  | readNode n => exact h.readNode_refines n
  | readRelationship x => exact h.readRelationship_refines x
  | expand n direction => exact h.expand_refines hfuel n direction
  | getNodes => exact h.getNodes_refines hfuel
  | getRelationships => exact h.getRelationships_refines hfuel
  | findNode label => exact h.findNode_refines hfuel label
  | findRelationships label => exact h.findRelationships_refines hfuel label

end Store

end Goedb
