import Goedb.Access.DeleteNode
import Goedb.Lib.Multigraph
import Goedb.Order.Reorder

/-!
# Access — the property graph

What the database is for: a multigraph with labels at its nodes, and a weight and a label at each of
its relationships.  The relationships at a node are in an order, in which `expand` returns them.

`Graph.Represents g G` says that the records `g` with their chains of pointers represent the multigraph
`G`; the multigraph then says everything about the records (`Graph.Represents.eq_records`).  For each
change of the records there is a lemma that gives the multigraph afterwards.
-/

namespace Goedb

open Lib

/-- A multigraph of nodes with labels and relationships with weights and labels. -/
abbrev PropertyGraph := Multigraph Ulong Ulong Ulong (Double × Ulong)

/-- What a relationship says, as an edge. -/
def Relationship.edge (r : Relationship) : Edge Ulong (Double × Ulong) :=
  ⟨r.sourceNode, r.targetNode, r.weight, r.label⟩

@[simp] theorem Relationship.edge_at {r : Relationship} {n : Ulong} : r.edge.At n ↔ r.At n := Iff.rfl

namespace Graph

/-- The records represent the multigraph: the same labels and edges, and chains in the order of the
multigraph. -/
structure Represents (g : Graph) (G : PropertyGraph) : Prop where
  label : ∀ n, g.labelAt n = G.label n
  edge : ∀ x, (g.rel x).map Relationship.edge = G.edge x
  chain : ∀ n nd, g.node n = some nd → g.Chain n nd.firstRelationship (G.incident n)

/-- The record of an edge, with the pointers of its place in the orders of its ends. -/
def recordOf (G : PropertyGraph) (x : Ulong) (d : Edge Ulong (Double × Ulong)) : Relationship :=
  { id := x
    sourceNode := d.source
    targetNode := d.target
    prevRelSource := (G.incident d.source).formPerm.symm x
    nextRelSource := (G.incident d.source).formPerm x
    prevRelTarget := (G.incident d.target).formPerm.symm x
    nextRelTarget := (G.incident d.target).formPerm x
    weight := d.data.1
    label := d.data.2 }

/-- The records of a multigraph. -/
def recordsOf (G : PropertyGraph) : Graph where
  node n := (G.label n).map fun label => ⟨n, (G.incident n).headD uninitializedLong, label⟩
  rel x := (G.edge x).map (recordOf G x)

theorem recordsOf_node (G : PropertyGraph) (n : Ulong) : (recordsOf G).node n =
    (G.label n).map fun label => ⟨n, (G.incident n).headD uninitializedLong, label⟩ := rfl

theorem recordsOf_rel (G : PropertyGraph) (x : Ulong) :
    (recordsOf G).rel x = (G.edge x).map (recordOf G x) := rfl

variable {g g' : Graph} {G : PropertyGraph} {n x : Ulong} {nd : Node} {r : Relationship}

theorem edge_of_payload {o p : Option Relationship}
    (h : o.map Relationship.payload = p.map Relationship.payload) :
    o.map Relationship.edge = p.map Relationship.edge := by
  have hcomp : Relationship.edge =
      (fun p : Ulong × Ulong × Double × Ulong => (⟨p.1, p.2.1, p.2.2⟩ : Edge Ulong (Double × Ulong))) ∘
        Relationship.payload := rfl
  rw [hcomp, ← Option.map_map, h, Option.map_map]

theorem represents_empty : (⟨fun _ => none, fun _ => none⟩ : Graph).Represents .empty where
  label _ := rfl
  edge _ := rfl
  chain _ _ h := by cases h

/-- A chain looks at the relationships only. -/
theorem Chain.of_rel_eq {first : Ulong} {l : List Ulong} (hc : g.Chain n first l)
    (h : g'.rel = g.rel) : g'.Chain n first l := by
  have hnext : g'.next n = g.next n := funext fun x => by rw [next, next, h]
  have hprev : g'.prev n = g.prev n := funext fun x => by rw [prev, prev, h]
  exact ⟨hc.nodup, fun x => by rw [h]; exact hc.mem x, by rw [hnext, hprev]; exact hc.ring,
    hc.first_eq, hc.first_eq_iff⟩

/-- A chain does not look at weights and labels. -/
theorem Chain.setRel {first : Ulong} {l : List Ulong} (hc : g.Chain n first l)
    {old : Relationship} (ho : g.rel r.id = some old)
    (h : r = { old with weight := r.weight, label := r.label }) : (g.setRel r).Chain n first l := by
  have hnext : (g.setRel r).next n = g.next n := by
    funext x
    simp only [next, Graph.setRel, Function.update_apply]
    split
    · rename_i hx
      rw [hx, ho, h]
      rfl
    · rfl
  have hprev : (g.setRel r).prev n = g.prev n := by
    funext x
    simp only [prev, Graph.setRel, Function.update_apply]
    split
    · rename_i hx
      rw [hx, ho, h]
      rfl
    · rfl
  refine ⟨hc.nodup, fun x => ?_, by rw [hnext, hprev]; exact hc.ring, hc.first_eq, hc.first_eq_iff⟩
  rw [hc.mem]
  simp only [Graph.setRel, Function.update_apply]
  split
  · rename_i hx
    rw [hx, ho]
    have ha : r.At n ↔ old.At n := by
      rw [h]
      exact Iff.rfl
    simp [ha]
  · rfl

theorem LoopsAgree.setRel {old : Relationship} (hl : g.LoopsAgree) (ho : g.rel r.id = some old)
    (hr : r = { old with weight := r.weight, label := r.label }) : (g.setRel r).LoopsAgree := by
  intro x q hq
  simp only [Graph.setRel, Function.update_apply] at hq
  split at hq
  · cases hq
    rw [hr]
    exact hl _ old ho
  · exact hl x q hq

namespace Represents

variable (h : g.Represents G)
include h

theorem exists_node {l : Ulong} (hl : G.label n = some l) :
    ∃ nd, g.node n = some nd ∧ nd.label = l := by
  rw [← h.label, labelAt, Option.map_eq_some_iff] at hl
  exact hl

theorem label_of_node (hn : g.node n = some nd) : G.label n = some nd.label := by
  rw [← h.label, labelAt, hn, Option.map_some]

theorem label_eq_none : G.label n = none ↔ g.node n = none := by
  rw [← h.label, labelAt, Option.map_eq_none_iff]

theorem exists_rel {d : Edge Ulong (Double × Ulong)} (hd : G.edge x = some d) :
    ∃ r, g.rel x = some r ∧ r.edge = d := by
  rw [← h.edge, Option.map_eq_some_iff] at hd
  exact hd

theorem edge_of_rel (hr : g.rel x = some r) : G.edge x = some r.edge := by
  rw [← h.edge, hr, Option.map_some]

theorem edge_eq_none : G.edge x = none ↔ g.rel x = none := by
  rw [← h.edge, Option.map_eq_none_iff]

theorem mem_incident : x ∈ G.incident n ↔ ∃ r, g.rel x = some r ∧ r.At n := by
  rw [G.mem_incident]
  constructor
  · rintro ⟨d, hd, ha⟩
    obtain ⟨r, hr, rfl⟩ := h.exists_rel hd
    exact ⟨r, hr, ha⟩
  · rintro ⟨r, hr, ha⟩
    exact ⟨r.edge, h.edge_of_rel hr, ha⟩

/-- The first relationship of a node is the first one of the order. -/
theorem first_eq (hn : g.node n = some nd) :
    nd.firstRelationship = (G.incident n).headD uninitializedLong := (h.chain n nd hn).first_eq

/-- An edge is alone at its source in the multigraph if its relationship is so in the records. -/
theorem loneAtSource_iff (hk : g.Keyed) (hr : g.rel x = some r) :
    G.LoneAtSource x ↔ g.LoneAtSource r := by
  have hx : r.id = x := hk x r hr
  have hmem : ∀ {n}, r.At n → x ∈ G.incident n := fun ha => h.mem_incident.mpr ⟨r, hr, ha⟩
  have honly : ∀ {n}, r.At n → (G.incident n = [x] ↔ ∀ y q, g.rel y = some q → q.At n → y = x) := by
    intro n ha
    constructor
    · intro he y q hy hq
      have := h.mem_incident.mpr ⟨q, hy, hq⟩
      rw [he] at this
      exact List.mem_singleton.mp this
    · intro hall
      refine List.perm_singleton.mp
        ((List.perm_ext_iff_of_nodup (G.nodup n) (List.nodup_singleton x)).mpr fun y => ?_)
      rw [List.mem_singleton]
      constructor
      · intro hy
        obtain ⟨q, hq, ha'⟩ := h.mem_incident.mp hy
        exact hall y q hq ha'
      · rintro rfl
        exact hmem ha
  have hsource : G.incident r.edge.source = [x] ↔ _ := honly (n := r.sourceNode) (.inl rfl)
  have htarget : G.incident r.edge.target = [x] ↔ _ := honly (n := r.targetNode) (.inr rfl)
  simp only [Multigraph.LoneAtSource, h.edge_of_rel hr, Option.some.injEq, exists_eq_left',
    Graph.LoneAtSource, hsource, ne_eq, htarget, hx]
  refine and_congr Iff.rfl ?_
  push Not
  rfl

/-- What is left of being well-formed. -/
theorem wellFormed (hl : g.LoopsAgree) : g.WellFormed where
  chain n nd hn := ⟨_, h.chain n nd hn⟩
  loops := hl
  endpoints x r hr := by
    obtain ⟨hs, ht⟩ := G.ends (h.edge_of_rel hr)
    rw [← h.label] at hs ht
    exact ⟨exists_node_of_labelAt hs, exists_node_of_labelAt ht⟩

/-- **The records are a function of the multigraph**: the pointers of a relationship are those of its
place in the orders of its endpoints. -/
theorem eq_records (hn : ∀ n nd, g.node n = some nd → nd.id = n) (hw : g.WellFormed)
    (hk : g.Keyed) : g = recordsOf G := by
  refine Graph.ext (funext fun n => ?_) (funext fun x => ?_)
  · cases hnd : g.node n with
    | none => rw [recordsOf_node, h.label_eq_none.mpr hnd, Option.map_none]
    | some nd =>
        rw [recordsOf_node, h.label_of_node hnd, Option.map_some, ← h.first_eq hnd, ← hn n nd hnd]
  · cases hr : g.rel x with
    | none => rw [recordsOf_rel, h.edge_eq_none.mpr hr, Option.map_none]
    | some r =>
        obtain rfl := hk x r hr
        obtain ⟨⟨s, hs⟩, t, ht⟩ := hw.endpoints _ r hr
        have hcs := h.chain _ s hs
        have hct := h.chain _ t ht
        have hxs := hcs.mem_of_rel hr (.inl rfl)
        have hxt := hct.mem_of_rel hr (.inr rfl)
        have hns := hcs.ring.nxt_eq_formPerm hcs.nodup hxs
        have hps := hcs.ring.prv_eq_formPerm hcs.nodup hxs
        have hnt := hct.ring.nxt_eq_formPerm hct.nodup hxt
        have hpt := hct.ring.prv_eq_formPerm hct.nodup hxt
        rw [next_of_rel hr, (prevAt_source rfl).2] at hns
        rw [prev_of_rel hr, (prevAt_source rfl).1] at hps
        rw [next_of_rel hr, (prevAt_target (hw.loops _ r hr) rfl).2] at hnt
        rw [prev_of_rel hr, (prevAt_target (hw.loops _ r hr) rfl).1] at hpt
        rw [recordsOf_rel, h.edge_of_rel hr, Option.map_some, Option.some.injEq]
        simp only [recordOf, Relationship.edge, ← hns, ← hps, ← hnt, ← hpt]

/-! ### Changes of the records -/

/-- A node more. -/
theorem addNode (hx : g.node nd.id = none) (hfirst : nd.firstRelationship = uninitializedLong) :
    (g.setNode nd).Represents (G.addNode nd.id nd.label) where
  label n := by
    simp only [labelAt, Graph.setNode, Multigraph.addNode, Function.update_apply]
    split
    · rfl
    · exact h.label n
  edge := h.edge
  chain n nd' hn := by
    by_cases he : n = nd.id
    · subst he
      have : nd = nd' := by simpa [Graph.setNode] using hn
      subst this
      have hnil : G.incident nd.id = [] :=
        Multigraph.incident_of_label_none (h.label_eq_none.mpr hx)
      have hmem : ∀ x, x ∈ G.incident nd.id ↔ _ := fun x => h.mem_incident
      show Graph.Chain _ nd.id nd.firstRelationship (G.incident nd.id)
      rw [hnil] at hmem ⊢
      exact ⟨List.nodup_nil, hmem, Ring.nil, hfirst, by simp [hfirst]⟩
    · have hn' : g.node n = some nd' := by
        simpa [Graph.setNode, Function.update_of_ne he] using hn
      exact (h.chain n nd' hn').of_rel_eq rfl

/-- A relationship more. -/
theorem addEdge {id : Ulong} (hE : g.Extends g' id r) (hs : (G.label r.sourceNode).isSome)
    (ht : (G.label r.targetNode).isSome) :
    g'.Represents (G.addEdge id r.edge (h.edge_eq_none.mpr hE.fresh) hs ht) where
  label n := (hE.labels n).trans (h.label n)
  edge x := by
    simp only [Multigraph.addEdge, Function.update_apply]
    split
    · rename_i hx
      rw [hx]
      exact edge_of_payload (p := some r) hE.new
    · rename_i hx
      rw [← h.edge]
      exact edge_of_payload (hE.others x hx)
  chain n nd' hn := by
    have hlabel : (g.node n).map Node.label = some nd'.label := by rw [← hE.labels, hn]; rfl
    obtain ⟨nd, hnd, -⟩ := Option.map_eq_some_iff.mp hlabel
    obtain ⟨nd'', hn'', hc⟩ := hE.chains n nd _ hnd (h.chain n nd hnd)
    rw [hn] at hn''
    cases hn''
    exact hc

/-- Another label at a node. -/
theorem setLabel {old : Node} (ho : g.node nd.id = some old)
    (hfirst : nd.firstRelationship = old.firstRelationship) :
    (g.setNode nd).Represents (G.setLabel nd.id nd.label) where
  label n := by
    simp only [labelAt, Graph.setNode, Multigraph.setLabel, Function.update_apply]
    split
    · rw [h.label_of_node ho]
      rfl
    · exact h.label n
  edge := h.edge
  chain n nd' hn := by
    simp only [Graph.setNode, Function.update_apply] at hn
    split at hn
    · rename_i he
      cases hn
      subst he
      rw [hfirst]
      exact (h.chain _ old ho).of_rel_eq rfl
    · exact (h.chain n nd' hn).of_rel_eq rfl

/-- Another weight and label at a relationship. -/
theorem setData {old : Relationship} (ho : g.rel r.id = some old)
    (hr : r = { old with weight := r.weight, label := r.label }) :
    (g.setRel r).Represents (G.setData r.id (r.weight, r.label)) where
  label := h.label
  edge x := by
    simp only [Graph.setRel, Multigraph.setData, Function.update_apply]
    split
    · rw [h.edge_of_rel ho, Option.map_some, Option.map_some]
      congr 1
      rw [hr]
      rfl
    · exact h.edge x
  chain n nd hn := (h.chain n nd hn).setRel ho hr

/-- A relationship taken out. -/
theorem removeEdge {id : Ulong} (hR : g.Removes g' id) : g'.Represents (G.removeEdges [id]) where
  label n := (hR.labels n).trans (h.label n)
  edge x := by
    simp only [Multigraph.removeEdges, List.mem_singleton]
    split
    · rename_i hx
      rw [hx, hR.gone]
      rfl
    · rename_i hx
      rw [← h.edge]
      exact edge_of_payload (hR.others x hx)
  chain n nd' hn := by
    have hlabel : (g.node n).map Node.label = some nd'.label := by rw [← hR.labels, hn]; rfl
    obtain ⟨nd, hnd, -⟩ := Option.map_eq_some_iff.mp hlabel
    obtain ⟨nd'', hn'', hc⟩ := hR.chains n nd _ hnd (h.chain n nd hnd)
    rw [hn] at hn''
    cases hn''
    rw [Multigraph.removeEdges_incident_singleton]
    exact hc

/-- A node without relationships taken out. -/
theorem dropNode (hnil : G.incident n = []) : (g.removeNode n).Represents (G.dropNode n hnil) where
  label m := by
    simp only [labelAt, Graph.removeNode, Multigraph.dropNode, Function.update_apply]
    split
    · rfl
    · exact h.label m
  edge := h.edge
  chain m nd hm := by
    simp only [Graph.removeNode, Function.update_apply] at hm
    split at hm
    · cases hm
    · exact (h.chain m nd hm).of_rel_eq rfl

/-- The nodes renamed. -/
theorem renameNodes (τ : Renaming) : (g.rename τ 1).Represents (G.renameNodes τ) where
  label n := by
    simp only [Multigraph.renameNodes, ← h.label, labelAt, Graph.rename, Option.map_map]
    rfl
  edge x := by
    simp only [Multigraph.renameNodes, ← h.edge, Graph.rename, Option.map_map]
    rfl
  chain n nd hn := by
    obtain ⟨m, nd', rfl, rfl, hm⟩ := rename_node_eq_some hn
    have hc := (h.chain m nd' hm).rename (τ := τ) (σ := 1) rfl
    rw [show (G.incident m).map (1 : Renaming) = G.incident m from List.map_id _] at hc
    simp only [Multigraph.renameNodes, Equiv.symm_apply_apply]
    exact hc

/-- The relationships renamed. -/
theorem renameEdges {σ : Renaming} (hU : σ uninitializedLong = uninitializedLong) :
    (g.rename 1 σ).Represents (G.renameEdges σ) where
  label n := by
    simp only [Multigraph.renameEdges, ← h.label, labelAt, Graph.rename, Option.map_map]
    rfl
  edge x := by
    simp only [Multigraph.renameEdges, ← h.edge, Graph.rename, Option.map_map]
    rfl
  chain n nd hn := by
    obtain ⟨m, nd', rfl, rfl, hm⟩ := rename_node_eq_some hn
    exact (h.chain _ nd' hm).rename (τ := 1) hU

end Represents

end Graph

end Goedb
