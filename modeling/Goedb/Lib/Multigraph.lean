import Mathlib.Data.List.Nodup
import Mathlib.Logic.Equiv.Basic
import Mathlib.Tactic.Tauto

/-!
# Lib — multigraphs

Nodes and edges by their names, with data at both.  Several edges may join the same two nodes, and an
edge may join a node with itself.  The edges at a node are in an order, as those of a linked list are.

A `Multigraph` carries the proofs that the order of a node lists the edges at it, each of them once,
and that the ends of an edge are nodes.  So every operation below leads from multigraphs to
multigraphs: `addNode`, `addEdge`, `setLabel`, `setData`, `removeEdges`, `removeNode`, `renameNodes`,
`renameEdges`.
-/

namespace Lib

/-- The ends of an edge and what is said of it. -/
@[ext] structure Edge (V W : Type) where
  source : V
  target : V
  data : W
  deriving DecidableEq, Repr

namespace Edge

variable {V W : Type} {d : Edge V W} {v : V}

/-- `v` is an end. -/
def At (d : Edge V W) (v : V) : Prop := d.source = v ∨ d.target = v

instance [DecidableEq V] (d : Edge V W) (v : V) : Decidable (d.At v) :=
  inferInstanceAs (Decidable (_ ∨ _))

/-- The ends renamed. -/
def rename (τ : Equiv.Perm V) (d : Edge V W) : Edge V W := ⟨τ d.source, τ d.target, d.data⟩

/-- Other data. -/
def setData (w : W) (d : Edge V W) : Edge V W := { d with data := w }

theorem rename_at {τ : Equiv.Perm V} : (d.rename τ).At v ↔ d.At (τ.symm v) := by
  simp only [At, rename, Equiv.eq_symm_apply]

@[simp] theorem setData_at {w : W} : (d.setData w).At v ↔ d.At v := Iff.rfl

end Edge

/-- Nodes `V` with labels, edges `E` with data, and an order of the edges at each node. -/
@[ext] structure Multigraph (V E L W : Type) where
  label : V → Option L
  edge : E → Option (Edge V W)
  incident : V → List E
  nodup : ∀ v, (incident v).Nodup
  mem_incident : ∀ {v e}, e ∈ incident v ↔ ∃ d, edge e = some d ∧ d.At v
  ends : ∀ {e d}, edge e = some d → (label d.source).isSome ∧ (label d.target).isSome

namespace Multigraph

variable {V E L W : Type} (G : Multigraph V E L W)

/-- No nodes and no edges. -/
def empty : Multigraph V E L W where
  label _ := none
  edge _ := none
  incident _ := []
  nodup _ := List.nodup_nil
  mem_incident := ⟨fun h => absurd h List.not_mem_nil, fun h => absurd h (by simp)⟩
  ends h := by cases h

variable {G} {v : V} {e : E} {d : Edge V W}

theorem mem_of_edge (h : G.edge e = some d) (ha : d.At v) : e ∈ G.incident v :=
  G.mem_incident.mpr ⟨d, h, ha⟩

theorem exists_edge (h : e ∈ G.incident v) : ∃ d, G.edge e = some d ∧ d.At v := G.mem_incident.mp h

theorem not_mem_of_none (he : G.edge e = none) : e ∉ G.incident v := fun h => by
  obtain ⟨d, hd, -⟩ := exists_edge h
  rw [he] at hd
  cases hd

/-- Edges are at nodes only. -/
theorem incident_of_label_none (h : G.label v = none) : G.incident v = [] := by
  refine List.eq_nil_iff_forall_not_mem.mpr fun e he => ?_
  obtain ⟨d, hd, rfl | rfl⟩ := exists_edge he
  · have := (G.ends hd).1
    rw [h] at this
    cases this
  · have := (G.ends hd).2
    rw [h] at this
    cases this

/-- The edge is the only one at its source and not the only one at its target. -/
def LoneAtSource (G : Multigraph V E L W) (e : E) : Prop :=
  ∃ d, G.edge e = some d ∧ G.incident d.source = [e] ∧ G.incident d.target ≠ [e]

variable (G)

/-! ### Nodes -/

section Nodes

variable [DecidableEq V]

/-- A node more, without edges. -/
def addNode (v : V) (l : L) : Multigraph V E L W where
  label := Function.update G.label v (some l)
  edge := G.edge
  incident := G.incident
  nodup := G.nodup
  mem_incident := G.mem_incident
  ends h := by
    simp only [Function.update_apply]
    obtain ⟨hs, ht⟩ := G.ends h
    constructor <;> split <;> simp_all

/-- Another label at a node, if the node is there. -/
def setLabel (v : V) (l : L) : Multigraph V E L W where
  label u := if u = v then (G.label v).map fun _ => l else G.label u
  edge := G.edge
  incident := G.incident
  nodup := G.nodup
  mem_incident := G.mem_incident
  ends h := by
    obtain ⟨hs, ht⟩ := G.ends h
    constructor <;> split <;> simp_all

/-- A node without edges taken out. -/
def dropNode (v : V) (h : G.incident v = []) : Multigraph V E L W where
  label := Function.update G.label v none
  edge := G.edge
  incident := G.incident
  nodup := G.nodup
  mem_incident := G.mem_incident
  ends {e d} hd := by
    have hne : ∀ {u}, d.At u → u ≠ v := by
      rintro u ha rfl
      have := mem_of_edge hd ha
      rw [h] at this
      exact absurd this List.not_mem_nil
    rw [Function.update_of_ne (hne (.inl rfl)), Function.update_of_ne (hne (.inr rfl))]
    exact G.ends hd

end Nodes

/-! ### Edges -/

section Edges

variable [DecidableEq E]

/-- An edge more, the last one at its ends. -/
def addEdge [DecidableEq V] (e : E) (d : Edge V W) (he : G.edge e = none)
    (hs : (G.label d.source).isSome) (ht : (G.label d.target).isSome) : Multigraph V E L W where
  label := G.label
  edge := Function.update G.edge e (some d)
  incident v := if d.At v then G.incident v ++ [e] else G.incident v
  nodup v := by
    split
    · exact List.nodup_append.mpr ⟨G.nodup v, List.nodup_singleton e, by
        rintro x hx y hy rfl
        exact not_mem_of_none he (List.mem_singleton.mp hy ▸ hx)⟩
    · exact G.nodup v
  mem_incident {v x} := by
    by_cases hx : x = e
    · subst hx
      have hnot : x ∉ G.incident v := not_mem_of_none he
      simp only [Function.update_self, Option.some.injEq, exists_eq_left']
      split <;> simp_all
    · simp only [Function.update_of_ne hx, ← G.mem_incident]
      split <;> simp [hx]
  ends {x d'} h := by
    by_cases hx : x = e
    · subst hx
      rw [Function.update_self] at h
      cases h
      exact ⟨hs, ht⟩
    · rw [Function.update_of_ne hx] at h
      exact G.ends h

/-- Other data at an edge, if the edge is there. -/
def setData (e : E) (w : W) : Multigraph V E L W where
  label := G.label
  edge x := if x = e then (G.edge e).map (Edge.setData w) else G.edge x
  incident := G.incident
  nodup := G.nodup
  mem_incident {v x} := by
    rw [G.mem_incident]
    split
    · rename_i hx
      subst hx
      simp
    · rfl
  ends {x d} h := by
    split at h
    · obtain ⟨d', hd', rfl⟩ := Option.map_eq_some_iff.mp h
      have := G.ends hd'
      exact this
    · exact G.ends h

/-- Edges taken out. -/
def removeEdges (q : List E) : Multigraph V E L W where
  label := G.label
  edge x := if x ∈ q then none else G.edge x
  incident v := (G.incident v).filter (· ∉ q)
  nodup v := (G.nodup v).filter _
  mem_incident {v x} := by
    rw [List.mem_filter, G.mem_incident, decide_eq_true_iff]
    by_cases hx : x ∈ q <;> simp [hx]
  ends {x d} h := by
    split at h
    · cases h
    · exact G.ends h

/-- A node taken out, with its edges. -/
def removeNode [DecidableEq V] (v : V) : Multigraph V E L W :=
  (G.removeEdges (G.incident v)).dropNode v (List.filter_eq_nil_iff.mpr (by simp))

/-- The edges of a node can be taken out from the last one on, without one that is alone at its source
and has company at its target when its turn comes. -/
def Deletable (v : V) : Prop :=
  ∀ p e q, G.incident v = p ++ e :: q → ¬ (G.removeEdges q).LoneAtSource e

variable {G}

@[simp] theorem removeEdges_nil : G.removeEdges [] = G := by
  ext1 <;> simp [removeEdges]

theorem removeEdges_removeEdges (q r : List E) :
    (G.removeEdges q).removeEdges r = G.removeEdges (r ++ q) := by
  ext1
  · rfl
  · funext x
    simp only [removeEdges, List.mem_append]
    by_cases hr : x ∈ r <;> by_cases hq : x ∈ q <;> simp [hr, hq]
  · funext v
    simp only [removeEdges, List.filter_filter]
    refine List.filter_congr fun x _ => ?_
    simp [List.mem_append, not_or]

theorem removeEdges_incident_singleton (e : E) (v : V) :
    (G.removeEdges [e]).incident v = (G.incident v).erase e := by
  rw [(G.nodup v).erase_eq_filter]
  refine List.filter_congr fun x _ => ?_
  by_cases h : x = e <;> simp [h]

section AddEdge

variable [DecidableEq V] {he : G.edge e = none} {hs : (G.label d.source).isSome}
  {ht : (G.label d.target).isSome}

/-- An edge added and taken out again. -/
theorem removeEdges_addEdge : (G.addEdge e d he hs ht).removeEdges [e] = G := by
  ext1
  · rfl
  · funext x
    simp only [removeEdges, addEdge, List.mem_singleton, Function.update_apply]
    split
    · rename_i hx
      rw [hx, he]
    · rfl
  · funext v
    rw [removeEdges_incident_singleton]
    simp only [addEdge]
    split
    · rw [List.erase_append_right _ (not_mem_of_none he)]
      simp
    · exact List.erase_of_not_mem (not_mem_of_none he)

/-- The new edge is alone at its source if the source had none, and has company at its target if the
target had one. -/
theorem loneAtSource_addEdge : (G.addEdge e d he hs ht).LoneAtSource e ↔
    G.incident d.source = [] ∧ G.incident d.target ≠ [] := by
  have hedge : (G.addEdge e d he hs ht).edge e = some d := Function.update_self ..
  have hinc : ∀ {v}, d.At v → (G.addEdge e d he hs ht).incident v = G.incident v ++ [e] :=
    fun ha => if_pos ha
  simp only [LoneAtSource, hedge, Option.some.injEq, exists_eq_left', hinc (.inl rfl),
    hinc (.inr rfl), ne_eq, List.append_left_eq_self]

end AddEdge

theorem removeNode_of_nil [DecidableEq V] (h : G.incident v = []) : G.removeNode v = G.dropNode v h := by
  have hsame : G.removeEdges (G.incident v) = G := by rw [h, removeEdges_nil]
  ext1
  · rfl
  · show (G.removeEdges (G.incident v)).edge = G.edge
    rw [hsame]
  · show (G.removeEdges (G.incident v)).incident = G.incident
    rw [hsame]

/-- Once the last edge of a node is taken out, the others can be. -/
theorem Deletable.removeLast {p : List E} (h : G.Deletable v) (hv : G.incident v = p ++ [e]) :
    (G.removeEdges [e]).Deletable v := by
  intro p' x q hq
  have hnot : e ∉ p := fun he => by
    have := G.nodup v
    rw [hv] at this
    exact (List.nodup_append.mp this).2.2 e he e (by simp) rfl
  rw [removeEdges_incident_singleton, hv, List.erase_append_right _ hnot, List.erase_cons_head,
    List.append_nil] at hq
  rw [removeEdges_removeEdges]
  exact h p' x (q ++ [e]) (by rw [hv, hq]; simp)

end Edges

/-! ### Renaming -/

/-- The nodes renamed. -/
def renameNodes (τ : Equiv.Perm V) : Multigraph V E L W where
  label v := G.label (τ.symm v)
  edge e := (G.edge e).map (Edge.rename τ)
  incident v := G.incident (τ.symm v)
  nodup v := G.nodup _
  mem_incident {v e} := by
    rw [G.mem_incident]
    simp only [Option.map_eq_some_iff, exists_exists_and_eq_and, Edge.rename_at]
  ends h := by
    obtain ⟨d, hd, rfl⟩ := Option.map_eq_some_iff.mp h
    simpa [Edge.rename] using G.ends hd

/-- The edges renamed. -/
def renameEdges (σ : Equiv.Perm E) : Multigraph V E L W where
  label := G.label
  edge e := G.edge (σ.symm e)
  incident v := (G.incident v).map σ
  nodup v := (G.nodup v).map σ.injective
  mem_incident {v e} := by
    rw [List.mem_map, ← G.mem_incident]
    constructor
    · rintro ⟨x, hx, rfl⟩
      rwa [Equiv.symm_apply_apply]
    · exact fun h => ⟨_, h, Equiv.apply_symm_apply ..⟩
  ends h := G.ends h

end Multigraph

end Lib
