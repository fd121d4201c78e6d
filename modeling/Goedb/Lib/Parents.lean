import Mathlib.Combinatorics.SimpleGraph.Acyclic

/-!
# Lib — graphs and parents

A function that sends every point but one to a neighbour, one level up, makes a tree of the points
from which it leads to that one.  The graph is acyclic if it has no other edges
(`isAcyclic_of_up`), and only then (`up_of_isAcyclic`).
-/

namespace Lib

open SimpleGraph

variable {α : Type*} {G : SimpleGraph α} {s v w : α}

/-- A graph whose edges all lead one level up is acyclic. -/
theorem isAcyclic_of_up (up : α → α) (level : α → ℕ)
    (h : ∀ v w, G.Adj v w → up v = w ∧ level v = level w + 1 ∨ up w = v ∧ level w = level v + 1) :
    G.IsAcyclic := by
  classical
  intro v c hc
  -- a point of the cycle that is furthest down has two neighbours above it
  obtain ⟨u, hu, hmax⟩ := c.support.toFinset.exists_max_image level
    ⟨v, List.mem_toFinset.mpr c.start_mem_support⟩
  rw [List.mem_toFinset] at hu
  have habove : ∀ x ∈ c.support, G.Adj u x → up u = x := by
    intro x hx hadj
    rcases h u x hadj with ⟨hup, -⟩ | ⟨-, hlevel⟩
    · exact hup
    · have := hmax x (List.mem_toFinset.mpr hx)
      omega
  have hcu := hc.rotate hu
  have hmem : ∀ x ∈ (c.rotate u hu).support, x ∈ c.support := fun x hx =>
    (c.mem_support_rotate_iff u hu).mp hx
  have h₁ := habove _ (hmem _ ((c.rotate u hu).getVert_mem_support 1)) ((c.rotate u hu).adj_snd hcu.not_nil)
  have h₂ := habove _ (hmem _ ((c.rotate u hu).getVert_mem_support _))
    ((c.rotate u hu).adj_penultimate hcu.not_nil).symm
  exact hcu.snd_ne_penultimate (h₁.symm.trans h₂)

/-- In an acyclic graph every edge between points of the tree is one of the tree. -/
theorem up_of_isAcyclic {up : α → α} (hG : G.IsAcyclic)
    (hup : ∀ v, v ≠ s → (∃ k, up^[k] v = s) → G.Adj v (up v)) (hv : ∃ k, up^[k] v = s)
    (hw : ∃ k, up^[k] w = s) (hadj : G.Adj v w) : up v = w ∨ up w = v := by
  by_contra hno
  rw [not_or] at hno
  -- without the edge the two points are still joined through `s`
  have hclimb : ∀ k x, up^[k] x = s → (G.deleteEdges {s(v, w)}).Reachable x s := by
    intro k
    induction k with
    | zero =>
        rintro x rfl
        exact .refl _
    | succ k ih =>
        intro x hx
        by_cases hxs : x = s
        · rw [hxs]
        · have hstep : (G.deleteEdges {s(v, w)}).Adj x (up x) := by
            rw [deleteEdges_adj, Set.mem_singleton_iff, Sym2.eq_iff]
            refine ⟨hup x hxs ⟨k + 1, hx⟩, ?_⟩
            rintro (⟨rfl, e⟩ | ⟨rfl, e⟩)
            · exact hno.1 e
            · exact hno.2 e
          exact hstep.reachable.trans (ih (up x) hx)
  obtain ⟨j, hj⟩ := hv
  obtain ⟨k, hk⟩ := hw
  exact isAcyclic_iff_forall_adj_isBridge.mp hG hadj ((hclimb j v hj).trans (hclimb k w hk).symm)

end Lib
