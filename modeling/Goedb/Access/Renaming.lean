import Goedb.Access.Linking
import Mathlib.Logic.Equiv.Basic

/-!
# Access — renaming the records of a graph

`Graph.rename τ σ` gives every node `n` the id `τ n` and every relationship `x` the id `σ x`, in the
place where the record lies, in the record and in every pointer to it.  The null value is no id: a
renaming of relationships keeps it.

* `Graph.WellFormed.rename`: a renamed graph is well-formed, with renamed chains.
* `Graph.link_rename`: linking a relationship in commutes with renaming.
-/

namespace Goedb

open Lib

/-- A renaming of ids. -/
abbrev Renaming := Equiv.Perm Ulong

/-- A node under the renaming of nodes `τ` and of relationships `σ`. -/
def Node.rename (τ σ : Renaming) (nd : Node) : Node :=
  { nd with id := τ nd.id, firstRelationship := σ nd.firstRelationship }

namespace Relationship

/-- A relationship under the renaming of nodes `τ` and of relationships `σ`. -/
def rename (τ σ : Renaming) (r : Relationship) : Relationship :=
  { r with
    id := σ r.id
    sourceNode := τ r.sourceNode
    targetNode := τ r.targetNode
    prevRelSource := σ r.prevRelSource
    nextRelSource := σ r.nextRelSource
    prevRelTarget := σ r.prevRelTarget
    nextRelTarget := σ r.nextRelTarget }

variable {τ σ : Renaming} {r : Relationship} {n m v x : Ulong}

@[simp] theorem rename_at : (r.rename τ σ).At (τ n) ↔ r.At n := by
  simp only [At, rename, τ.injective.eq_iff]

@[simp] theorem nextAt_rename : (r.rename τ σ).nextAt (τ n) = σ (r.nextAt n) := by
  simp only [nextAt, rename, τ.injective.eq_iff]
  split <;> rfl

@[simp] theorem prevAt_rename : (r.rename τ σ).prevAt (τ n) = σ (r.prevAt n) := by
  simp only [prevAt, rename, τ.injective.eq_iff]
  split <;> rfl

theorem setNext_rename : (r.setNext n v).rename τ σ = (r.rename τ σ).setNext (τ n) (σ v) := by
  simp only [rename, setNext, τ.injective.eq_iff, apply_ite σ]

theorem setPrev_rename : (r.setPrev n v).rename τ σ = (r.rename τ σ).setPrev (τ n) (σ v) := by
  simp only [rename, setPrev, τ.injective.eq_iff, apply_ite σ]

theorem patch_rename {f f' : Relationship → Relationship}
    (hf : ∀ r, (f r).rename τ σ = f' (r.rename τ σ)) :
    (r.patch x f).rename τ σ = (r.rename τ σ).patch (σ x) f' := by
  have hid : (r.rename τ σ).id = σ r.id := rfl
  simp only [patch, hid, σ.injective.eq_iff]
  split
  · exact hf r
  · rfl

theorem relink_rename {a va b vb c vc d vd : Ulong} :
    (relink n m a va b vb c vc d vd r).rename τ σ =
      relink (τ n) (τ m) (σ a) (σ va) (σ b) (σ vb) (σ c) (σ vc) (σ d) (σ vd) (r.rename τ σ) := by
  simp only [relink]
  rw [patch_rename fun r => setPrev_rename, patch_rename fun r => setPrev_rename,
    patch_rename fun r => setNext_rename, patch_rename fun r => setNext_rename]

end Relationship

namespace Graph

/-- The graph under the renaming of nodes `τ` and of relationships `σ`. -/
def rename (τ σ : Renaming) (g : Graph) : Graph where
  node n := (g.node (τ.symm n)).map (Node.rename τ σ)
  rel x := (g.rel (σ.symm x)).map (Relationship.rename τ σ)

variable {τ σ : Renaming} {g : Graph} {n first x : Ulong} {l : List Ulong}

@[simp] theorem rename_node : (g.rename τ σ).node (τ n) = (g.node n).map (Node.rename τ σ) := by
  simp only [rename, Equiv.symm_apply_apply]

@[simp] theorem rename_rel :
    (g.rename τ σ).rel (σ x) = (g.rel x).map (Relationship.rename τ σ) := by
  simp only [rename, Equiv.symm_apply_apply]

@[simp] theorem next_rename : (g.rename τ σ).next (τ n) (σ x) = σ (g.next n x) := by
  rw [next, next, rename_rel]
  cases g.rel x with
  | none => rfl
  | some r => exact Relationship.nextAt_rename

@[simp] theorem prev_rename : (g.rename τ σ).prev (τ n) (σ x) = σ (g.prev n x) := by
  rw [prev, prev, rename_rel]
  cases g.rel x with
  | none => rfl
  | some r => exact Relationship.prevAt_rename

theorem rename_rel_eq_some {r : Relationship} (h : (g.rename τ σ).rel x = some r) :
    ∃ y r', x = σ y ∧ r = r'.rename τ σ ∧ g.rel y = some r' := by
  obtain ⟨r', hr', rfl⟩ := Option.map_eq_some_iff.mp h
  exact ⟨σ.symm x, r', (σ.apply_symm_apply x).symm, rfl, hr'⟩

theorem rename_node_eq_some {nd : Node} (h : (g.rename τ σ).node n = some nd) :
    ∃ m nd', n = τ m ∧ nd = nd'.rename τ σ ∧ g.node m = some nd' := by
  obtain ⟨nd', hnd', rfl⟩ := Option.map_eq_some_iff.mp h
  exact ⟨τ.symm n, nd', (τ.apply_symm_apply n).symm, rfl, hnd'⟩

section Null

variable (hU : σ uninitializedLong = uninitializedLong)
include hU

theorem apply_eq_null_iff : σ x = uninitializedLong ↔ x = uninitializedLong := by
  constructor
  · intro h
    exact σ.injective (h.trans hU.symm)
  · rintro rfl
    exact hU

theorem Chain.rename (hc : g.Chain n first l) :
    (g.rename τ σ).Chain (τ n) (σ first) (l.map σ) where
  nodup := hc.nodup.map σ.injective
  mem x := by
    rw [List.mem_map]
    constructor
    · rintro ⟨y, hy, rfl⟩
      obtain ⟨r, hr, ha⟩ := (hc.mem y).mp hy
      exact ⟨r.rename τ σ, by rw [rename_rel, hr]; rfl, Relationship.rename_at.mpr ha⟩
    · rintro ⟨r, hr, ha⟩
      obtain ⟨y, r', rfl, rfl, hr'⟩ := rename_rel_eq_some hr
      exact ⟨y, (hc.mem y).mpr ⟨r', hr', Relationship.rename_at.mp ha⟩, rfl⟩
  ring := hc.ring.map (fun x _ => next_rename) fun x _ => prev_rename
  first_eq := by
    rw [hc.first_eq]
    cases l with
    | nil => exact hU
    | cons a t => rfl
  first_eq_iff := by
    rw [apply_eq_null_iff hU, hc.first_eq_iff, List.map_eq_nil_iff]

/-- **A renamed graph is well-formed.** -/
theorem WellFormed.rename (hw : g.WellFormed) : (g.rename τ σ).WellFormed where
  chain n nd hn := by
    obtain ⟨m, nd', rfl, rfl, hm⟩ := rename_node_eq_some hn
    obtain ⟨l, hl⟩ := hw.chain m nd' hm
    exact ⟨l.map σ, hl.rename hU⟩
  loops x r hr e := by
    obtain ⟨y, r', rfl, rfl, hr'⟩ := rename_rel_eq_some hr
    obtain ⟨h₁, h₂⟩ := hw.loops y r' hr' (τ.injective e)
    exact ⟨congrArg σ h₁, congrArg σ h₂⟩
  endpoints x r hr := by
    obtain ⟨y, r', rfl, rfl, hr'⟩ := rename_rel_eq_some hr
    obtain ⟨⟨nd₁, h₁⟩, nd₂, h₂⟩ := hw.endpoints y r' hr'
    have hnode : ∀ {m nd}, g.node m = some nd →
        (g.rename τ σ).node (τ m) = some (nd.rename τ σ) := by
      intro m nd h
      rw [rename_node, h]
      rfl
    exact ⟨⟨_, hnode h₁⟩, _, hnode h₂⟩

/-- A renaming that moves no id of a record changes nothing. -/
theorem WellFormed.rename_eq_self (hw : g.WellFormed) (hk : g.Keyed)
    (hid : ∀ n nd, g.node n = some nd → nd.id = n) (hτ : ∀ n, (g.node n).isSome → τ n = n)
    (hσ : ∀ x, (g.rel x).isSome → σ x = x) : g.rename τ σ = g := by
  -- an id without a record comes from an id without a record
  have hback : ∀ {α : Type} (f : Ulong → Option α) (ρ : Renaming),
      (∀ n, (f n).isSome → ρ n = n) → ∀ n, f (ρ.symm n) = f n := by
    intro α f ρ hρ n
    cases hn : f n with
    | some a => rw [ρ.symm_apply_eq.mpr (hρ n (Option.isSome_of_eq_some hn)).symm, hn]
    | none =>
        cases hb : f (ρ.symm n) with
        | none => rfl
        | some b =>
            have := hρ _ (Option.isSome_of_eq_some hb)
            rw [ρ.apply_symm_apply] at this
            rw [← this, hn] at hb
            cases hb
  refine Graph.ext (funext fun n => ?_) (funext fun x => ?_)
  · simp only [Graph.rename, hback g.node τ hτ]
    cases hn : g.node n with
    | none => rfl
    | some nd =>
        have h₁ : σ nd.firstRelationship = nd.firstRelationship := by
          rcases hw.first_null_or hn with h | ⟨r, hr⟩
          · rw [h, hU]
          · exact hσ _ (Option.isSome_of_eq_some hr)
        have h₂ : τ nd.id = nd.id := hτ _ (by rw [hid n nd hn, hn]; rfl)
        simp only [Option.map_some, Node.rename, h₁, h₂]
  · simp only [Graph.rename, hback g.rel σ hσ]
    cases hx : g.rel x with
    | none => rfl
    | some r =>
        obtain ⟨⟨nd₁, hn₁⟩, nd₂, hn₂⟩ := hw.endpoints x r hx
        have h₁ : σ r.id = r.id := hσ _ (by rw [hk x r hx, hx]; rfl)
        have h₂ := hτ _ (Option.isSome_of_eq_some hn₁)
        have h₃ := hτ _ (Option.isSome_of_eq_some hn₂)
        have h₄ : ∀ y ∈ [r.prevRelSource, r.nextRelSource, r.prevRelTarget, r.nextRelTarget],
            σ y = y := by
          intro y hy
          obtain ⟨r', hr'⟩ := hw.pointers hx y hy
          exact hσ y (Option.isSome_of_eq_some hr')
        simp only [List.mem_cons, List.not_mem_nil, or_false, forall_eq_or_imp, forall_eq] at h₄
        simp only [Option.map_some, Relationship.rename, h₁, h₂, h₃, h₄]

/-! ### Renaming and linking -/

theorem endsOf_rename : (g.rename τ σ).endsOf (σ x) (τ n) (σ first) =
    (σ (g.endsOf x n first).1, σ (g.endsOf x n first).2) := by
  simp only [endsOf, apply_eq_null_iff hU, prev_rename]
  split <;> rfl

variable {rel : Relationship} {fromFirst toFirst : Ulong}

theorem relinkNew_rename (r : Relationship) :
    (g.relinkNew rel fromFirst toFirst r).rename τ σ =
      (g.rename τ σ).relinkNew (rel.rename τ σ) (σ fromFirst) (σ toFirst) (r.rename τ σ) := by
  have h₁ : (g.rename τ σ).endsOf (σ rel.id) (τ rel.sourceNode) (σ fromFirst) = _ :=
    endsOf_rename hU
  have h₂ : (g.rename τ σ).endsOf (σ rel.id) (τ rel.targetNode) (σ toFirst) = _ :=
    endsOf_rename hU
  simp only [relinkNew, Relationship.rename] at h₁ h₂ ⊢
  rw [h₁, h₂]
  exact Relationship.relink_rename

theorem withEnds_rename : (g.withEnds rel fromFirst toFirst).rename τ σ =
    (g.rename τ σ).withEnds (rel.rename τ σ) (σ fromFirst) (σ toFirst) := by
  simp only [withEnds, Relationship.rename, endsOf_rename hU]

/-- **Linking commutes with renaming.** -/
theorem link_rename : (g.link rel fromFirst toFirst).rename τ σ =
    (g.rename τ σ).link (rel.rename τ σ) (σ fromFirst) (σ toFirst) := by
  refine Graph.ext (funext fun n => ?_) (funext fun x => ?_)
  · obtain ⟨m, rfl⟩ := τ.surjective n
    rw [rename_node]
    simp only [link, rename_node, Option.map_map]
    congr 1
    funext nd
    have hfirst : (nd.rename τ σ).firstRelationship = σ nd.firstRelationship := rfl
    simp only [Function.comp, hfirst, apply_eq_null_iff hU, Relationship.rename_at]
    split <;> rfl
  · obtain ⟨y, rfl⟩ := σ.surjective x
    rw [rename_rel]
    by_cases hy : y = rel.id
    · subst hy
      rw [link_rel_self, Option.map_some, relinkNew_rename hU, withEnds_rename hU]
      exact link_rel_self.symm
    · have hy' : σ y ≠ (rel.rename τ σ).id := fun h => hy (σ.injective h)
      rw [link_rel_of_ne hy, link_rel_of_ne hy', rename_rel, Option.map_map, Option.map_map]
      congr 1
      funext r
      exact relinkNew_rename hU r

end Null

theorem setNode_rename {nd : Node} :
    (g.setNode nd).rename τ σ = (g.rename τ σ).setNode (nd.rename τ σ) := by
  refine Graph.ext (funext fun n => ?_) rfl
  obtain ⟨m, rfl⟩ := τ.surjective n
  rw [rename_node]
  simp only [setNode]
  by_cases hm : m = nd.id
  · subst hm
    exact (congrArg _ (Function.update_self ..)).trans
      (Function.update_self (τ nd.id) _ (g.rename τ σ).node).symm
  · have hm' : τ m ≠ (nd.rename τ σ).id := fun h => hm (τ.injective h)
    rw [Function.update_of_ne hm, Function.update_of_ne hm', rename_node]

end Graph

end Goedb
