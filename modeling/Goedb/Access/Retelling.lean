import Goedb.Access.Expand
import Goedb.Access.Renaming

/-!
# Access — graphs that say the same

The layout tools give new ids to the relationships and link them anew.  `Graph.Retells σ g g'` says that
the relationship at `σ x` of `g'` has the endpoints, the weight and the label of the one at `x` of `g`.
What `expand` returns is then the same up to the ids and the order (`Graph.Walk.perm_expand`).
-/

namespace Goedb

open Lib

/-- What a relationship that goes in the direction says. -/
def PayloadGoes (n : Ulong) (direction : Direction) (p : Ulong × Ulong × Double × Ulong) : Prop :=
  p.1 = n ∧ direction ≠ .incoming ∨ p.2.1 = n ∧ direction ≠ .outgoing

namespace Graph

variable {g g' g'' : Graph} {σ σ' : Renaming} {n : Ulong} {direction : Direction}

theorem payloadAt_eq_some {x : Ulong} {p : Ulong × Ulong × Double × Ulong} :
    g.payloadAt x = some p ↔ ∃ r, g.rel x = some r ∧ r.payload = p := by
  rw [payloadAt, Option.map_eq_some_iff]

/-- `g'` says of `σ x` what `g` says of `x`. -/
def Retells (σ : Renaming) (g g' : Graph) : Prop := ∀ x, g'.payloadAt (σ x) = g.payloadAt x

theorem retells_rename (σ : Renaming) (g : Graph) : Retells σ g (g.rename 1 σ) := by
  intro x
  rw [payloadAt, rename_rel, Option.map_map]
  rfl

/-- Relationships are changed without what they say. -/
theorem retells_of_keeps {f : Relationship → Relationship} (hf : Relationship.Keeps f)
    (h : ∀ x, g'.rel x = (g.rel x).map f) : Retells 1 g g' := by
  intro x
  show (g'.rel x).map _ = _
  rw [h, Option.map_map, payloadAt]
  exact congrArg (Option.map · _) (funext hf.payload)

/-- In both directions `expand` returns every relationship of the cycle. -/
theorem Walk.map_id_expand_both (hk : g.Keyed) {first : Ulong} {l : List Ulong}
    (hw : g.Walk n first l) : (g.expand n .both l).map Relationship.id = l := by
  rw [map_id_expand hk]
  refine List.filter_eq_self.mpr fun x hx => ?_
  obtain ⟨r, hr, ha⟩ := (hw.mem x).mp hx
  rw [goes_of_rel hr]
  exact decide_eq_true (ha.imp (fun h => ⟨h, by decide⟩) fun h => ⟨h, by decide⟩)

/-- The new ids and what the relationships say that `expand` returns. -/
theorem Walk.mem_map_expand (hk : g.Keyed) {first : Ulong} {l : List Ulong}
    (hw : g.Walk n first l) (σ : Renaming) {x : Ulong} {p : Ulong × Ulong × Double × Ulong} :
    (x, p) ∈ (g.expand n direction l).map (fun r => (σ r.id, r.payload)) ↔
      g.payloadAt (σ.symm x) = some p ∧ PayloadGoes n direction p := by
  rw [List.mem_map, payloadAt_eq_some]
  constructor
  · rintro ⟨r, hr, he⟩
    obtain ⟨hrel, hgoes⟩ := (hw.mem_expand hk).mp hr
    obtain ⟨rfl, rfl⟩ := Prod.mk.injEq .. ▸ he
    rw [σ.symm_apply_apply]
    exact ⟨⟨r, hrel, rfl⟩, hgoes⟩
  · rintro ⟨⟨r, hrel, rfl⟩, hgoes⟩
    have hid := hk _ _ hrel
    refine ⟨r, (hw.mem_expand hk).mpr ⟨hid.symm ▸ hrel, hgoes⟩, ?_⟩
    rw [hid, σ.apply_symm_apply]

theorem Walk.nodup_map_expand (hk : g.Keyed) {first : Ulong} {l : List Ulong}
    (hw : g.Walk n first l) (σ : Renaming) :
    ((g.expand n direction l).map fun r => (σ r.id, r.payload)).Nodup := by
  have hids : ((g.expand n direction l).map Relationship.id).Nodup := by
    rw [map_id_expand hk]
    exact hw.nodup.filter _
  refine List.Nodup.of_map Prod.fst ?_
  rw [List.map_map]
  have hmap : (Prod.fst ∘ fun r : Relationship => (σ r.id, r.payload)) = σ ∘ Relationship.id := rfl
  rw [hmap, ← List.map_map]
  exact hids.map σ.injective

/-- **`expand` returns the same relationships**, under their new ids. -/
theorem Walk.perm_expand (hk : g.Keyed) (hk' : g'.Keyed) {first first' : Ulong} {l l' : List Ulong}
    (hw : g.Walk n first l) (hw' : g'.Walk n first' l') (h : Retells σ g g')
    (direction : Direction) :
    ((g.expand n direction l).map fun r => (σ r.id, r.payload)).Perm
      ((g'.expand n direction l').map fun r => (r.id, r.payload)) := by
  refine (List.perm_ext_iff_of_nodup (hw.nodup_map_expand hk σ) (hw'.nodup_map_expand hk' 1)).mpr ?_
  rintro ⟨x, p⟩
  have hx := h (σ.symm x)
  rw [σ.apply_symm_apply] at hx
  rw [hw.mem_map_expand hk σ, hw'.mem_map_expand hk' 1, ← hx]
  rfl

end Graph

end Goedb
