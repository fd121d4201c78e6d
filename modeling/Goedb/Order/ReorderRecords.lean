import Goedb.Access.Expand
import Goedb.Access.Creation
import Goedb.Access.Renaming

/-!
# Order — exchanging two records

`swap_nodes` and `swap_relationships` of `reorder_records.c`, and what their common parts do: the
loops that rename what refers to the two records, and the exchange of the header bits.
-/

namespace Goedb

open Lib

/-- `!isnan(x) && !isnan(y) && x == y`, C's `==` of doubles, on the bit patterns. -/
def doubleEq (x y : Double) : Bool :=
  let abs (x : Double) : Double := x &&& 0x7FFFFFFFFFFFFFFF#64
  let nan (x : Double) : Bool := 0x7FF0000000000000#64 < abs x
  !nan x && !nan y && (x == y || (abs x == 0 && abs y == 0))

/-- `relationship_equals`, which does not look at `next_rel_target`. -/
def Relationship.equals (first second : Relationship) : Bool :=
  first.id == second.id && first.sourceNode == second.sourceNode &&
    first.targetNode == second.targetNode && first.prevRelSource == second.prevRelSource &&
    first.nextRelSource == second.nextRelSource && first.prevRelTarget == second.prevRelTarget &&
    doubleEq first.weight second.weight && first.label == second.label

/-- `fst` for `snd` and `snd` for `fst`. -/
def exchange (fst snd id : Ulong) : Ulong := if id = fst then snd else if id = snd then fst else id

namespace HF

/-- The slots the two functions accept: of the file, and not across the end of a page. -/
def SwapAccepts (P : ℕ) (ft : FileType) (numPages : ℕ) (id : Ulong) : Prop :=
  id ≠ uninitializedLong ∧ pageOf id < numPages ∧
    id.toNat % slotsPerPage P ≤ (id.toNat + (numSlotsPer ft - 1)) % slotsPerPage P

instance (P : ℕ) (ft : FileType) (numPages : ℕ) (id : Ulong) :
    Decidable (SwapAccepts P ft numPages id) := inferInstanceAs (Decidable (_ ∧ _))

/-- The header bits of two slots exchanged, where only one of them has a record. -/
def swapBits (ft : FileType) (fst snd : Ulong) (fstExists sndExists : Bool) : HF Unit :=
  when (fstExists ≠ sndExists) do
    Prog.perform (.setBits ft fst sndExists)
    Prog.perform (.setBits ft snd fstExists)

/-- A call for a record that exists. -/
def onlyIf {α : Type} (found : Bool) (x : HF α) : HF (Option α) :=
  if found then some <$> x else pure none

/-! ### Nodes -/

/-- The endpoints of a relationship renamed. -/
def renameEndpoints (fst snd : Ulong) (rel : Relationship) : Relationship :=
  { rel with
    sourceNode := exchange fst snd rel.sourceNode
    targetNode := exchange fst snd rel.targetNode }

/-- The relationships of the second node appended, except those that are there already. -/
def addMissing (rels : List Relationship) : List Relationship → List Relationship
  | [] => rels
  | rel :: rest => addMissing (if rels.any (·.equals rel) then rels else rels ++ [rel]) rest

/-- The loop that renames the endpoints and writes the relationships back. -/
def updateEndpoints (fst snd : Ulong) : List Relationship → HF Unit
  | [] => pure ()
  | rel :: rels => do
      updateRelationship (renameEndpoints fst snd rel)
      updateEndpoints fst snd rels

/-- A node written at another id. -/
def moveNode (id : Ulong) : Option Node → HF Unit
  | none => pure ()
  | some node => updateNode { node with id := id }

/-- `swap_nodes`. -/
def swapNodes (P fuel : ℕ) (fst snd : Ulong) : HF Unit := do
  let numPages ← Prog.perform (.numPages .node)
  if ¬ (SwapAccepts P .node numPages fst ∧ SwapAccepts P .node numPages snd) then
    exit "reorder records - swao node: Invalid Arguments!"
  else
    let fstExists ← checkRecordExists .node fst
    let sndExists ← checkRecordExists .node snd
    if fst = snd ∨ fstExists = false ∧ sndExists = false then pure ()
    else
      let rels ← onlyIf fstExists (expand fuel fst .both)
      when (sndExists = true) do
        let relsSnd ← expand fuel snd .both
        updateEndpoints fst snd (addMissing (rels.getD []) relsSnd)
      let fstNode ← onlyIf fstExists (readNode fst)
      let sndNode ← onlyIf sndExists (readNode snd)
      log (.swapNodes fst ((fstNode.map Node.label).getD uninitializedLong) snd
        ((sndNode.map Node.label).getD uninitializedLong))
      swapBits .node fst snd fstExists sndExists
      moveNode snd fstNode
      moveNode fst sndNode

/-! ### Relationships -/

/-- The pointers of a relationship renamed. -/
def renamePointers (fst snd : Ulong) (rel : Relationship) : Relationship :=
  { rel with
    prevRelSource := exchange fst snd rel.prevRelSource
    prevRelTarget := exchange fst snd rel.prevRelTarget
    nextRelSource := exchange fst snd rel.nextRelSource
    nextRelTarget := exchange fst snd rel.nextRelTarget }

/-- The first relationship of a node renamed. -/
def renameFirst (fst snd : Ulong) (node : Node) : Node :=
  { node with firstRelationship := exchange fst snd node.firstRelationship }

/-- Ids appended, except those that are there already. -/
def addIds (ids : List Ulong) : List Ulong → List Ulong
  | [] => ids
  | id :: rest => addIds (if id ∈ ids then ids else ids ++ [id]) rest

/-- The nodes a relationship joins. -/
def nodesToUpdate (rel : Relationship) : List Ulong := [rel.sourceNode, rel.targetNode]

/-- The neighbours of a relationship in its chains. -/
def relsToUpdate (rel : Relationship) : List Ulong :=
  [rel.prevRelSource, rel.prevRelTarget, rel.nextRelSource, rel.nextRelTarget]

/-- The loop over `rels_to_update`. -/
def updatePointers (fst snd : Ulong) : List Ulong → HF Unit
  | [] => pure ()
  | id :: ids => do
      let rel ← readRelationship id
      updateRelationship (renamePointers fst snd rel)
      updatePointers fst snd ids

/-- The loop over `nodes_to_update`. -/
def updateFirsts (fst snd : Ulong) : List Ulong → HF Unit
  | [] => pure ()
  | id :: ids => do
      let node ← readNode id
      updateNode (renameFirst fst snd node)
      updateFirsts fst snd ids

/-- A relationship written at another id. -/
def moveRelationship (id : Ulong) : Option Relationship → HF Unit
  | none => pure ()
  | some rel => updateRelationship { rel with id := id }

/-- `swap_relationships`. -/
def swapRelationships (P : ℕ) (fst snd : Ulong) : HF Unit := do
  let numPages ← Prog.perform (.numPages .relationship)
  if ¬ (SwapAccepts P .relationship numPages fst ∧ SwapAccepts P .relationship numPages snd) then
    exit "reorder records - swap relationship: Invalid Arguments!"
  else
    let fstExists ← checkRecordExists .relationship fst
    let sndExists ← checkRecordExists .relationship snd
    if fst = snd ∨ fstExists = false ∧ sndExists = false then pure ()
    else
      let fstRel ← onlyIf fstExists (readRelationship fst)
      let sndRel ← onlyIf sndExists (readRelationship snd)
      let both := fstRel.toList ++ sndRel.toList
      updatePointers fst snd (addIds [] (both.flatMap relsToUpdate))
      updateFirsts fst snd (addIds [] (both.flatMap nodesToUpdate))
      let sndRel ← onlyIf sndExists (readRelationship snd)
      let fstRel ← onlyIf fstExists (readRelationship fst)
      log (.swapRelationships fst snd)
      swapBits .relationship fst snd fstExists sndExists
      moveRelationship snd fstRel
      moveRelationship fst sndRel

end HF

/-! ### The exchange of two records -/

theorem exchange_eq_swap (fst snd id : Ulong) : exchange fst snd id = Equiv.swap fst snd id :=
  (Equiv.swap_apply_def fst snd id).symm

@[simp] theorem exchange_fst (fst snd : Ulong) : exchange fst snd fst = snd := if_pos rfl

@[simp] theorem exchange_snd (fst snd : Ulong) : exchange fst snd snd = fst := by
  rw [exchange_eq_swap, Equiv.swap_apply_right]

theorem exchange_of_ne {fst snd id : Ulong} (h₁ : id ≠ fst) (h₂ : id ≠ snd) :
    exchange fst snd id = id := by
  rw [exchange, if_neg h₁, if_neg h₂]

theorem exchange_self (fst id : Ulong) : exchange fst fst id = id := by
  rw [exchange_eq_swap, Equiv.swap_self]
  rfl

section Moved

variable {α : Type} (put : Ulong → α → α)

/-- A record, if there is one, put at `id`. -/
def moved (f : Ulong → Option α) (id : Ulong) : Option α → Ulong → Option α
  | none => f
  | some a => Function.update f id (some (put id a))

/-- The records `f` after the bits of two slots were exchanged, which left `f₁`, and after the
records were put at each other's slot. -/
theorem moved_moved {f f₁ : Ulong → Option α} {fst snd : Ulong} (hne : fst ≠ snd)
    (hother : ∀ x, x ≠ fst → x ≠ snd → f₁ x = f x)
    (hsome : ∀ x, (f₁ x).isSome ↔ (f (exchange fst snd x)).isSome)
    (hput : ∀ x a, f x = some a → put x a = a) (x : Ulong) :
    moved put (moved put f₁ snd (f fst)) fst (f snd) x = (f (exchange fst snd x)).map (put x) := by
  have hnone : ∀ {x}, f (exchange fst snd x) = none → f₁ x = none := by
    intro x h
    rw [← Option.not_isSome_iff_eq_none, hsome, h]
    exact Bool.false_ne_true
  have hupdate : ∀ (g : Ulong → Option α) {id x : Ulong} (o : Option α), x ≠ id →
      moved put g id o x = g x := by
    intro g id x o hx
    cases o with
    | none => rfl
    | some a => exact Function.update_of_ne hx _ _
  by_cases h₁ : x = fst
  · subst h₁
    rw [exchange_fst]
    cases h : f snd with
    | none => exact (hupdate f₁ _ hne).trans (hnone (by rwa [exchange_fst]))
    | some a => exact Function.update_self ..
  · rw [hupdate _ _ h₁]
    by_cases h₂ : x = snd
    · subst h₂
      rw [exchange_snd]
      cases h : f fst with
      | none => exact hnone (by rwa [exchange_snd])
      | some a => exact Function.update_self ..
    · rw [hupdate _ _ h₂, exchange_of_ne h₁ h₂, hother x h₁ h₂]
      cases h : f x with
      | none => rfl
      | some a => exact congrArg some (hput x a h).symm

end Moved

namespace Store

variable {s s₁ : Store} {ft : FileType} {fst snd : Ulong}

theorem run_onlyIf {α : Type} {x : HF α} {a : α} (h : run x s = .ok (a, s)) (found : Bool) :
    run (HF.onlyIf found x) s = .ok (if found then some a else none, s) := by
  cases found with
  | false => rfl
  | true => exact Prog.run_bind_ok _ h _

theorem run_updateNode (hv : s.Valid) {nd : Node} (h : s.Live .node nd.id) :
    run (HF.updateNode nd) s = .ok ((), s.setNode nd) := run_updateNodeInternal hv h true

theorem run_updateRelationship (hv : s.Valid) {r : Relationship} (h : s.Live .relationship r.id)
    (hw : Writable r) : run (HF.updateRelationship r) s = .ok ((), s.setRel r) :=
  run_updateRelationshipInternal hv h hw true

/-- The slots of a store in which two slots of a type have exchanged their existence. -/
structure BitsSwapped (s : Store) (ft : FileType) (fst snd : Ulong) (s₁ : Store) : Prop where
  valid : s₁.Valid
  word : s₁.word = s.word
  pages : s₁.pages = s.pages
  counters : s₁.counters = s.counters
  live : ∀ gt x, s₁.Live gt x ↔ s.Live gt (if gt = ft then exchange fst snd x else x)

/-- **The header bits** of two slots exchanged. -/
theorem run_swapBits (ft : FileType) (hv : s.Valid) (ha : fst.toNat % numSlotsPer ft = 0)
    (hb : snd.toNat % numSlotsPer ft = 0) (hp : fst.toNat / 256 < s.pages ft)
    (hq : snd.toNat / 256 < s.pages ft) (hne : fst ≠ snd) :
    ∃ s₁, run (HF.swapBits ft fst snd (decide (s.Live ft fst)) (decide (s.Live ft snd))) s =
      .ok ((), s₁) ∧ s.BitsSwapped ft fst snd s₁ := by
  rw [run, HF.swapBits, HF.when]
  split
  · have hp₁ : snd.toNat / 256 < (s.setBits ft fst (decide (s.Live ft snd))).pages ft := hq
    have hv₁ := Valid.setBits hv ha hp (decide (s.Live ft snd))
    refine ⟨_, (Prog.run_bind_ok _ (run_setBits ha hp _) _).trans (run_setBits hb hp₁ _),
      Valid.setBits hv₁ hb hp₁ _, rfl, rfl, rfl, fun gt x => ?_⟩
    rw [live_setBits _ hb hp₁, live_setBits _ ha hp]
    by_cases hg : gt = ft
    · subst hg
      simp only [true_and, if_true]
      by_cases h₁ : x = fst
      · subst h₁
        simp [hne]
      · by_cases h₂ : x = snd
        · subst h₂
          simp
        · simp [h₁, h₂, exchange_of_ne h₁ h₂]
    · simp [hg]
  · rename_i he
    refine ⟨s, rfl, hv, rfl, rfl, rfl, fun gt x => ?_⟩
    have he' : s.Live ft fst ↔ s.Live ft snd := by simpa using he
    split
    · rename_i hg
      subst hg
      by_cases h₁ : x = fst
      · subst h₁
        rw [exchange_fst, he']
      · by_cases h₂ : x = snd
        · subst h₂
          rw [exchange_snd, he']
        · rw [exchange_of_ne h₁ h₂]
    · exact Iff.rfl

namespace BitsSwapped

variable (h : s.BitsSwapped ft fst snd s₁)
include h

theorem live_of_live_fst (hl : s.Live ft fst) : s₁.Live ft snd := by
  rwa [h.live, if_pos rfl, exchange_snd]

theorem live_of_live_snd (hl : s.Live ft snd) : s₁.Live ft fst := by
  rwa [h.live, if_pos rfl, exchange_fst]

end BitsSwapped

/-- Records of slots that still exist, in words that are still there. -/
theorem graph_node_congr {x : Ulong} (hw : s₁.word = s.word)
    (hl : s₁.Live .node x ↔ s.Live .node x) : s₁.graph.node x = s.graph.node x := by
  simp only [graph, hl, nodeAt, hw]

theorem graph_rel_congr {x : Ulong} (hw : s₁.word = s.word)
    (hl : s₁.Live .relationship x ↔ s.Live .relationship x) : s₁.graph.rel x = s.graph.rel x := by
  simp only [graph, hl, relAt, hw]

theorem isSome_node {id : Ulong} : (s.graph.node id).isSome ↔ s.Live .node id := by
  rw [← not_iff_not, Option.not_isSome_iff_eq_none, node_eq_none]

theorem isSome_rel {id : Ulong} : (s.graph.rel id).isSome ↔ s.Live .relationship id := by
  rw [← not_iff_not, Option.not_isSome_iff_eq_none, rel_eq_none]

/-- What an exchange of two slots of a type leaves as it was, and which slots exist after it. -/
structure Exchanged (s : Store) (ft : FileType) (fst snd : Ulong) (s' : Store) : Prop where
  valid : s'.Valid
  pages : s'.pages = s.pages
  live : ∀ gt x, s'.Live gt x ↔ s.Live gt (if gt = ft then exchange fst snd x else x)
  counters : s'.counters = { s.counters with log := s'.counters.log }

/-- Nothing is changed where both slots are one, or both are empty. -/
theorem exchanged_refl (hv : s.Valid)
    (h : fst = snd ∨ ¬ s.Live ft fst ∧ ¬ s.Live ft snd) : s.Exchanged ft fst snd s := by
  refine ⟨hv, rfl, fun gt x => ?_, rfl⟩
  split
  · rename_i hg
    subst hg
    rcases h with rfl | ⟨h₁, h₂⟩
    · rw [exchange_self]
    · by_cases e₁ : x = fst
      · subst e₁
        rw [exchange_fst]
        exact iff_of_false h₁ h₂
      · by_cases e₂ : x = snd
        · subst e₂
          rw [exchange_snd]
          exact iff_of_false h₂ h₁
        · rw [exchange_of_ne e₁ e₂]
  · exact Iff.rfl

/-- The exchange of two ids moves no other id; if it moves none that a record has, these are fixed. -/
theorem swap_apply_of_live (h : fst = snd ∨ ¬ s.Live ft fst ∧ ¬ s.Live ft snd) {x : Ulong}
    (hx : s.Live ft x) : Equiv.swap fst snd x = x := by
  rcases h with rfl | ⟨h₁, h₂⟩
  · rw [Equiv.swap_self]
    rfl
  · refine Equiv.swap_apply_of_ne_of_ne ?_ ?_
    · rintro rfl
      exact h₁ hx
    · rintro rfl
      exact h₂ hx

/-- The slots that the two functions accept. -/
theorem swapAccepts_iff (ft : FileType) (hv : s.Valid) {id : Ulong} :
    HF.SwapAccepts 4096 ft (s.pages ft) id ↔
      id.toNat / 256 < s.pages ft ∧ id.toNat % 256 + numSlotsPer ft ≤ 256 := by
  have hn := numSlotsPer_cases ft
  rw [HF.SwapAccepts, pageOf_eq, show slotsPerPage 4096 = 256 from rfl]
  constructor
  · rintro ⟨-, h₁, h₂⟩
    exact ⟨h₁, by omega⟩
  · rintro ⟨h₁, h₂⟩
    exact ⟨hv.ne_uninitialized h₁, h₁, by omega⟩

end Store

end Goedb
