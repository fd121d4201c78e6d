import Goedb.Query.AStarHeap
import Mathlib.Order.Bounds.Basic

/-!
# Query — `alt`

The heuristic that `alt` hands to `a_star` is, for every node, the least difference between the
distances of a landmark from the node and from the target, whichever of the two is greater.

The distance from a landmark to the target is at most that to a node and the way on from there, so a
difference of the one kind is never too great.  A difference of the other kind can be: where
relationships are followed in one direction only, the way from the target to the node says nothing
about the way back.  So the heuristic of a node is at most its distance to the target exactly when some
landmark is no farther from the node than by way of the target and back along that distance
(`HeapFile.alt_admissible_iff`); followed in both directions relationships always allow that
(`Graph.shortcut_both`).
-/

namespace Goedb

open Lib

/-- `fabs` of a difference of two distances that are not negative: `DBL_MAX` less a weight is taken for
`DBL_MAX`, and no difference is more. -/
def fabsDiff (x y : WithTop ℚ) : WithTop ℚ :=
  if x = ⊤ ∧ y = ⊤ then 0
  else if x = ⊤ ∨ y = ⊤ then ⊤
  else (|x.untopD 0 - y.untopD 0| : ℚ)

namespace Alt

/-- What `alt` does with a node and the distances of a landmark. -/
def forNode (dists : DistDict) (targetNodeId nodeId : Ulong) (heuristic : DistDict) :
    Except Fault DistDict := do
  let nodeDist ← dists.getDirect nodeId
  let targetDist ← dists.getDirect targetNodeId
  let tempDist := fabsDiff nodeDist targetDist
  if nodeId ∈ heuristic then
    let dist ← heuristic.getDirect nodeId
    if tempDist < dist then return heuristic.insert nodeId tempDist
    else return heuristic
  else return heuristic.insert nodeId tempDist

/-- The loop over the nodes. -/
def forNodes (dists : DistDict) (targetNodeId : Ulong) :
    List Node → DistDict → Except Fault DistDict
  | [], heuristic => .ok heuristic
  | node :: nodes, heuristic => do
      let heuristic ← forNode dists targetNodeId node.id heuristic
      forNodes dists targetNodeId nodes heuristic

/-- The loop over the landmarks. -/
def forLandmarks (landmarkDists : List DistDict) (targetNodeId : Ulong) (nodes : List Node) :
    (numLandmarks i : ℕ) → DistDict → Except Fault DistDict
  | 0, _, heuristic => .ok heuristic
  | numLandmarks + 1, i, heuristic =>
      match landmarkDists[i]? with
      | none => .error .undefined
      | some dists => do
          let heuristic ← forNodes dists targetNodeId nodes heuristic
          forLandmarks landmarkDists targetNodeId nodes numLandmarks (i + 1) heuristic

end Alt

namespace HF

/-- The heuristic of `alt`. -/
def altHeuristic (P fuel : ℕ) (landmarkDists : List DistDict) (numLandmarks : ℕ)
    (targetNodeId : Ulong) : HF DistDict := do
  let nodes ← getNodes P fuel
  lift (Alt.forLandmarks landmarkDists targetNodeId nodes numLandmarks 0 ∅)

/-- `alt`. -/
def alt (Q : PrioQueue Total) (val : Double → ℚ) (P fuel : ℕ) (landmarkDists : List DistDict)
    (numLandmarks : ℕ) (sourceNodeId targetNodeId : Ulong) (direction : Direction) : HF Path := do
  let heuristic ← altHeuristic P fuel landmarkDists numLandmarks targetNodeId
  aStar Q val fuel heuristic sourceNodeId targetNodeId direction

end HF

/-! ### Differences -/

/-- A difference is at most `k` when neither number exceeds the other by more. -/
theorem fabsDiff_le_iff {x y : WithTop ℚ} {k : ℚ} (hk : 0 ≤ k) (h : y ≤ x + k) :
    fabsDiff x y ≤ k ↔ x ≤ y + k := by
  rw [fabsDiff]
  cases x with
  | top =>
      cases y with
      | top => simp [hk]
      | coe b => simp [← WithTop.coe_add]
  | coe a =>
      cases y with
      | top => simp at h
      | coe b =>
          rw [if_neg (by simp), if_neg (by simp), WithTop.untopD_coe, WithTop.untopD_coe]
          rw [← WithTop.coe_add, WithTop.coe_le_coe] at h
          rw [← WithTop.coe_add, WithTop.coe_le_coe, WithTop.coe_le_coe, abs_le]
          constructor
          · rintro ⟨-, hab⟩
            linarith
          · intro hab
            exact ⟨by linarith, by linarith⟩

/-- The least of no or of some numbers. -/
def LeastOf (S : Set (WithTop ℚ)) (x : Option (WithTop ℚ)) : Prop :=
  x = none ∧ S = ∅ ∨ ∃ h, x = some h ∧ IsLeast S h

/-- The number in a dictionary, after another is put in its place if it is less. -/
def lowered (x : Option (WithTop ℚ)) (k : WithTop ℚ) : WithTop ℚ := x.elim k fun h => min k h

theorem LeastOf.insert {S : Set (WithTop ℚ)} {x : Option (WithTop ℚ)} (h : LeastOf S x)
    (k : WithTop ℚ) : LeastOf (Insert.insert k S) (some (lowered x k)) := by
  rcases h with ⟨rfl, rfl⟩ | ⟨m, rfl, hm⟩
  · exact .inr ⟨k, rfl, by rw [insert_empty_eq]; exact isLeast_singleton⟩
  · exact .inr ⟨_, rfl, hm.insert k⟩

namespace Alt

variable {dists : DistDict} {target : Ulong} {gap : Ulong → WithTop ℚ}

theorem forNode_ok {v : Ulong} {heuristic : DistDict} {x y : WithTop ℚ}
    (hx : dists.lookup v = some x) (hy : dists.lookup target = some y) :
    forNode dists target v heuristic =
        .ok (heuristic.insert v (lowered (heuristic.lookup v) (fabsDiff x y))) ∨
      forNode dists target v heuristic = .ok heuristic ∧
        heuristic.lookup v = some (lowered (heuristic.lookup v) (fabsDiff x y)) := by
  rw [forNode, NumDict.getDirect_ok hx, ok_bind, NumDict.getDirect_ok hy, ok_bind]
  rcases Option.eq_none_or_eq_some (heuristic.lookup v) with h | ⟨m, h⟩
  · have hn : v ∉ heuristic := by
      rw [← AList.lookup_isSome, h]
      simp
    rw [if_neg hn, h]
    exact .inl rfl
  · have hm : v ∈ heuristic := by
      rw [← AList.lookup_isSome, h]
      rfl
    rw [if_pos hm, NumDict.getDirect_ok h, ok_bind, h]
    by_cases hlt : fabsDiff x y < m
    · rw [if_pos hlt, lowered, Option.elim_some, min_eq_left hlt.le]
      exact .inl rfl
    · rw [if_neg hlt, lowered, Option.elim_some, min_eq_right (le_of_not_gt hlt)]
      exact .inr ⟨rfl, rfl⟩

variable (gap) in
/-- **The loop over the nodes** lowers the heuristic of each. -/
theorem forNodes_ok {y : WithTop ℚ} (hy : dists.lookup target = some y) (nodes : List Node) :
    ∀ heuristic : DistDict, (∀ nd ∈ nodes, ∃ x, dists.lookup nd.id = some x ∧
      gap nd.id = fabsDiff x y) →
    ∃ heuristic', forNodes dists target nodes heuristic = .ok heuristic' ∧
      ∀ v, heuristic'.lookup v = if v ∈ nodes.map Node.id then
        some (lowered (heuristic.lookup v) (gap v)) else heuristic.lookup v := by
  induction nodes with
  | nil => exact fun heuristic _ => ⟨heuristic, rfl, fun _ => (if_neg List.not_mem_nil).symm⟩
  | cons nd nodes ih =>
      intro heuristic hnodes
      obtain ⟨x, hx, hgap⟩ := hnodes nd List.mem_cons_self
      have hone : ∃ h₁, forNode dists target nd.id heuristic = .ok h₁ ∧
          h₁.lookup nd.id = some (lowered (heuristic.lookup nd.id) (gap nd.id)) ∧
          ∀ v, v ≠ nd.id → h₁.lookup v = heuristic.lookup v := by
        rw [hgap]
        rcases forNode_ok hx hy with h | ⟨h, hl⟩
        · exact ⟨_, h, AList.lookup_insert _, fun v hv => AList.lookup_insert_ne hv⟩
        · exact ⟨_, h, hl, fun _ _ => rfl⟩
      obtain ⟨h₁, hrun₁, hself, hother⟩ := hone
      obtain ⟨h₂, hrun₂, hlook⟩ := ih h₁ fun nd' hnd' => hnodes nd' (List.mem_cons_of_mem _ hnd')
      refine ⟨h₂, ?_, fun v => ?_⟩
      · rw [forNodes, hrun₁, ok_bind, hrun₂]
      · rw [hlook, List.map_cons]
        by_cases hv : v = nd.id
        · subst hv
          rw [hself, if_pos List.mem_cons_self]
          -- the same number does not lower it again
          have hagain : lowered (some (lowered (heuristic.lookup nd.id) (gap nd.id))) (gap nd.id) =
              lowered (heuristic.lookup nd.id) (gap nd.id) := by
            rw [lowered, Option.elim_some, lowered]
            cases heuristic.lookup nd.id with
            | none => exact min_self _
            | some m => exact min_eq_right (min_le_left _ _)
          rw [hagain]
          split <;> rfl
        · rw [hother v hv]
          simp only [List.mem_cons, hv, false_or]

/-- The difference between the distances that a dictionary has. -/
def gapOf (dists : DistDict) (target v : Ulong) : WithTop ℚ :=
  fabsDiff ((dists.lookup v).getD 0) ((dists.lookup target).getD 0)

/-- A dictionary has the distances that `alt` asks it for. -/
structure Complete (dists : DistDict) (target : Ulong) (nodes : List Node) : Prop where
  target : (dists.lookup target).isSome
  nodes : ∀ nd ∈ nodes, (dists.lookup nd.id).isSome

variable (target) in
/-- **The loop over the landmarks** leaves the least differences. -/
theorem forLandmarks_ok (nodes : List Node) (rest : List DistDict) :
    ∀ (done : List DistDict) (heuristic : DistDict), (∀ d ∈ rest, Complete d target nodes) →
    (∀ v ∈ nodes.map Node.id,
      LeastOf {k | ∃ d ∈ done, gapOf d target v = k} (heuristic.lookup v)) →
    ∃ heuristic', forLandmarks (done ++ rest) target nodes rest.length done.length heuristic =
        .ok heuristic' ∧
      ∀ v ∈ nodes.map Node.id,
        LeastOf {k | ∃ d ∈ done ++ rest, gapOf d target v = k} (heuristic'.lookup v) := by
  induction rest with
  | nil =>
      intro done heuristic _ h
      refine ⟨heuristic, rfl, ?_⟩
      rwa [List.append_nil]
  | cons d rest ih =>
      intro done heuristic hcomplete h
      obtain ⟨htarget, hnodes⟩ := hcomplete d List.mem_cons_self
      obtain ⟨y, hy⟩ := Option.isSome_iff_exists.mp htarget
      obtain ⟨h₁, hrun₁, hlook⟩ := forNodes_ok (gapOf d target) hy nodes heuristic
        fun nd hnd => by
          obtain ⟨x, hx⟩ := Option.isSome_iff_exists.mp (hnodes nd hnd)
          exact ⟨x, hx, by rw [gapOf, hx, hy]; rfl⟩
      obtain ⟨h₂, hrun₂, hleast⟩ := ih (done ++ [d]) h₁
        (fun d' hd' => hcomplete d' (List.mem_cons_of_mem d hd')) fun v hv => by
          have hset : {k | ∃ d' ∈ done ++ [d], gapOf d' target v = k} =
              Insert.insert (gapOf d target v) {k | ∃ d' ∈ done, gapOf d' target v = k} := by
            ext k
            simp only [List.mem_append, List.mem_singleton, Set.mem_ofPred_eq, Set.mem_insert_iff]
            constructor
            · rintro ⟨d', hd' | rfl, rfl⟩
              · exact .inr ⟨d', hd', rfl⟩
              · exact .inl rfl
            · rintro (rfl | ⟨d', hd', rfl⟩)
              · exact ⟨d, .inr rfl, rfl⟩
              · exact ⟨d', .inl hd', rfl⟩
          rw [hset, hlook, if_pos hv]
          exact (h v hv).insert _
      rw [List.append_assoc, List.singleton_append] at hrun₂ hleast
      refine ⟨h₂, ?_, hleast⟩
      rw [List.length_append, List.length_singleton] at hrun₂
      rw [List.length_cons, forLandmarks, List.getElem?_append_right (Nat.le_refl _), Nat.sub_self]
      show (forNodes d target nodes heuristic >>= fun heuristic =>
        forLandmarks (done ++ d :: rest) target nodes rest.length (done.length + 1) heuristic) = _
      rw [hrun₁, ok_bind, hrun₂]

end Alt

theorem exists_of_mem_forall₂ {α β : Type} {R : α → β → Prop} {l : List α} {m : List β}
    (h : List.Forall₂ R l m) {b : β} (hb : b ∈ m) : ∃ a ∈ l, R a b := by
  induction h with
  | nil => cases hb
  | @cons a c l m hac _ ih =>
      rcases List.mem_cons.mp hb with rfl | hb
      · exact ⟨a, List.mem_cons_self, hac⟩
      · obtain ⟨a', ha', hab⟩ := ih hb
        exact ⟨a', List.mem_cons_of_mem a ha', hab⟩

/-! ### Distances -/

namespace Graph

variable (g : Graph) (val : Double → ℚ) (direction : Direction)

/-- The dictionary has the distances of the nodes from the source. -/
structure Distances (source : Ulong) (dists : DistDict) : Prop where
  reached : ∀ v, g.Reaches direction source v → ∃ k : ℚ, dists.lookup v = some ↑k ∧
    IsLeast {k | g.Path val direction source k v} k
  unreached : ∀ v, (g.node v).isSome → ¬ g.Reaches direction source v → dists.lookup v = some ⊤

/-- From `l` there is a way to `v` that is no longer than any to the target and the one from `v` to the
target together. -/
def Shortcut (l target v : Ulong) : Prop :=
  ∀ m k, g.Path val direction l m target → g.Path val direction v k target →
    ∃ j, g.Path val direction l j v ∧ j ≤ m + k

variable {g val direction} {source target v l : Ulong} {dists : DistDict}

/-- In both directions the way to the target leads back. -/
theorem shortcut_both (l target v : Ulong) : g.Shortcut val .both l target v := by
  intro m k hm hk
  exact ⟨m + k, Weighs.trans hm (hk.symm fun u x w he => ⟨he.symm, rfl⟩), le_rfl⟩

variable (l dists) in
/-- The difference of a landmark is at most the weight of a path to the target if there is a way that
short from the landmark. -/
theorem gapOf_le_iff (h : g.Distances val direction l dists) (hv : (g.node v).isSome)
    (ht : (g.node target).isSome) (hreach : g.Reaches direction v target)
    (hpos : ∀ u x w, g.Leads direction u x w → 0 ≤ g.weight val x) :
    (∀ k, g.Path val direction v k target → Alt.gapOf dists target v ≤ (k : WithTop ℚ)) ↔
      g.Shortcut val direction l target v := by
  have hk : ∀ {k}, g.Path val direction v k target → 0 ≤ k := fun hp => Weighs.nonneg hpos hp
  obtain ⟨k₀, hk₀⟩ := hreach.path
  by_cases hlv : g.Reaches direction l v
  · obtain ⟨a, ha, haLeast⟩ := h.reached v hlv
    obtain ⟨b, hb, hbLeast⟩ := h.reached target (hlv.trans hreach)
    have hgap : ∀ {k}, g.Path val direction v k target →
        (Alt.gapOf dists target v ≤ (k : WithTop ℚ) ↔ a ≤ b + k) := by
      intro k hp
      have htri : b ≤ a + k := hbLeast.2 (Weighs.trans haLeast.1 hp)
      rw [Alt.gapOf, ha, hb, Option.getD_some, Option.getD_some,
        fabsDiff_le_iff (hk hp) (by exact_mod_cast htri), ← WithTop.coe_add, WithTop.coe_le_coe]
    constructor
    · intro hall m k hm hp
      have hm' : b ≤ m := hbLeast.2 hm
      have := (hgap hp).mp (hall k hp)
      exact ⟨a, haLeast.1, by linarith⟩
    · intro hshort k hp
      obtain ⟨j, hj, hle⟩ := hshort b k hbLeast.1 hp
      have hj' : a ≤ j := haLeast.2 hj
      exact (hgap hp).mpr (hj'.trans hle)
  · have ha := h.unreached v hv hlv
    by_cases hlt : g.Reaches direction l target
    · -- the landmark reaches the target, but not the node
      obtain ⟨b, hb, hbLeast⟩ := h.reached target hlt
      refine iff_of_false (fun hall => ?_) fun hshort => ?_
      · have := hall k₀ hk₀
        rw [Alt.gapOf, ha, hb, Option.getD_some, Option.getD_some, fabsDiff, if_neg (by simp),
          if_pos (.inl rfl)] at this
        exact WithTop.coe_ne_top (top_le_iff.mp this)
      · obtain ⟨j, hj, -⟩ := hshort b k₀ hbLeast.1 hk₀
        exact hlv (Path.reaches hj)
    · have hb := h.unreached target ht hlt
      refine iff_of_true (fun k hp => ?_) fun m k hm _ => absurd (Path.reaches hm) hlt
      rw [Alt.gapOf, ha, hb, Option.getD_some, fabsDiff, if_pos ⟨rfl, rfl⟩]
      exact WithTop.coe_nonneg.mpr (hk hp)

end Graph

theorem Graph.Distances.isSome {g : Graph} {val : Double → ℚ} {direction : Direction} {l v : Ulong}
    {dists : DistDict} (h : g.Distances val direction l dists) (hv : (g.node v).isSome) :
    (dists.lookup v).isSome := by
  by_cases hr : g.Reaches direction l v
  · obtain ⟨k, hk, -⟩ := h.reached v hr
    rw [hk]
    rfl
  · rw [h.unreached v hv hr]
    rfl

namespace HeapFile

variable {hf : HeapFile PhyDatabase} {target : Ulong}

/-- **The heuristic of `alt`** is the least difference of a landmark. -/
theorem run_altHeuristic (hw : hf.WellFormed) (hc : (Store.of hf).Counted)
    (htgt : (Store.of hf).Live .node target) {val : Double → ℚ} {direction : Direction}
    {landmarks : List Ulong} (hne : landmarks ≠ []) {landmarkDists : List DistDict}
    (hdists : List.Forall₂ (hf.graph.Distances val direction) landmarks landmarkDists) :
    ∃ heuristic N, (∀ fuel ≥ N, ∃ hf₁, run (HF.altHeuristic 4096 fuel landmarkDists
        landmarks.length target) hf = .ok (heuristic, hf₁)) ∧
      ∀ v, (Store.of hf).Live .node v → ∃ h, heuristic.lookup v = some h ∧
        IsLeast {k | ∃ d ∈ landmarkDists, Alt.gapOf d target v = k} h := by
  have hv := hc.valid
  have hpages := hv.pages_lt .node
  have hids : ∀ v, v ∈ (((Store.of hf).liveIds .node).map (Store.of hf).nodeAt).map Node.id ↔
      (Store.of hf).Live .node v := by
    intro v
    rw [Store.map_id_nodeAt, Store.mem_liveIds]
  obtain ⟨heuristic, hrun, hleast⟩ := Alt.forLandmarks_ok target
    (((Store.of hf).liveIds .node).map (Store.of hf).nodeAt) landmarkDists [] ∅
    (fun d hd => by
      obtain ⟨l, -, hld⟩ := exists_of_mem_forall₂ hdists hd
      exact ⟨hld.isSome (Store.isSome_node.mpr htgt), fun nd hnd => hld.isSome
        (Store.isSome_node.mpr ((hids _).mp (List.mem_map_of_mem hnd)))⟩)
    (fun v _ => .inl ⟨AList.lookup_empty v, by simp⟩)
  rw [List.nil_append] at hrun hleast
  rw [List.length_nil, ← hdists.length_eq] at hrun
  refine ⟨heuristic, maxPageNo 4096 * 256, fun fuel hfuel => ?_, fun v hlive => ?_⟩
  · have hstore : Store.run (HF.altHeuristic 4096 fuel landmarkDists landmarks.length target)
        (Store.of hf) = .ok (heuristic, Store.of hf) := by
      rw [Store.run, HF.altHeuristic, Prog.run_bind_ok _ (Store.run_getNodes hv (by omega))]
      exact Store.run_lift hrun _
    obtain ⟨hf₁, hrun₁, -, -⟩ := run_ok hw.good hstore
    exact ⟨hf₁, hrun₁⟩
  · rcases hleast v ((hids v).mpr hlive) with ⟨-, hempty⟩ | hleast'
    · -- there is a landmark
      obtain ⟨l, ls, rfl⟩ := List.exists_cons_of_ne_nil hne
      obtain ⟨d, hd, -⟩ := exists_of_mem_forall₂ hdists.flip List.mem_cons_self
      have : Alt.gapOf d target v ∈ (∅ : Set (WithTop ℚ)) := hempty ▸ ⟨d, hd, rfl⟩
      exact absurd this (Set.notMem_empty _)
    · exact hleast'

/-- **Where the heuristic of `alt` is admissible**: of a node from which the target is reached it is at
most the weight of every path to the target exactly when some landmark has a way to the node that is no
longer than its way to the target and the node's together. -/
theorem alt_admissible_iff (hw : hf.WellFormed) (hc : (Store.of hf).Counted)
    (htgt : (Store.of hf).Live .node target) (val : Double → ℚ)
    (hval : ∀ x r, hf.graph.rel x = some r → 0 ≤ val r.weight) (direction : Direction)
    {landmarks : List Ulong} (hne : landmarks ≠ []) {landmarkDists : List DistDict}
    (hdists : List.Forall₂ (hf.graph.Distances val direction) landmarks landmarkDists) :
    ∃ heuristic N, (∀ fuel ≥ N, ∃ hf₁, run (HF.altHeuristic 4096 fuel landmarkDists
        landmarks.length target) hf = .ok (heuristic, hf₁)) ∧
      ∀ v, (Store.of hf).Live .node v → hf.graph.Reaches direction v target →
        ∃ h, heuristic.lookup v = some h ∧
          ((∀ k, hf.graph.Path val direction v k target → h ≤ (k : WithTop ℚ)) ↔
            ∃ l ∈ landmarks, hf.graph.Shortcut val direction l target v) := by
  have hpos := hf.graph.weight_nonneg hval direction
  obtain ⟨heuristic, N, hrun, hleast⟩ := run_altHeuristic hw hc htgt hne hdists
  refine ⟨heuristic, N, hrun, fun v hlive hreach => ?_⟩
  have hgap := fun l d hd => Graph.gapOf_le_iff l d hd
    (Store.isSome_node.mpr hlive) (Store.isSome_node.mpr htgt) hreach hpos
  obtain ⟨h, hh, ⟨d, hd, rfl⟩, hmin⟩ := hleast v hlive
  refine ⟨_, hh, fun hall => ?_, ?_⟩
  · obtain ⟨l, hl, hld⟩ := exists_of_mem_forall₂ hdists hd
    exact ⟨l, hl, (hgap l d hld).mp hall⟩
  · rintro ⟨l, hl, hshort⟩ k hp
    obtain ⟨d', hd', hld'⟩ := exists_of_mem_forall₂ hdists.flip hl
    exact (hmin ⟨d', hd', rfl⟩).trans ((hgap l d' hld').mpr hshort k hp)

/-- A relationship of weight 2 from node 0 to node 1, and one of weight 5 back. -/
structure TwoWay (g : Graph) : Prop where
  nodes : ∀ v, (g.node v).isSome → v = 0#64 ∨ v = 1#64
  leads : ∀ u x v, g.Leads .outgoing u x v →
    u = 0#64 ∧ v = 1#64 ∧ g.weight detourWeight x = 2 ∨
    u = 1#64 ∧ v = 0#64 ∧ g.weight detourWeight x = 5
  there : g.Leads .outgoing 0#64 0#64 1#64 ∧ g.weight detourWeight 0#64 = 2
  back : g.Leads .outgoing 1#64 4#64 0#64 ∧ g.weight detourWeight 4#64 = 5

namespace TwoWay

variable {g : Graph}

/-- The distances from node 1. -/
def dists : DistDict := ((∅ : DistDict).insert 0#64 5).insert 1#64 0

theorem of_store {s : Store} (hlive : s.liveIds .node = [0#64, 1#64])
    (hids : s.liveIds .relationship = [0#64, 4#64])
    (h₀ : (s.relAt 0#64).payload = (0#64, 1#64, 0x4000000000000000#64, 0#64))
    (h₄ : (s.relAt 4#64).payload = (1#64, 0#64, 0x4014000000000000#64, 0#64)) :
    TwoWay s.graph := by
  simp only [Relationship.payload, Prod.mk.injEq] at h₀ h₄
  have he₀ := Detour.leads_of (s := s) (x := 0#64) (by rw [hids]; decide)
  have he₄ := Detour.leads_of (s := s) (x := 4#64) (by rw [hids]; decide)
  rw [h₀.1, h₀.2.1, h₀.2.2.1, show detourWeight 0x4000000000000000#64 = 2 by decide +kernel] at he₀
  rw [h₄.1, h₄.2.1, h₄.2.2.1, show detourWeight 0x4014000000000000#64 = 5 by decide +kernel] at he₄
  refine ⟨fun v hv => ?_, fun u x v he => ?_, he₀, he₄⟩
  · have := Store.mem_liveIds.mpr (Store.isSome_node.mp hv)
    rw [hlive] at this
    simpa using this
  · obtain ⟨hx, rfl, rfl, hw⟩ := Detour.leads_inv he
    rw [hids] at hx
    simp only [List.mem_cons, List.not_mem_nil, or_false] at hx
    rcases hx with rfl | rfl
    · exact .inl ⟨h₀.1, h₀.2.1, he₀.2⟩
    · exact .inr ⟨h₄.1, h₄.2.1, he₄.2⟩

variable (h : TwoWay g)
include h

theorem weighs {k : ℚ} {v : Ulong} (hp : g.Path detourWeight .outgoing 1#64 k v) :
    v = 1#64 ∧ 0 ≤ k ∨ v = 0#64 ∧ 5 ≤ k := by
  induction hp with
  | refl => exact .inl ⟨rfl, le_rfl⟩
  | @step k u v x _ he ih =>
      rcases h.leads u x v he with ⟨rfl, rfl, hx⟩ | ⟨rfl, rfl, hx⟩
      · obtain ⟨h', -⟩ | ⟨-, hk⟩ := ih
        · cases h'
        · exact .inl ⟨rfl, by rw [hx]; linarith⟩
      · obtain ⟨-, hk⟩ | ⟨h', -⟩ := ih
        · exact .inr ⟨rfl, by rw [hx]; linarith⟩
        · cases h'

theorem distances : g.Distances detourWeight .outgoing 1#64 dists := by
  have hfive : g.Path detourWeight .outgoing 1#64 5 0#64 := by
    have hstep : g.Path detourWeight .outgoing 1#64 (0 + g.weight detourWeight 4#64) 0#64 :=
      .step .refl h.back.1
    rwa [zero_add, h.back.2] at hstep
  refine ⟨fun v hv => ?_, fun v hv hn => ?_⟩
  · obtain ⟨k, hk⟩ := hv.path
    rcases h.weighs hk with ⟨rfl, -⟩ | ⟨rfl, -⟩
    · refine ⟨0, by decide +kernel, .refl, fun j hj => ?_⟩
      exact (h.weighs hj).elim And.right fun h' => by cases h'.1
    · refine ⟨5, by decide +kernel, hfive, fun j hj => ?_⟩
      exact (h.weighs hj).elim (fun h' => by cases h'.1) And.right
  · rcases h.nodes v hv with rfl | rfl
    · exact absurd hfive.reaches hn
    · exact absurd .refl hn

end TwoWay

/-- The heap file of the two nodes and relationships. -/
theorem exists_twoWay : ∃ db hf₀ hf ids, PhyDatabase.create 4096 = .ok db ∧
    create 4096 1000 (PhyDatabase.flat 4096) db = .ok hf₀ ∧
    run (HF.creations 4096 1000 [.node 0#64, .node 0#64,
      .relationship 0#64 1#64 0x4000000000000000#64 0#64,
      .relationship 1#64 0#64 0x4014000000000000#64 0#64]) hf₀ = .ok (ids, hf) ∧
    hf.WellFormed ∧ (Store.of hf).Counted ∧ (Store.of hf).Live .node 0#64 ∧
    (Store.of hf).Live .node 1#64 ∧ TwoWay hf.graph := by
  have h : Prog.check Store.step (HF.creations 4096 1000 [.node 0#64, .node 0#64,
      .relationship 0#64 1#64 0x4000000000000000#64 0#64,
      .relationship 1#64 0#64 0x4014000000000000#64 0#64]) Store.empty
      (fun _ s => decide (s.liveIds .node = [0#64, 1#64] ∧
        s.liveIds .relationship = [0#64, 4#64] ∧
        (s.relAt 0#64).payload = (0#64, 1#64, 0x4000000000000000#64, 0#64) ∧
        (s.relAt 4#64).payload = (1#64, 0#64, 0x4014000000000000#64, 0#64))) = true := by
    decide +kernel
  obtain ⟨ids, s, hrun, hp⟩ := Prog.check_inv _ h
  obtain ⟨hlive, hids, h₀, h₄⟩ := of_decide_eq_true hp
  have hc := Store.counted_of_creations hrun
  obtain ⟨db, hf₀, hf, hdb, hcreate, hrun', hw, rfl⟩ := exists_created hrun
  refine ⟨db, hf₀, hf, ids, hdb, hcreate, hrun', hw, hc, ?_, ?_, .of_store hlive hids h₀ h₄⟩
  · rw [← Store.mem_liveIds, hlive]
    decide
  · rw [← Store.mem_liveIds, hlive]
    decide

/-- With node 1 as landmark the heuristic for the way to node 0 is admissible: from the landmark there is
a way to both nodes. -/
theorem alt_admissible_iff_back : ∃ hf : HeapFile PhyDatabase, ∃ heuristic N,
    (∀ fuel ≥ N, ∃ hf₁, run (HF.altHeuristic 4096 fuel [TwoWay.dists] 1 0#64) hf =
      .ok (heuristic, hf₁)) ∧
    ∀ v, (Store.of hf).Live .node v → hf.graph.Reaches .outgoing v 0#64 →
      ∃ h, heuristic.lookup v = some h ∧
        ∀ k, hf.graph.Path detourWeight .outgoing v k 0#64 → h ≤ (k : WithTop ℚ) := by
  obtain ⟨db, hf₀, hf, ids, -, -, -, hw, hc, htgt, -, htwo⟩ := exists_twoWay
  have hval : ∀ x r, hf.graph.rel x = some r → 0 ≤ detourWeight r.weight := fun _ r _ =>
    detourWeight_nonneg r.weight
  have hpos := hf.graph.weight_nonneg hval .outgoing
  obtain ⟨heuristic, N, hrun, hiff⟩ := alt_admissible_iff hw hc htgt detourWeight hval .outgoing
    (List.cons_ne_nil 1#64 []) (.cons htwo.distances .nil)
  refine ⟨hf, heuristic, N, hrun, fun v hlive hreach => ?_⟩
  obtain ⟨h, hh, hadm⟩ := hiff v hlive hreach
  refine ⟨h, hh, hadm.mpr ⟨1#64, List.mem_cons_self, fun m k hm hk => ?_⟩⟩
  rcases htwo.nodes v (Store.isSome_node.mpr hlive) with rfl | rfl
  · exact ⟨m, hm, le_add_of_nonneg_right (Weighs.nonneg hpos hk)⟩
  · exact ⟨0, .refl, add_nonneg (Weighs.nonneg hpos hm) (Weighs.nonneg hpos hk)⟩

/-- With the target as the only landmark, the heuristic of the other node is the weight 5 of the way
back to it, and its way to the target has the weight 2. -/
theorem alt_not_admissible : ∃ db hf₀ hf ids, PhyDatabase.create 4096 = .ok db ∧
    create 4096 1000 (PhyDatabase.flat 4096) db = .ok hf₀ ∧
    run (HF.creations 4096 1000 [.node 0#64, .node 0#64,
      .relationship 0#64 1#64 0x4000000000000000#64 0#64,
      .relationship 1#64 0#64 0x4014000000000000#64 0#64]) hf₀ = .ok (ids, hf) ∧
    hf.WellFormed ∧ hf.graph.Distances detourWeight .outgoing 1#64 TwoWay.dists ∧
    ∃ heuristic N, (∀ fuel ≥ N, ∃ hf₁,
        run (HF.altHeuristic 4096 fuel [TwoWay.dists] 1 1#64) hf = .ok (heuristic, hf₁)) ∧
      heuristic.lookup 0#64 = some 5 ∧
      ¬ ∀ k, hf.graph.Path detourWeight .outgoing 0#64 k 1#64 → (5 : WithTop ℚ) ≤ k := by
  obtain ⟨db, hf₀, hf, ids, hdb, hcreate, hrun, hw, hc, hsrc, htgt, htwo⟩ := exists_twoWay
  obtain ⟨heuristic, N, hheur, hleast⟩ := run_altHeuristic hw hc htgt (List.cons_ne_nil 1#64 [])
    (.cons htwo.distances .nil)
  refine ⟨db, hf₀, hf, ids, hdb, hcreate, hrun, hw, htwo.distances, heuristic, N, hheur, ?_, ?_⟩
  · obtain ⟨h, hh, ⟨d, hd, hgap⟩, -⟩ := hleast 0#64 hsrc
    obtain rfl := List.mem_singleton.mp hd
    rw [hh, ← hgap]
    decide +kernel
  · intro hall
    have hpath : hf.graph.Path detourWeight .outgoing 0#64
        (0 + hf.graph.weight detourWeight 0#64) 1#64 := .step .refl htwo.there.1
    rw [htwo.there.2, zero_add] at hpath
    have hle : ((5 : ℚ) : WithTop ℚ) ≤ ((2 : ℚ) : WithTop ℚ) := hall 2 hpath
    rw [WithTop.coe_le_coe] at hle
    norm_num at hle

end HeapFile

end Goedb
