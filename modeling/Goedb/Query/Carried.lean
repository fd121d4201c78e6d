import Goedb.Lib.Lockstep
import Goedb.Query.Degree
import Goedb.Query.Paths

/-!
# Query — queries under a renaming

If one store holds the graph of another under a renaming of the nodes and of the relationships, a query
of the one follows the same query of the other step by step (`Store.Carried`, `Store.InStep`): `expand`
returns the renamed relationships in the same order, so `bfs` and `dfs` push the renamed nodes in the
same order, and `random_walk` takes the same turns.

What depends on the order of the ids themselves is not carried: `get_nodes` lists the nodes in another
order.  The traversals only use it to give every node its first number.
-/

namespace Goedb

open Lib
open Prog (Lockstep)

/-! ### Dictionaries -/

/-- The entries of a dictionary under a renaming of its keys, the values changed by `f`. -/
def CarriedDict {β γ : Type} (τ : Renaming) (f : β → γ) (d : AList fun _ : Ulong => β)
    (d' : AList fun _ : Ulong => γ) : Prop := ∀ v, d'.lookup (τ v) = (d.lookup v).map f

namespace CarriedDict

variable {β γ : Type} {τ : Renaming} {f : β → γ} {d : AList fun _ : Ulong => β}
  {d' : AList fun _ : Ulong => γ}

theorem empty : CarriedDict τ f ∅ ∅ := fun v => by
  rw [AList.lookup_empty, AList.lookup_empty]
  rfl

theorem insert (h : CarriedDict τ f d d') (k : Ulong) (b : β) :
    CarriedDict τ f (d.insert k b) (d'.insert (τ k) (f b)) := by
  intro v
  by_cases hv : v = k
  · rw [hv, AList.lookup_insert, AList.lookup_insert]
    rfl
  · rw [AList.lookup_insert_ne hv, AList.lookup_insert_ne fun e => hv (τ.injective e)]
    exact h v

theorem mem_iff (h : CarriedDict τ f d d') {v : Ulong} : τ v ∈ d' ↔ v ∈ d := by
  rw [← AList.lookup_isSome, ← AList.lookup_isSome, h, Option.isSome_map]

theorem getDirect {f : Ulong → Ulong} {d d' : Dict} (h : CarriedDict τ f d d') (v : Ulong) :
    d'.getDirect (τ v) = (d.getDirect v).map f := by
  rw [Dict.getDirect, Dict.getDirect, h]
  cases d.lookup v <;> rfl

end CarriedDict

/-! ### Graphs -/

namespace Relationship

variable {τ σ : Renaming} {r : Relationship} {n : Ulong} {direction : Direction}

theorem goes_rename : (r.rename τ σ).Goes (τ n) direction ↔ r.Goes n direction := by
  simp only [Goes, rename, τ.injective.eq_iff]

theorem otherEnd_rename : (r.rename τ σ).otherEnd (τ n) = τ (r.otherEnd n) := by
  simp only [otherEnd, rename, τ.injective.eq_iff, apply_ite τ]

theorem nodeBefore_rename : (r.rename τ σ).nodeBefore (τ n) = τ (r.nodeBefore n) := by
  simp only [nodeBefore, rename, τ.injective.eq_iff, apply_ite τ]

end Relationship

namespace Graph

variable {τ σ : Renaming} {g : Graph} {n first : Ulong} {l : List Ulong} {direction : Direction}

/-- If a renamed node has a cycle, it is the renamed one. -/
theorem Walk.rename (hw : g.Walk n first l) {l' : List Ulong}
    (hw' : (g.rename τ σ).Walk (τ n) (σ first) l') :
    (g.rename τ σ).Walk (τ n) (σ first) (l.map σ) := by
  have hmem : ∀ x, x ∈ l.map σ ↔ ∃ r, (g.rename τ σ).rel x = some r ∧ r.At (τ n) := by
    intro x
    rw [List.mem_map]
    constructor
    · rintro ⟨y, hy, rfl⟩
      obtain ⟨r, hr, ha⟩ := (hw.mem y).mp hy
      exact ⟨r.rename τ σ, by rw [rename_rel, hr]; rfl, Relationship.rename_at.mpr ha⟩
    · rintro ⟨r, hr, ha⟩
      obtain ⟨y, r', rfl, rfl, hr'⟩ := rename_rel_eq_some hr
      exact ⟨y, (hw.mem y).mpr ⟨r', hr', Relationship.rename_at.mp ha⟩, rfl⟩
  have hnil : l' = [] ↔ l.map σ = [] := by
    simp only [List.eq_nil_iff_forall_not_mem, hw'.mem, hmem]
  refine ⟨hw.nodup.map σ.injective, hmem, hw.round.map fun x _ => next_rename, ?_,
    hw'.first_eq_iff.trans hnil⟩
  cases l with
  | nil => exact hw'.first_eq_iff.mpr (hnil.mpr rfl)
  | cons a t => exact congrArg σ hw.first_eq

/-- The relationships of a renamed chain, in its order. -/
theorem expand_rename (g : Graph) (n : Ulong) (direction : Direction) (l : List Ulong) :
    (g.rename τ σ).expand (τ n) direction (l.map σ) =
      (g.expand n direction l).map (Relationship.rename τ σ) := by
  have hrel : (fun x => (g.rename τ σ).rel (σ x)) = fun x => (g.rel x).map (Relationship.rename τ σ) :=
    funext fun x => rename_rel
  rw [expand, expand, List.filterMap_map, Function.comp_def, hrel, ← List.map_filterMap,
    List.filter_map]
  simp only [Function.comp_def, Relationship.goes_rename]

theorem leads_rename {v x w : Ulong} :
    (g.rename τ σ).Leads direction (τ v) (σ x) (τ w) ↔ g.Leads direction v x w := by
  constructor
  · rintro ⟨r, hr, hg, he⟩
    rw [rename_rel, Option.map_eq_some_iff] at hr
    obtain ⟨r, hr, rfl⟩ := hr
    rw [Relationship.otherEnd_rename] at he
    exact ⟨r, hr, Relationship.goes_rename.mp hg, τ.injective he⟩
  · rintro ⟨r, hr, hg, rfl⟩
    exact ⟨r.rename τ σ, by rw [rename_rel, hr]; rfl, Relationship.goes_rename.mpr hg,
      Relationship.otherEnd_rename⟩

theorem weight_rename (val : Double → ℚ) (x : Ulong) :
    (g.rename τ σ).weight val (σ x) = g.weight val x := by
  rw [weight, weight, rename_rel]
  cases g.rel x <;> rfl

end Graph

namespace Store

/-- The second store holds the graph of the first under a renaming. -/
structure Carried (τ σ : Renaming) (s s' : Store) : Prop where
  walkable : s.Walkable
  walkable' : s'.Walkable
  graph : s'.graph = s.graph.rename τ σ

/-- The two queries return related values from the two stores, or stop with the same fault. -/
abbrev InStep (s s' : Store) {α β : Type} (R : α → β → Prop) (x : HF α) (y : HF β) : Prop :=
  Lockstep step step (fun a b => a = s ∧ b = s') R x y

variable {τ σ : Renaming} {s s' : Store} {fuel : ℕ} {direction : Direction} {n source : Ulong}

theorem inStep_of_ok {α β : Type} {R : α → β → Prop} {x : HF α} {y : HF β} {a : α} {b : β} (hR : R a b)
    (hx : run x s = .ok (a, s)) (hy : run y s' = .ok (b, s')) : InStep s s' R x y := by
  refine .of_ok hR ?_
  rintro _ _ ⟨rfl, rfl⟩
  exact ⟨hx, hy⟩

theorem inStep_lift {α β : Type} {R : α → β → Prop} {x : Except Fault α} {y : Except Fault β}
    (h : Alike R x y) : InStep s s' R (HF.lift x) (HF.lift y) := by
  cases h with
  | ok h => exact .pure h
  | error e => exact .of_error (fun _ => rfl) fun _ => rfl

theorem inStep_diverge {α β : Type} {R : α → β → Prop} (e : Fault) :
    InStep s s' R (HF.abort e : HF α) (HF.abort e : HF β) :=
  .of_error (fun _ => rfl) fun _ => rfl

namespace Carried

variable (h : Carried τ σ s s')
include h

theorem live_iff : s'.Live .node (τ n) ↔ s.Live .node n := by
  rw [← isSome_node, ← isSome_node, h.graph, Graph.rename_node, Option.isSome_map]

theorem ne_uninitialized (hn : s.Live .node n) : τ n ≠ uninitializedLong :=
  h.walkable'.counted.valid.ne_uninitialized (h.live_iff.mpr hn).2.1

/-- The relationships that `expand` returns are those of the node. -/
theorem inStep_expand (hn : s.Live .node n) (direction : Direction)
    (hfuel : maxPageNo 4096 * 256 ≤ fuel) :
    InStep s s' (fun rels rels' => rels' = rels.map (Relationship.rename τ σ) ∧
        ∀ r ∈ rels, s.graph.rel r.id = some r ∧ r.Goes n direction)
      (HF.expand fuel n direction) (HF.expand fuel (τ n) direction) := by
  have hv := h.walkable.counted.valid
  have hv' := h.walkable'.counted.valid
  have hnd : s.graph.node n = some (s.nodeAt n) := node_eq_some.mpr ⟨hn, rfl⟩
  have hnd' : s'.graph.node (τ n) = some ((s.nodeAt n).rename τ σ) := by
    rw [h.graph, Graph.rename_node, hnd]
    rfl
  obtain ⟨l, hw⟩ := h.walkable.circular n _ hnd
  obtain ⟨l', hl'⟩ := h.walkable'.circular _ _ hnd'
  have hw' : s'.graph.Walk (τ n) ((s.nodeAt n).rename τ σ).firstRelationship (l.map σ) := by
    rw [h.graph] at hl' ⊢
    exact hw.rename hl'
  have hpages := hv.pages_lt .relationship
  have hpages' := hv'.pages_lt .relationship
  have hlen := walk_length_le hw
  have hlen' := walk_length_le hw'
  refine inStep_of_ok ⟨rfl, fun r hr => (hw.mem_expand s.keyed).mp hr⟩
    (Store.run_expand hv hnd hw direction (by omega)) ?_
  rw [← Graph.expand_rename, ← h.graph]
  exact Store.run_expand hv' hnd' hw' direction (by omega)

theorem inStep_readRelationship {x : Ulong} {r : Relationship} (hr : s.graph.rel x = some r) :
    InStep s s' (fun a b => a = r ∧ b = r.rename τ σ) (HF.readRelationship x)
      (HF.readRelationship (σ x)) := by
  refine inStep_of_ok ⟨rfl, rfl⟩ (run_readRelationship h.walkable.counted.valid hr)
    (run_readRelationship h.walkable'.counted.valid ?_)
  rw [h.graph, Graph.rename_rel, hr]
  rfl

/-- Both stores list their own nodes. -/
theorem inStep_getNodes (hfuel : maxPageNo 4096 * 256 ≤ fuel) :
    InStep s s' (fun a b => a = (s.liveIds .node).map s.nodeAt ∧ b = (s'.liveIds .node).map s'.nodeAt)
      (HF.getNodes 4096 fuel) (HF.getNodes 4096 fuel) := by
  have hpages := h.walkable.counted.valid.pages_lt .node
  have hpages' := h.walkable'.counted.valid.pages_lt .node
  exact inStep_of_ok ⟨rfl, rfl⟩ (run_getNodes h.walkable.counted.valid (by omega))
    (run_getNodes h.walkable'.counted.valid (by omega))

omit h in
theorem inStep_getCounters : InStep s s' (fun a b => a = s.counters ∧ b = s'.counters)
    (Prog.perform .getCounters) (Prog.perform .getCounters) := inStep_of_ok ⟨rfl, rfl⟩ rfl rfl

/-- The degrees are the same. -/
theorem inStep_getDegree (hn : s.Live .node n) (direction : Direction)
    (hfuel : maxPageNo 4096 * 256 ≤ fuel) :
    InStep s s' (fun a b => b = a) (HF.getDegree fuel n direction) (HF.getDegree fuel (τ n) direction) := by
  rw [HF.getDegree, HF.getDegree, if_neg (h.walkable.counted.valid.ne_uninitialized hn.2.1),
    if_neg (h.ne_uninitialized hn)]
  refine (h.inStep_expand hn direction hfuel).bind fun rels rels' hrels => ?_
  rw [hrels.1, List.length_map]
  exact .pure rfl

theorem live_otherEnd {r : Relationship} (hr : s.graph.rel r.id = some r)
    (hg : r.Goes n direction) : s.Live .node (r.otherEnd n) :=
  h.walkable.leads_live ⟨r, hr, hg, rfl⟩

end Carried

end Store

/-! ### `bfs` and `dfs` -/

/-- The dictionaries are carried, and the nodes that wait are renamed. -/
structure Traversal.Carried (τ σ : Renaming) (t t' : Traversal) : Prop where
  numbers : CarriedDict τ id t.numbers t'.numbers
  parents : CarriedDict τ σ t.parents t'.parents
  pending : t'.pending = t.pending.map τ

/-- The dictionaries are carried. -/
structure TraversalResult.Carried (τ σ : Renaming) (r r' : TraversalResult) : Prop where
  source : r'.source = τ r.source
  numbers : CarriedDict τ id r.traversalNumbers r'.traversalNumbers
  parents : CarriedDict τ σ r.parents r'.parents

namespace Store

variable {τ σ : Renaming} {s s' : Store} {fuel : ℕ} {direction : Direction} {n source : Ulong}

/-- The traversals are carried, and what waits are nodes. -/
def Waits (s : Store) (τ σ : Renaming) (t t' : Traversal) : Prop :=
  t.Carried τ σ t' ∧ ∀ v ∈ t.pending, s.Live .node v

/-- The function takes the same entry from a renamed list. -/
def Naturally (pop : List Ulong → Option (Ulong × List Ulong)) : Prop :=
  ∀ l, pop l = none ∧ (∀ τ : Renaming, pop (l.map τ) = none) ∨
    ∃ x rest, pop l = some (x, rest) ∧ (x ∈ l ∧ ∀ y ∈ rest, y ∈ l) ∧
      ∀ τ : Renaming, pop (l.map τ) = some (τ x, rest.map τ)

theorem naturally_popFirst : Naturally popFirst := by
  intro l
  cases l with
  | nil => exact .inl ⟨rfl, fun _ => rfl⟩
  | cons x l => exact .inr ⟨x, l, rfl, ⟨List.mem_cons_self, fun y hy => List.mem_cons_of_mem x hy⟩,
      fun _ => rfl⟩

theorem naturally_popLast : Naturally popLast := by
  intro l
  rcases List.eq_nil_or_concat l with rfl | ⟨l, x, rfl⟩
  · exact .inl ⟨rfl, fun _ => rfl⟩
  · exact .inr ⟨x, l, by simp [popLast], ⟨by simp, fun y hy => by simp [hy]⟩,
      fun τ => by simp [popLast]⟩

section Traversals

variable (h : Carried τ σ s s')
include h

/-- **One relationship**: the other end gets its number in both. -/
theorem Carried.visit {t t' : Traversal} (ht : s.Waits τ σ t t') {r : Relationship}
    (hr : s.graph.rel r.id = some r) (hg : r.Goes n direction) :
    Alike (s.Waits τ σ) (t.visit n r) (t'.visit (τ n) (r.rename τ σ)) := by
  obtain ⟨ht, hlive⟩ := ht
  rw [Traversal.visit, Traversal.visit, Relationship.otherEnd_rename, ht.numbers.getDirect,
    ht.numbers.getDirect]
  cases t.numbers.getDirect (r.otherEnd n) with
  | error e => exact .error e
  | ok number =>
      simp only [Except.map, id, ok_bind]
      by_cases hnew : number = ulongMax
      · rw [if_pos hnew, if_pos hnew]
        cases t.numbers.getDirect n with
        | error e => exact .error e
        | ok level =>
            refine .ok ⟨⟨ht.numbers.insert _ _, ht.parents.insert _ _, ?_⟩, fun v hv => ?_⟩
            · rw [ht.pending, List.map_append]
              rfl
            · rcases List.mem_append.mp hv with hv | hv
              · exact hlive v hv
              · exact List.mem_singleton.mp hv ▸ h.live_otherEnd hr hg
      · rw [if_neg hnew, if_neg hnew]
        exact .ok ⟨ht, hlive⟩

/-- **The relationships of a node.** -/
theorem Carried.visitAll (rels : List Relationship)
    (hrels : ∀ r ∈ rels, s.graph.rel r.id = some r ∧ r.Goes n direction) :
    ∀ {t t' : Traversal}, s.Waits τ σ t t' → Alike (s.Waits τ σ) (Traversal.visitAll n rels t)
      (Traversal.visitAll (τ n) (rels.map (Relationship.rename τ σ)) t') := by
  induction rels with
  | nil => exact fun ht => .ok ht
  | cons r rels ih =>
      intro t t' ht
      obtain ⟨hr, hg⟩ := hrels r List.mem_cons_self
      exact (h.visit ht hr hg).bind fun t t' ht =>
        ih (fun r' hr' => hrels r' (List.mem_cons_of_mem r hr')) ht

/-- **The loop** of `bfs` and `dfs`. -/
theorem Carried.inStep_traverseLoop {pop : List Ulong → Option (Ulong × List Ulong)}
    (hpop : Naturally pop) (direction : Direction) (hfuel : maxPageNo 4096 * 256 ≤ fuel) (turns : ℕ) :
    ∀ {t t' : Traversal}, s.Waits τ σ t t' →
    InStep s s' (Traversal.Carried τ σ) (HF.traverseLoop pop fuel direction turns t)
      (HF.traverseLoop pop fuel direction turns t') := by
  induction turns with
  | zero => exact fun _ => inStep_diverge _
  | succ turns ih =>
      intro t t' ht
      obtain ⟨ht, hlive⟩ := ht
      rw [HF.traverseLoop, HF.traverseLoop, ht.pending]
      rcases hpop t.pending with ⟨hnone, hnone'⟩ | ⟨x, rest, hsome, ⟨hx, hrest⟩, hsome'⟩
      · rw [hnone, hnone']
        exact .pure ht
      · rw [hsome, hsome']
        refine (h.inStep_expand (hlive x hx) direction hfuel).bind ?_
        rintro rels - ⟨rfl, hrels⟩
        have hwaits : s.Waits τ σ { t with pending := rest } { t' with pending := rest.map τ } :=
          ⟨⟨ht.numbers, ht.parents, rfl⟩, fun v hv => hlive v (hrest v hv)⟩
        exact (inStep_lift (h.visitAll rels hrels hwaits)).bind fun _ _ ht => ih ht

/-- **`bfs` and `dfs`** of renamed nodes are renamed. -/
theorem Carried.inStep_traverse {pop : List Ulong → Option (Ulong × List Ulong)}
    (hpop : Naturally pop) (msg : String) (hsrc : s.Live .node source) (direction : Direction)
    (hfuel : maxPageNo 4096 * 256 ≤ fuel) :
    InStep s s' (TraversalResult.Carried τ σ) (HF.traverse pop msg 4096 fuel source direction)
      (HF.traverse pop msg 4096 fuel (τ source) direction) := by
  obtain ⟨numbers, hinsert, hlook⟩ := h.walkable.insertNodes_ok ulongMax
  obtain ⟨numbers', hinsert', hlook'⟩ := h.walkable'.insertNodes_ok ulongMax
  have hnumbers : CarriedDict τ id numbers numbers' := by
    intro v
    rw [hlook, hlook', apply_ite (Option.map id)]
    exact if_congr h.live_iff rfl rfl
  rw [HF.traverse, HF.traverse, if_neg (h.walkable.counted.valid.ne_uninitialized hsrc.2.1),
    if_neg (h.ne_uninitialized hsrc)]
  refine (h.inStep_getNodes hfuel).bind ?_
  rintro - - ⟨rfl, rfl⟩
  refine inStep_getCounters.bind ?_
  rintro - - ⟨rfl, rfl⟩
  rw [hinsert, hinsert']
  refine (inStep_lift (R := CarriedDict τ id) (.ok hnumbers)).bind fun d d' hd => ?_
  refine (h.inStep_traverseLoop hpop direction hfuel fuel ⟨⟨hd.insert source 0, .empty, rfl⟩, ?_⟩).bind
    fun t t' ht => .pure ⟨rfl, ht.numbers, ht.parents⟩
  simpa using hsrc

end Traversals

end Store

/-! ### `random_walk` -/

/-- A path under a renaming. -/
def Path.rename (τ σ : Renaming) (p : Path) : Path :=
  ⟨τ p.source, τ p.target, p.distance, p.edges.map σ⟩

namespace Store

variable {τ σ : Renaming} {s s' : Store} {fuel : ℕ} {n : Ulong}

/-- **The loop** of `random_walk`. -/
theorem Carried.inStep_randomWalkLoop (h : Carried τ σ s s') (val : Double → ℚ) (rand : ℕ → ℕ)
    (direction : Direction) (hfuel : maxPageNo 4096 * 256 ≤ fuel) (steps : ℕ) :
    ∀ (i : ℕ) {n : Ulong} (visited : List Ulong) (distance : ℚ), s.Live .node n →
    InStep s s' (fun a b => b = (τ a.1, a.2.1.map σ, a.2.2))
      (HF.randomWalkLoop val fuel rand direction steps i n visited distance)
      (HF.randomWalkLoop val fuel rand direction steps i (τ n) (visited.map σ) distance) := by
  induction steps with
  | zero => exact fun _ _ _ _ _ => .pure rfl
  | succ steps ih =>
      intro i n visited distance hn
      rw [HF.randomWalkLoop, HF.randomWalkLoop]
      refine (h.inStep_expand hn direction hfuel).bind ?_
      rintro rels - ⟨rfl, hrels⟩
      rw [List.length_map]
      refine .ite Iff.rfl (fun _ => .pure rfl) fun hne => ?_
      have hlt : rand i % rels.length < rels.length := Nat.mod_lt _ (Nat.pos_of_ne_zero hne)
      rw [List.getElem?_map, List.getElem?_eq_getElem hlt]
      obtain ⟨hr, hg⟩ := hrels _ (List.getElem_mem hlt)
      set r := rels[rand i % rels.length]
      have hend : ∀ m (rel : Relationship), (if rel.sourceNode = m then rel.targetNode
          else rel.sourceNode) = rel.otherEnd m := fun m rel => if_congr eq_comm rfl rfl
      dsimp only [Option.map_some]
      rw [hend, hend, Relationship.otherEnd_rename]
      have := ih (i + 1) (visited ++ [r.id]) (distance + val r.weight) (h.live_otherEnd hr hg)
      rwa [List.map_append] at this

/-- **`random_walk`** takes the same turns. -/
theorem Carried.inStep_randomWalk (h : Carried τ σ s s') (val : Double → ℚ) (rand : ℕ → ℕ)
    (numSteps : ℕ) (hn : s.Live .node n) (direction : Direction)
    (hfuel : maxPageNo 4096 * 256 ≤ fuel) :
    InStep s s' (fun p p' => p' = p.rename τ σ) (HF.randomWalk val fuel rand n numSteps direction)
      (HF.randomWalk val fuel rand (τ n) numSteps direction) := by
  rw [HF.randomWalk, HF.randomWalk, if_neg (h.walkable.counted.valid.ne_uninitialized hn.2.1),
    if_neg (h.ne_uninitialized hn)]
  refine (h.inStep_randomWalkLoop val rand direction hfuel numSteps 0 [] 0 hn).bind ?_
  rintro ⟨w, edges, distance⟩ - rfl
  exact .pure rfl

end Store

end Goedb
