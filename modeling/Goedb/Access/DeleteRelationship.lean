import Goedb.Access.Creation
import Goedb.Access.Unlinking

/-!
# Access — deleting relationships

What `delete_relationship` does to a store: it takes a relationship out of the graph
(`Graph.unlink`).  The neighbours of the relationship are read and linked to each other only if it
does not precede itself in the chain of its source.

* `Store.run_deleteRelationship`: the run, on every valid store that has the records it reads.
* `HeapFile.deleteRelationship_iff`: on a well-formed heap file the result is well-formed exactly if
  the relationship is not alone at its source with company at its target.
-/

namespace Goedb

open Lib

namespace Relationship

/-- A next and a previous pointer are set in either order. -/
theorem patch_setPrev_setNext (r : Relationship) (a b n m va vb : Ulong) :
    (r.patch a (·.setPrev n va)).patch b (·.setNext m vb) =
      (r.patch b (·.setNext m vb)).patch a (·.setPrev n va) := by
  unfold patch
  by_cases ha : r.id = a
  · by_cases hb : r.id = b
    · simp only [if_pos ha, if_pos hb, setPrev_id, setNext_id]
      rfl
    · simp only [if_pos ha, if_neg hb, setPrev_id]
  · by_cases hb : r.id = b
    · simp only [if_neg ha, if_pos hb, setNext_id]
    · simp only [if_neg ha, if_neg hb]

end Relationship

/-- The pointer assignments of `delete_relationship`, by ids. -/
theorem unlink_eq {o : Objs} {ps : List Obj} (h : o.Apart ps) {pf nf pt nt q : Obj} (hpf : pf ∈ ps)
    (hnf : nf ∈ ps) (hpt : pt ∈ ps) (hnt : nt ∈ ps) (hq : q ∈ ps) (rel : Relationship) :
    HF.unlink rel pf nf pt nt o q =
      Relationship.relink rel.sourceNode rel.targetNode (o pf).id rel.nextRelSource (o pt).id
        rel.nextRelTarget (o nf).id rel.prevRelSource (o nt).id rel.prevRelTarget (o q) := by
  have hn : ∀ k v r, (Relationship.setNext k v r).id = r.id := fun _ _ _ => rfl
  have hp : ∀ k v r, (Relationship.setPrev k v r).id = r.id := fun _ _ _ => rfl
  have h₁ := h.modify (hn rel.sourceNode rel.nextRelSource) pf
  have h₂ := h₁.modify (hp rel.sourceNode rel.prevRelSource) nf
  have h₃ := h₂.modify (hn rel.targetNode rel.nextRelTarget) pt
  rw [HF.unlink, h₃.modify_eq hnt hq, h₂.modify_eq hpt hq, h₁.modify_eq hnf hq, h.modify_eq hpf hq]
  simp only [Objs.modify_id (hn _ _), Objs.modify_id (hp _ _)]
  rw [Relationship.patch_setPrev_setNext]
  rfl

namespace Store

variable {s : Store} {id : Ulong} {rel : Relationship}

/-! ### The neighbours -/

/-- The relationships that `rel` points to are there, and can be written. -/
def HasNeighbours (s : Store) (rel : Relationship) : Prop :=
  ∀ x ∈ [rel.prevRelSource, rel.nextRelSource, rel.prevRelTarget, rel.nextRelTarget],
    ∃ r, s.graph.rel x = some r ∧ Writable r

theorem run_loadNeighbours (hv : s.Valid) (hnb : s.HasNeighbours rel) :
    ∃ o pf nf pt nt, run (HF.loadNeighbours rel) s = .ok ((o, pf, nf, pt, nt), s) ∧
      Loads s.graph.rel o [nt, pt, nf, pf] ∧ (o pf).id = rel.prevRelSource ∧
      (o nf).id = rel.nextRelSource ∧ (o pt).id = rel.prevRelTarget ∧
      (o nt).id = rel.nextRelTarget ∧ ∀ q ∈ [nt, pt, nf, pf], q ≠ .rel := by
  obtain ⟨r₁, hr₁, -⟩ := hnb rel.prevRelSource (by simp)
  obtain ⟨r₂, hr₂, -⟩ := hnb rel.nextRelSource (by simp)
  obtain ⟨r₃, hr₃, -⟩ := hnb rel.prevRelTarget (by simp)
  obtain ⟨r₄, hr₄, -⟩ := hnb rel.nextRelTarget (by simp)
  have hL₀ : Loads s.graph.rel (fun _ => rel) [] := ⟨by simp, fun _ hp => by cases hp⟩
  obtain ⟨o₁, p₁, h₁, hL₁, hid₁, -, hp₁⟩ := run_loadOr hv hL₀ (f := .first) hr₁ hr₁ (by simp) []
    (by simp) (by simp)
  obtain rfl : p₁ = .first := hp₁.resolve_left List.not_mem_nil
  obtain ⟨o₂, p₂, h₂, hL₂, hid₂, hk₂, hp₂⟩ := run_loadOr hv hL₁ (f := .second) hr₂ hr₂
    (by decide) [((o₁ .first).id, .first)] (by simp) (by simp)
  have hp₂ : p₂ = .first ∨ p₂ = .second := hp₂.imp_left List.mem_singleton.mp
  obtain ⟨o₃, p₃, h₃, hL₃, hid₃, hk₃, hp₃⟩ := run_loadOr hv hL₂ (f := .third) hr₃ hr₃
    (by rcases hp₂ with rfl | rfl <;> decide) [((o₂ .first).id, .first), ((o₂ p₂).id, p₂)]
    (by simp) (by simp; tauto)
  have hp₃ : p₃ = p₂ ∨ p₃ = .first ∨ p₃ = .third := by simpa [or_assoc] using hp₃
  obtain ⟨o₄, p₄, h₄, hL₄, hid₄, hk₄, hp₄⟩ := run_loadOr hv hL₃ (f := .fourth) hr₄ hr₄
    (by rcases hp₂ with rfl | rfl <;> rcases hp₃ with rfl | rfl | rfl <;> decide)
    [((o₃ .first).id, .first), ((o₃ p₂).id, p₂), ((o₃ p₃).id, p₃)] (by simp) (by simp; tauto)
  have hp₄ : p₄ = p₃ ∨ p₄ = p₂ ∨ p₄ = .first ∨ p₄ = .fourth := by simpa [or_assoc] using hp₄
  refine ⟨o₄, .first, p₂, p₃, p₄, ?_, hL₄, ?_, ?_, ?_, hid₄, ?_⟩
  · rw [run, HF.loadNeighbours]
    exact (Prog.run_bind_ok _ h₁ _).trans ((Prog.run_bind_ok _ h₂ _).trans
      ((Prog.run_bind_ok _ h₃ _).trans (Prog.run_bind_ok _ h₄ _)))
  · rw [hk₄ _ (by simp), hk₃ _ (by simp), hk₂ _ (by simp), hid₁]
  · rw [hk₄ _ (by simp), hk₃ _ (by simp), hid₂]
  · rw [hk₄ _ (by simp), hid₃]
  · rcases hp₂ with rfl | rfl <;> rcases hp₃ with rfl | rfl | rfl <;>
      rcases hp₄ with rfl | rfl | rfl | rfl <;> decide

/-- **The neighbours linked to each other.** -/
theorem run_unlinkNeighbours (hv : s.Valid) (hnb : s.HasNeighbours rel) :
    ∃ s', run (HF.unlinkNeighbours rel) s = .ok ((), s') ∧ s.SameSlots s' ∧
      s'.graph.node = s.graph.node ∧ ∀ y, s'.graph.rel y = (s.graph.rel y).map
        (Relationship.relink rel.sourceNode rel.targetNode
          rel.prevRelSource rel.nextRelSource rel.prevRelTarget rel.nextRelTarget
          rel.nextRelSource rel.prevRelSource rel.nextRelTarget rel.prevRelTarget) := by
  obtain ⟨o, pf, nf, pt, nt, hload, hL, hpf, hnf, hpt, hnt, hrel⟩ := run_loadNeighbours hv hnb
  have hmem : ∀ q, q ∈ [nf, pf, nt, pt] → q ∈ [nt, pt, nf, pf] := by
    intro q hq
    simp only [List.mem_cons, List.not_mem_nil, or_false] at hq ⊢
    tauto
  have hobj : ∀ q ∈ [nt, pt, nf, pf], HF.unlink rel pf nf pt nt o q =
      Relationship.relink rel.sourceNode rel.targetNode
        rel.prevRelSource rel.nextRelSource rel.prevRelTarget rel.nextRelTarget
        rel.nextRelSource rel.prevRelSource rel.nextRelTarget rel.prevRelTarget (o q) := by
    intro q hq
    rw [unlink_eq hL.apart (by simp) (by simp) (by simp) (by simp) hq, hpf, hnf, hpt, hnt]
  have hid : ∀ q ∈ [nf, pf, nt, pt], (HF.unlink rel pf nf pt nt o q).id = (o q).id := fun q hq => by
    rw [hobj q (hmem q hq), Relationship.keeps_relink.id]
  have happ : (HF.unlink rel pf nf pt nt o).Apart [nf, pf, nt, pt] := hL.apart.of_id hmem hid
  have hwrite : ∀ p ∈ [nt, pt, nf, pf], Writable (o p) := by
    intro p hp
    have hx : (o p).id ∈
        [rel.prevRelSource, rel.nextRelSource, rel.prevRelTarget, rel.nextRelTarget] := by
      simp only [List.mem_cons, List.not_mem_nil, or_false] at hp
      rcases hp with rfl | rfl | rfl | rfl
      · simp [hnt]
      · simp [hpt]
      · simp [hnf]
      · simp [hpf]
    obtain ⟨r, hr, hw⟩ := hnb _ hx
    rw [hL.known p hp] at hr
    cases hr
    exact hw
  obtain ⟨s', h', e', n', r'⟩ := run_writeBack_map (K := fun _ => False) hv
    Relationship.keeps_relink happ
    (fun p hp _ => ⟨o p, by rw [hid p hp, hL.known p (hmem p hp)], hobj p (hmem p hp),
      hwrite p (hmem p hp)⟩)
    (fun y r hr _ hnot => by
      have hne : ∀ q ∈ [nf, pf, nt, pt], r.id ≠ (o q).id := fun q hq he =>
        hnot q hq (hrel q (hmem q hq)) (by rw [hid q hq, ← he, rel_id hr])
      exact Relationship.relink_of_ne (hpf ▸ hne pf (by simp)) (hpt ▸ hne pt (by simp))
        (hnf ▸ hne nf (by simp)) (hnt ▸ hne nt (by simp)))
  exact ⟨s', (Prog.run_bind_ok _ hload _).trans h', e', n', fun y => r' y not_false⟩

/-! ### The endpoints -/

/-- The first relationship of one endpoint moved on. -/
theorem run_moveFirstRelationship (hv : s.Valid) {n : Ulong} {nd : Node}
    (hn : s.graph.node n = some nd) (relId next : Ulong) :
    ∃ s', run (HF.moveFirstRelationship n relId next) s = .ok ((), s') ∧ s.SameSlots s' ∧
      s'.graph.rel = s.graph.rel ∧
      s'.graph.node = Function.update s.graph.node n (some (Graph.moveFirst relId next nd)) := by
  have hid : nd.id = n := node_id hn
  have hread : run (HF.readNodeInternal n true) s = .ok (nd, s) := run_readNode hv hn
  rw [run, HF.moveFirstRelationship, Prog.run_bind_ok _ hread, HF.when, Graph.moveFirst]
  split
  · have hl : s.Live .node n := (node_eq_some.mp hn).1
    have hl' : s.Live .node ({ nd with firstRelationship :=
        if next = relId then uninitializedLong else next } : Node).id := hid ▸ hl
    refine ⟨_, run_updateNodeInternal hv hl' true, sameSlots_setNode _, ?_, ?_⟩
    · rw [graph_setNode hl']
      rfl
    · rw [graph_setNode hl', Graph.setNode]
      simp only [hid]
  · refine ⟨s, rfl, .refl s, rfl, ?_⟩
    rw [← hn, Function.update_eq_self]

/-- The first relationships of both endpoints moved on. -/
theorem run_moveEnds (hv : s.Valid) (hs : (s.graph.node rel.sourceNode).isSome)
    (ht : (s.graph.node rel.targetNode).isSome) :
    ∃ s', run (do
        HF.moveFirstRelationship rel.sourceNode rel.id rel.nextRelSource
        HF.moveFirstRelationship rel.targetNode rel.id rel.nextRelTarget) s = .ok ((), s') ∧
      s.SameSlots s' ∧ s'.graph.rel = s.graph.rel ∧
      s'.graph.node = fun n => (s.graph.node n).map (Graph.moveEnds rel n) := by
  obtain ⟨ns, hns⟩ := Option.isSome_iff_exists.mp hs
  obtain ⟨nt, hnt⟩ := Option.isSome_iff_exists.mp ht
  obtain ⟨s₁, h₁, e₁, r₁, n₁⟩ := run_moveFirstRelationship hv hns rel.id rel.nextRelSource
  have hnode₁ : ∀ n, s₁.graph.node n = (s.graph.node n).map fun nd =>
      if n = rel.sourceNode then Graph.moveFirst rel.id rel.nextRelSource nd else nd := by
    intro n
    rw [n₁]
    by_cases h : n = rel.sourceNode
    · subst h
      rw [Function.update_self, hns, Option.map_some, if_pos rfl]
    · rw [Function.update_of_ne h]
      simp [h]
  have hnt₁ : s₁.graph.node rel.targetNode = some
      (if rel.targetNode = rel.sourceNode then Graph.moveFirst rel.id rel.nextRelSource nt
        else nt) := by
    rw [hnode₁, hnt, Option.map_some]
  obtain ⟨s₂, h₂, e₂, r₂, n₂⟩ := run_moveFirstRelationship (e₁.valid hv) hnt₁ rel.id
    rel.nextRelTarget
  refine ⟨s₂, ?_, e₁.trans e₂, r₂.trans r₁, funext fun n => ?_⟩
  · rw [run, Prog.run_bind_ok _ h₁]
    exact h₂
  · rw [n₂]
    by_cases h : n = rel.targetNode
    · subst h
      rw [Function.update_self, hnt, Option.map_some, Graph.moveEnds, if_pos rfl]
    · rw [Function.update_of_ne h, hnode₁]
      refine congrFun (congrArg Option.map (funext fun nd => ?_)) _
      rw [Graph.moveEnds, if_neg h]

/-! ### The function -/

/-- The slots of a store after the record at `id` was deleted. -/
structure Deleted (s : Store) (ft : FileType) (id : Ulong) (count : Counters → Counters)
    (s' : Store) : Prop where
  was : s.Live ft id
  live : ∀ gt x, s'.Live gt x ↔ s.Live gt x ∧ ¬ (gt = ft ∧ x = id)
  pages : s'.pages = s.pages
  counters : s'.counters = count s.counters
  valid : s'.Valid

/-- The counters after `delete_relationship`. -/
def uncountRel (id label : Ulong) (c : Counters) : Counters :=
  { c with
    log := .deleteRel id label :: c.log
    lastAllocRelId := if id < c.lastAllocRelId then id else c.lastAllocRelId
    nRels := c.nRels - 1 }

theorem graph_rel_setBits_false (hl : s.Live .relationship id) :
    (s.setBits .relationship id false).graph.node = s.graph.node ∧
      (s.setBits .relationship id false).graph.rel =
        fun y => if y = id then none else s.graph.rel y := by
  have hlive := live_setBits (s := s) false hl.1 hl.2.1
  constructor
  · funext x
    have : (s.setBits .relationship id false).Live .node x ↔ s.Live .node x := by
      rw [hlive, if_neg (by simp)]
    simp only [graph, this]
    rfl
  · funext x
    simp only [graph, hlive, true_and]
    by_cases h : x = id
    · simp [h]
    · simp only [if_neg h]
      rfl

/-- A deletion from a store with the same slots. -/
theorem Deleted.of_sameSlots {s₁ s' : Store} {ft : FileType} {count : Counters → Counters}
    (h : s.SameSlots s₁) (hD : Deleted s₁ ft id count s') : Deleted s ft id count s' where
  was := h.live.mp hD.was
  live gt x := by rw [hD.live, h.live]
  pages := hD.pages.trans h.pages
  counters := by rw [hD.counters, h.counters]
  valid := hD.valid

/-- The end of `delete_relationship`. -/
theorem run_dropRelationship (hv : s.Valid) (hl : s.Live .relationship id) (label : Ulong) :
    ∃ s', run (do
        HF.log (.deleteRel id label)
        Prog.perform (.setBits .relationship id false)
        HF.modifyCounters fun c =>
          { c with lastAllocRelId := if id < c.lastAllocRelId then id else c.lastAllocRelId
                   nRels := c.nRels - 1 }) s = .ok ((), s') ∧
      s'.graph.node = s.graph.node ∧
      s'.graph.rel = (fun y => if y = id then none else s.graph.rel y) ∧
      Deleted s .relationship id (uncountRel id label) s' := by
  set s₁ := s.setCounters { s.counters with log := .deleteRel id label :: s.counters.log }
  have hl₁ : s₁.Live .relationship id := hl
  have hv₁ : s₁.Valid := hv.setCounters hv.aligned
  obtain ⟨hgn, hgr⟩ := graph_rel_setBits_false hl₁
  refine ⟨(s₁.setBits .relationship id false).setCounters (uncountRel id label s.counters), ?_, hgn,
    hgr, hl, fun gt x => ?_, rfl, rfl, ?_⟩
  · refine (Prog.run_bind_ok _ (run_modifyCounters _ s) _).trans ?_
    exact (Prog.run_bind_ok _ (run_setBits (s := s₁) hl₁.1 hl₁.2.1 false) _).trans rfl
  · rw [setCounters_live, live_setBits (s := s₁) false hl₁.1 hl₁.2.1]
    split
    · rename_i h
      simp [h]
    · rename_i h
      simp only [h, not_false_eq_true, and_true]
      exact Iff.rfl
  · refine (Valid.setBits hv₁ hl₁.1 hl₁.2.1 false).setCounters ?_
    show (if id < s.counters.lastAllocRelId then id else s.counters.lastAllocRelId).toNat % 4 = 0
    split
    · exact hl.1
    · exact hv.aligned

/-- **`delete_relationship`**, on a store that has the records it reads. -/
theorem run_deleteRelationship (hv : s.Valid) (hr : s.graph.rel id = some rel)
    (hs : (s.graph.node rel.sourceNode).isSome) (ht : (s.graph.node rel.targetNode).isSome)
    (hnb : rel.id ≠ rel.prevRelSource → s.HasNeighbours rel) :
    ∃ s', run (HF.deleteRelationship id) s = .ok ((), s') ∧ s'.graph = s.graph.unlink rel ∧
      Deleted s .relationship id (uncountRel id rel.label) s' := by
  obtain rfl : rel.id = id := rel_id hr
  have hl := (rel_eq_some.mp hr).1
  -- the neighbours
  obtain ⟨s₁, h₁, e₁, n₁, r₁⟩ : ∃ s₁, run (HF.when (rel.id ≠ rel.prevRelSource)
      (HF.unlinkNeighbours rel)) s = .ok ((), s₁) ∧ s.SameSlots s₁ ∧
      s₁.graph.node = s.graph.node ∧
      ∀ y, s₁.graph.rel y = (s.graph.rel y).map (Graph.unlinkRel rel) := by
    by_cases he : rel.id = rel.prevRelSource
    · refine ⟨s, by rw [HF.when, if_neg (not_not.mpr he)]; rfl, .refl s, rfl, fun y => ?_⟩
      have : Graph.unlinkRel rel = fun r => r := funext fun r => if_pos he
      rw [this, Option.map_id']
    · obtain ⟨s₁, h₁, e₁, n₁, r₁⟩ := run_unlinkNeighbours hv (hnb he)
      refine ⟨s₁, by rw [HF.when, if_pos he]; exact h₁, e₁, n₁, fun y => ?_⟩
      rw [r₁]
      exact congrFun (congrArg Option.map (funext fun r => (if_neg he).symm)) _
  -- the endpoints
  obtain ⟨s₂, h₂, e₂, r₂, n₂⟩ := run_moveEnds (e₁.valid hv)
    (show (s₁.graph.node rel.sourceNode).isSome by rwa [n₁]) (by rwa [n₁])
  have e₁₂ := e₁.trans e₂
  -- the bits
  obtain ⟨s₃, h₃, n₃, r₃, hD⟩ := run_dropRelationship (e₁₂.valid hv) (e₁₂.live.mpr hl) rel.label
  refine ⟨s₃, ?_, Graph.ext ?_ ?_, hD.of_sameSlots e₁₂⟩
  · obtain ⟨u, s', h₂', h₂''⟩ := Prog.run_bind_inv _ h₂
    rw [run, HF.deleteRelationship, if_neg (hv.ne_uninitialized hl.2.1),
      Prog.run_bind_ok _ (run_readRelationship hv hr), Prog.run_bind_ok _ h₁,
      Prog.run_bind_ok _ h₂', Prog.run_bind_ok _ h₂'']
    exact h₃
  · rw [n₃, n₂, n₁]
    rfl
  · rw [r₃, r₂]
    funext y
    simp only [r₁]
    rfl

/-- In a well-formed store the pointers of a relationship lead to relationships. -/
theorem WellFormed.hasNeighbours (hw : s.WellFormed) (hr : s.graph.rel id = some rel) :
    s.HasNeighbours rel := by
  intro x hx
  obtain ⟨r, hx'⟩ := hw.graph.pointers hr x hx
  exact ⟨r, hx', hw.writable hx'⟩

/-- **`delete_relationship` on a well-formed store** takes the relationship out. -/
theorem WellFormed.run_deleteRelationship (hw : s.WellFormed) (hr : s.graph.rel id = some rel) :
    ∃ s', run (HF.deleteRelationship id) s = .ok ((), s') ∧ s'.graph = s.graph.unlink rel ∧
      Deleted s .relationship id (uncountRel id rel.label) s' := by
  obtain ⟨hs, ht⟩ := hw.graph.endpoints _ _ hr
  exact Store.run_deleteRelationship hw.valid hr (Option.isSome_iff_exists.mpr hs)
    (Option.isSome_iff_exists.mpr ht) fun _ => hw.hasNeighbours hr

theorem WellFormed.deleted (hw : s.WellFormed) (hr : s.graph.rel id = some rel) {s' : Store}
    (hg : s'.graph = s.graph.unlink rel) (hv : s'.Valid) (hgood : ¬ s.graph.LoneAtSource rel) :
    s'.WellFormed ∧ s.graph.Removes s'.graph id := by
  obtain rfl : rel.id = id := rel_id hr
  have hU : s.graph.rel uninitializedLong = none :=
    rel_eq_none.mpr (hw.valid.not_live_uninitialized _)
  obtain ⟨hw', hR⟩ := hw.graph.unlink s.keyed hr hU hgood
  refine ⟨⟨hv, fun y r hry => ?_, hg ▸ hw'⟩, hg ▸ hR⟩
  rw [hg] at hry
  have hy : y ≠ rel.id := fun e => by
    rw [e, Graph.unlink_rel_self] at hry
    cases hry
  rw [Graph.unlink_rel_of_ne hy] at hry
  obtain ⟨r', hr', rfl⟩ := Option.map_eq_some_iff.mp hry
  rw [(Graph.keeps_unlinkRel rel).weight]
  exact hw.weights y r' hr'

end Store

namespace HeapFile

variable {hf : HeapFile PhyDatabase} {id : Ulong} {rel : Relationship}

/-- Where the relationship is alone at its source only, the heap file is left broken. -/
theorem deleteRelationship_lone (hw : hf.WellFormed) (hr : hf.graph.rel id = some rel)
    (hbad : hf.graph.LoneAtSource rel) :
    ∃ hf', run (HF.deleteRelationship id) hf = .ok ((), hf') ∧ ¬ hf'.WellFormed := by
  obtain ⟨s', h, hg, hD⟩ := hw.store.run_deleteRelationship hr
  obtain ⟨hf', hrun, -, rfl⟩ := run_ok hw.good h
  refine ⟨hf', hrun, fun hw' => ?_⟩
  have hr' : (Store.of hf).graph.rel rel.id = some rel := (Store.rel_id hr).symm ▸ hr
  refine Graph.not_wellFormed_unlink hr' hw.graph hbad ?_
  rw [← hg]
  exact hw'.graph

/-- **`delete_relationship`** leaves a well-formed heap file, with the relationship gone from both
chains, exactly if it is not the only relationship at its source while its target has others. -/
theorem deleteRelationship_iff (hw : hf.WellFormed) (hr : hf.graph.rel id = some rel) :
    (∃ hf', run (HF.deleteRelationship id) hf = .ok ((), hf') ∧ hf'.WellFormed ∧
      hf.graph.Removes hf'.graph id) ↔ ¬ hf.graph.LoneAtSource rel := by
  constructor
  · rintro ⟨hf', hrun, hw', -⟩ hbad
    obtain ⟨hf'', hrun', hnot⟩ := deleteRelationship_lone hw hr hbad
    rw [hrun] at hrun'
    cases hrun'
    exact hnot hw'
  · intro hlone
    obtain ⟨s', h, hg, hD⟩ := hw.store.run_deleteRelationship hr
    obtain ⟨hf', hrun, hgood, rfl⟩ := run_ok hw.good h
    obtain ⟨hw', hR⟩ := hw.store.deleted hr hg hD.valid hlone
    exact ⟨hf', hrun, ⟨hgood, hw'⟩, hR⟩

/-- Two relationships into node 1: `0` from node 2, and `4` from node 0, which has no other. -/
def twoInto : List Creation :=
  [.node 7#64, .node 7#64, .node 7#64, .relationship 2#64 1#64 0#64 5#64,
    .relationship 0#64 1#64 0#64 5#64]

/-- The relationship `0` as it is stored. -/
def firstInto : Relationship :=
  { id := 0#64, sourceNode := 2#64, targetNode := 1#64, prevRelSource := 0#64, nextRelSource := 0#64
    prevRelTarget := 4#64, nextRelTarget := 4#64, weight := 0#64, label := 5#64 }

/-- The relationship `4` as it is stored. -/
def secondInto : Relationship :=
  { id := 4#64, sourceNode := 0#64, targetNode := 1#64, prevRelSource := 4#64, nextRelSource := 4#64
    prevRelTarget := 0#64, nextRelTarget := 0#64, weight := 0#64, label := 5#64 }

theorem exists_twoInto : ∃ db hf₀ hf, PhyDatabase.create 4096 = .ok db ∧
    create 4096 1000 (PhyDatabase.flat 4096) db = .ok hf₀ ∧
    run (HF.creations 4096 1000 twoInto) hf₀ = .ok ([0#64, 1#64, 2#64, 0#64, 4#64], hf) ∧
    hf.WellFormed ∧ hf.graph.rel 4#64 = some secondInto ∧
    hf.graph.node 1#64 = some ⟨1#64, 0#64, 7#64⟩ ∧ hf.graph.rel 0#64 = some firstInto := by
  have h : Prog.check Store.step (HF.creations 4096 1000 twoInto) Store.empty (fun ids s =>
      decide (ids = [0#64, 1#64, 2#64, 0#64, 4#64] ∧
        (s.Live .relationship 4#64 ∧ s.relAt 4#64 = secondInto) ∧
        (s.Live .node 1#64 ∧ s.nodeAt 1#64 = ⟨1#64, 0#64, 7#64⟩) ∧
        s.Live .relationship 0#64 ∧ s.relAt 0#64 = firstInto)) = true := by decide +kernel
  obtain ⟨ids, s, hrun, hp⟩ := Prog.check_inv _ h
  obtain ⟨rfl, hrel, hnode, hfirst⟩ := of_decide_eq_true hp
  obtain ⟨db, hf₀, hf, hdb, hcreate, hrun', hw, rfl⟩ := exists_created hrun
  exact ⟨db, hf₀, hf, hdb, hcreate, hrun', hw, Store.rel_eq_some.mpr hrel,
    Store.node_eq_some.mpr hnode, Store.rel_eq_some.mpr hfirst⟩

/-- The relationship `4` cannot be deleted well. -/
theorem deleteRelationship_twoInto : ∃ db hf₀ hf, PhyDatabase.create 4096 = .ok db ∧
    create 4096 1000 (PhyDatabase.flat 4096) db = .ok hf₀ ∧
    run (HF.creations 4096 1000 twoInto) hf₀ = .ok ([0#64, 1#64, 2#64, 0#64, 4#64], hf) ∧
    hf.WellFormed ∧ hf.graph.rel 4#64 = some secondInto ∧
    ¬ ∃ hf', run (HF.deleteRelationship 4#64) hf = .ok ((), hf') ∧ hf'.WellFormed ∧
      hf.graph.Removes hf'.graph 4#64 := by
  obtain ⟨db, hf₀, hf, hdb, hcreate, hrun, hw, hrel, -, -⟩ := exists_twoInto
  refine ⟨db, hf₀, hf, hdb, hcreate, hrun, hw, hrel, ?_⟩
  rintro ⟨hf', hrun', hw', -⟩
  have hbad : hf.graph.LoneAtSource secondInto :=
    (Graph.loneAtSource_iff hrel hw.graph).mpr (by decide)
  obtain ⟨hf'', hrun'', hnot⟩ := deleteRelationship_lone hw hrel hbad
  rw [hrun'] at hrun''
  cases hrun''
  exact hnot hw'

/-- Three relationships between three nodes: `0` from node 1 to node 0, `4` from node 0 to node 2, `8`
from node 1 to node 2. -/
def triangle : List Creation :=
  [.node 7#64, .node 7#64, .node 7#64, .relationship 1#64 0#64 0#64 5#64,
    .relationship 0#64 2#64 0#64 5#64, .relationship 1#64 2#64 0#64 5#64]

/-- The relationships as they are stored. -/
def triangleRels : List Relationship :=
  [{ id := 0#64, sourceNode := 1#64, targetNode := 0#64, prevRelSource := 8#64, nextRelSource := 8#64
     prevRelTarget := 4#64, nextRelTarget := 4#64, weight := 0#64, label := 5#64 },
   { id := 4#64, sourceNode := 0#64, targetNode := 2#64, prevRelSource := 0#64, nextRelSource := 0#64
     prevRelTarget := 8#64, nextRelTarget := 8#64, weight := 0#64, label := 5#64 },
   { id := 8#64, sourceNode := 1#64, targetNode := 2#64, prevRelSource := 0#64, nextRelSource := 0#64
     prevRelTarget := 4#64, nextRelTarget := 4#64, weight := 0#64, label := 5#64 }]

theorem exists_triangle : ∃ hf : HeapFile PhyDatabase, hf.WellFormed ∧
    triangleRels.Forall (fun r => hf.graph.rel r.id = some r) ∧
    hf.graph.node 0#64 = some ⟨0#64, 0#64, 7#64⟩ ∧
    hf.graph.Chain 0#64 0#64 [0#64, 4#64] ∧ hf.graph.Chain 2#64 4#64 [4#64, 8#64] := by
  have h : Prog.check Store.step (HF.creations 4096 1000 triangle) Store.empty (fun _ s =>
      decide ((∀ r ∈ triangleRels, s.Live .relationship r.id ∧ s.relAt r.id = r) ∧
        (s.Live .node 0#64 ∧ s.nodeAt 0#64 = ⟨0#64, 0#64, 7#64⟩) ∧
        s.Live .node 2#64 ∧ s.nodeAt 2#64 = ⟨2#64, 4#64, 7#64⟩)) = true := by decide +kernel
  obtain ⟨ids, s, hrun, hp⟩ := Prog.check_inv _ h
  obtain ⟨hrels, hn₀, hn₂⟩ := of_decide_eq_true hp
  obtain ⟨-, -, hf, -, -, -, hw, rfl⟩ := exists_created hrun
  have hstored : triangleRels.Forall fun r => hf.graph.rel r.id = some r :=
    List.forall_iff_forall_mem.mpr fun r hr => Store.rel_eq_some.mpr (hrels r hr)
  obtain ⟨h₀, h₄, h₈⟩ := hstored
  replace hn₀ : hf.graph.node 0#64 = some _ := Store.node_eq_some.mpr hn₀
  replace hn₂ : hf.graph.node 2#64 = some _ := Store.node_eq_some.mpr hn₂
  obtain ⟨l₀, hc₀⟩ := hw.graph.chain _ _ hn₀
  obtain ⟨l₂, hc₂⟩ := hw.graph.chain _ _ hn₂
  have hr₀ : Lib.Round (hf.graph.next 0#64) [0#64, 4#64] := by
    simp [Lib.Round.cons_iff, Graph.next_of_rel h₀, Graph.next_of_rel h₄, Relationship.nextAt]
  have hr₂ : Lib.Round (hf.graph.next 2#64) [4#64, 8#64] := by
    simp [Lib.Round.cons_iff, Graph.next_of_rel h₄, Graph.next_of_rel h₈, Relationship.nextAt]
  exact ⟨hf, hw, ⟨h₀, h₄, h₈⟩, hn₀, hc₀.eq_of_round (by decide) hr₀ (by decide) ▸ hc₀,
    hc₂.eq_of_round (by decide) hr₂ (by decide) ▸ hc₂⟩

/-- Of two relationships at both of its ends one is deleted well. -/
theorem deleteRelationship_iff_triangle : ∃ (hf : HeapFile PhyDatabase) (rel : Relationship),
    hf.WellFormed ∧ hf.graph.rel 4#64 = some rel ∧
    hf.graph.Chain 0#64 0#64 [0#64, 4#64] ∧ hf.graph.Chain 2#64 4#64 [4#64, 8#64] ∧
    ∃ hf', run (HF.deleteRelationship 4#64) hf = .ok ((), hf') ∧ hf'.WellFormed ∧
      hf.graph.Removes hf'.graph 4#64 := by
  obtain ⟨hf, hw, ⟨-, h₄, -⟩, -, hc₀, hc₂⟩ := exists_triangle
  refine ⟨hf, _, hw, h₄, hc₀, hc₂, (deleteRelationship_iff hw h₄).mpr fun hbad => ?_⟩
  exact absurd ((Graph.loneAtSource_iff h₄ hw.graph).mp hbad).1 (by decide)

end HeapFile

end Goedb
