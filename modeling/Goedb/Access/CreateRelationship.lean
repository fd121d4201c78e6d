import Goedb.Access.Objects
import Goedb.Access.StoreRefinement

/-!
# Access — creating nodes and relationships

What `create_node` and `create_relationship` do to a well-formed store: the one adds a node without
relationships, the other links a new relationship in at the end of the chains of its endpoints.

* `Store.run_createRelationship`: on the store, the graph is linked (`Graph.link`), whatever the
  aliases among the first and the last relationships of the two chains.
* `HeapFile.createRelationship_wellFormed`: on the pages, a well-formed heap file stays well-formed,
  every relationship keeps what it says, and the new one is the last of both chains.
-/

namespace Goedb

open Lib

namespace Store

/-- A store whose records form a well-formed graph.  No relationship has the null weight, which
`update_relationship_internal` refuses to write. -/
structure WellFormed (s : Store) : Prop where
  valid : s.Valid
  weights : ∀ x r, s.graph.rel x = some r → r.weight ≠ uninitializedWeight
  graph : s.graph.WellFormed

variable {s s₁ : Store} {ft : FileType} {id : Ulong}

/-! ### The graph while a record is being created -/

theorem Allocated.graph_node (h : Allocated s .relationship id s₁) :
    s₁.graph.node = s.graph.node := by
  funext x
  have hl : s₁.Live .node x ↔ s.Live .node x := by rw [h.live]; simp
  simp only [graph, hl, nodeAt, h.word]

theorem Allocated.graph_rel (h : Allocated s .node id s₁) : s₁.graph.rel = s.graph.rel := by
  funext x
  have hl : s₁.Live .relationship x ↔ s.Live .relationship x := by rw [h.live]; simp
  simp only [graph, hl, relAt, h.word]

theorem Allocated.graph_rel_of_ne {x : Ulong} (h : Allocated s .relationship id s₁) (hx : x ≠ id) :
    s₁.graph.rel x = s.graph.rel x := by
  have hl : s₁.Live .relationship x ↔ s.Live .relationship x := by rw [h.live]; simp [hx]
  simp only [graph, hl, relAt, h.word]

theorem Allocated.graph_node_of_ne {x : Ulong} (h : Allocated s .node id s₁) (hx : x ≠ id) :
    s₁.graph.node x = s.graph.node x := by
  have hl : s₁.Live .node x ↔ s.Live .node x := by rw [h.live]; simp [hx]
  simp only [graph, hl, nodeAt, h.word]

theorem WellFormed.writable (hw : s.WellFormed) {x : Ulong} {r : Relationship}
    (h : s.graph.rel x = some r) : Writable r := by
  obtain ⟨⟨nd, hs⟩, nd', ht⟩ := hw.graph.endpoints x r h
  exact ⟨hw.valid.ne_uninitialized (node_eq_some.mp hs).1.2.1,
    hw.valid.ne_uninitialized (node_eq_some.mp ht).1.2.1, hw.weights x r h⟩

theorem keyed (s : Store) : s.graph.Keyed := fun _ _ h => rel_id h

end Store

namespace Graph.Chain

variable {g : Graph} {n first : Ulong} {l : List Ulong}

/-- The first relationship of a chain and the last one before it are there. -/
theorem ends_rel (hc : g.Chain n first l) (h : first ≠ uninitializedLong) :
    ∃ r r', g.rel first = some r ∧ g.rel (r.prevAt n) = some r' ∧ g.prev n first = r.prevAt n := by
  have hne : l ≠ [] := fun hl => h (hc.first_eq_iff.mpr hl)
  have hmem : first ∈ l := by
    rw [hc.first_eq]
    exact headD_mem _ hne
  obtain ⟨r, hr, ha⟩ := (hc.mem first).mp hmem
  obtain ⟨r', hr', -⟩ := (hc.mem _).mp (hc.prev_mem hr ha)
  exact ⟨r, r', hr, hr', prev_of_rel hr⟩

end Graph.Chain

namespace Store

/-! ### The ends of the two chains -/

section Ends

variable {s s₁ : Store} {rel : Relationship} {o : Objs} {ps : List Obj} {n first : Ulong}
  {l : List Ulong}

/-- The relationships that can be held while `rel` is linked in. -/
def known (s : Store) (rel : Relationship) : Ulong → Option Relationship :=
  Function.update s.graph.rel rel.id (some rel)

theorem known_of_rel {x : Ulong} {r : Relationship} (hx : s.graph.rel rel.id = none)
    (h : s.graph.rel x = some r) : s.known rel x = some r := by
  rw [known, Function.update_of_ne (Graph.ne_of_rel hx h), h]

/-- The first and the last relationship of a chain are held, whichever of them are held already. -/
theorem run_chainEnds (hA : Allocated s .relationship rel.id s₁) (hc : s.graph.Chain n first l)
    (hU : first ≠ uninitializedLong) (hL : Loads (s.known rel) o ps) (f₁ f₂ : Obj) (hf₁ : f₁ ∉ ps)
    (hf₂ : f₂ ∉ ps) (hf : f₁ ≠ f₂) (cs : List (Ulong × Obj))
    (cs' : Objs → Obj → List (Ulong × Obj))
    (hcs : ∀ c ∈ cs, c.2 ∈ ps ∧ (o c.2).id = c.1)
    (hcover : ∀ p ∈ ps, (o p).id ≠ rel.id → ∃ c ∈ cs, c.1 = (o p).id)
    (hcs' : ∀ o' p, (∀ q ∈ ps, o' q = o q) → cs' o' p = cs ++ [(first, p)]) :
    ∃ o₁ p₁ o₂ p₂, run (HF.loadOr o first f₁ cs) s₁ = .ok ((o₁, p₁), s₁) ∧
      run (HF.loadOr o₁ ((o₁ p₁).prevAt n) f₂ (cs' o₁ p₁)) s₁ = .ok ((o₂, p₂), s₁) ∧
      Loads (s.known rel) o₂ (p₂ :: p₁ :: ps) ∧ (o₂ p₁).id = (s.graph.endsOf rel.id n first).1 ∧
      (o₂ p₂).id = (s.graph.endsOf rel.id n first).2 ∧ (∀ q ∈ ps, o₂ q = o q) ∧
      (p₁ ∈ ps ∨ p₁ = f₁) ∧ (p₂ ∈ ps ∨ p₂ = f₁ ∨ p₂ = f₂) := by
  have hx : s.graph.rel rel.id = none := rel_eq_none.mpr hA.fresh
  obtain ⟨r, r', hr, hr', hprev⟩ := hc.ends_rel hU
  have hfirst := Graph.ne_of_rel hx hr
  have hlast := Graph.ne_of_rel hx hr'
  -- a record that is held already is not read again, so each id is held once
  obtain ⟨o₁, p₁, h₁, hL₁, hid₁, hkeep₁, hp₁⟩ := run_loadOr hA.valid hL (f := f₁)
    ((hA.graph_rel_of_ne hfirst).trans hr) (known_of_rel hx hr) hf₁ cs hcs
    fun p hp he => he ▸ hcover p hp (he ▸ hfirst)
  have hheld : o₁ p₁ = r := by
    have := hL₁.known p₁ (List.mem_cons_self ..)
    rw [hid₁, known_of_rel hx hr] at this
    exact (Option.some.inj this).symm
  have hf₂' : f₂ ∉ p₁ :: ps := by
    intro h
    rcases List.mem_cons.mp h with rfl | h
    · rcases hp₁ with h | h
      · exact hf₂ h
      · exact hf h.symm
    · exact hf₂ h
  obtain ⟨o₂, p₂, h₂, hL₂, hid₂, hkeep₂, hp₂⟩ := run_loadOr hA.valid hL₁ (f := f₂)
    ((hA.graph_rel_of_ne hlast).trans hr') (known_of_rel hx hr') hf₂' (cs ++ [(first, p₁)])
    (by
      intro c hc
      rcases List.mem_append.mp hc with hc | hc
      · obtain ⟨hp, he⟩ := hcs c hc
        exact ⟨List.mem_cons_of_mem _ hp, by rw [hkeep₁ _ hp, he]⟩
      · rw [List.mem_singleton.mp hc]
        exact ⟨List.mem_cons_self .., hid₁⟩)
    (by
      intro p hp he
      rcases List.mem_cons.mp hp with rfl | hp
      · exact ⟨(first, p), by simp, hid₁.symm.trans he⟩
      · rw [hkeep₁ p hp] at he
        obtain ⟨c, hc, hce⟩ := hcover p hp (he ▸ hlast)
        exact ⟨c, List.mem_append_left _ hc, hce.trans he⟩)
  refine ⟨o₁, p₁, o₂, p₂, h₁, ?_, hL₂, ?_, ?_, fun q hq => ?_, hp₁, ?_⟩
  · rw [hcs' o₁ p₁ hkeep₁, hheld]
    exact h₂
  · rw [hkeep₂ p₁ (List.mem_cons_self ..), hid₁, Graph.endsOf, if_neg hU]
  · rw [hid₂, Graph.endsOf, if_neg hU, hprev]
  · rw [hkeep₂ q (List.mem_cons_of_mem _ hq), hkeep₁ q hq]
  · rcases hp₂ with h | h
    · rcases List.mem_cons.mp h with h | h
      · rw [h]
        exact hp₁.imp_right .inl
      · exact .inl h
    · exact .inr (.inr h)

theorem run_sourceChainEnds (hA : Allocated s .relationship rel.id s₁) {nf : Node}
    (hid : nf.id = rel.sourceNode)
    (hc : s.graph.Chain rel.sourceNode nf.firstRelationship l) :
    ∃ o ff lf, run (HF.sourceChainEnds nf fun _ => rel) s₁ = .ok ((o, ff, lf), s₁) ∧
      Loads (s.known rel) o [lf, ff, .rel] ∧
      (o ff).id = (s.graph.endsOf rel.id rel.sourceNode nf.firstRelationship).1 ∧
      (o lf).id = (s.graph.endsOf rel.id rel.sourceNode nf.firstRelationship).2 ∧
      o .rel = rel ∧ .third ∉ [lf, ff, .rel] ∧ .fourth ∉ [lf, ff, .rel] := by
  have hL : Loads (s.known rel) (fun _ => rel) [.rel] := by
    refine ⟨fun p _ => Function.update_self .., fun p hp q hq _ => ?_⟩
    rw [List.mem_singleton.mp hp, List.mem_singleton.mp hq]
  rw [run, HF.sourceChainEnds]
  by_cases hU : nf.firstRelationship = uninitializedLong
  · rw [if_pos hU]
    refine ⟨fun _ => rel, .rel, .rel, rfl, ?_, ?_, ?_, rfl, by decide, by decide⟩
    · exact (hL.cons_of_mem (by simp)).cons_of_mem (by simp)
    · rw [Graph.endsOf, if_pos hU]
    · rw [Graph.endsOf, if_pos hU]
  · obtain ⟨o₁, p₁, o₂, p₂, h₁, h₂, hL₂, hid₁, hid₂, hkeep, hp₁, hp₂⟩ := run_chainEnds hA hc hU hL
      .first .second (by decide) (by decide) (by decide) []
      (fun _ p => [(nf.firstRelationship, p)]) (by simp) (by simp) (fun _ _ _ => rfl)
    rw [← hid] at h₂
    refine ⟨o₂, p₁, p₂, ?_, hL₂, hid₁, hid₂, hkeep .rel (by simp), ?_, ?_⟩
    · rw [if_neg hU, Prog.run_bind_ok _ h₁, Prog.run_bind_ok _ h₂]
      rfl
    all_goals
      simp only [List.mem_singleton] at hp₁ hp₂
      rcases hp₁ with rfl | rfl <;> rcases hp₂ with rfl | rfl | rfl <;> decide

theorem run_targetChainEnds (hA : Allocated s .relationship rel.id s₁) {nt : Node}
    (hid : nt.id = rel.targetNode)
    (hc : s.graph.Chain rel.targetNode nt.firstRelationship l) {ff lf : Obj}
    (hL : Loads (s.known rel) o [lf, ff, .rel]) (hrel : o .rel = rel)
    (h₃ : .third ∉ [lf, ff, .rel]) (h₄ : .fourth ∉ [lf, ff, .rel]) :
    ∃ o' ft lt, run (HF.targetChainEnds nt o ff lf) s₁ = .ok ((o', ft, lt), s₁) ∧
      Loads (s.known rel) o' [lt, ft, lf, ff, .rel] ∧
      (o' ft).id = (s.graph.endsOf rel.id rel.targetNode nt.firstRelationship).1 ∧
      (o' lt).id = (s.graph.endsOf rel.id rel.targetNode nt.firstRelationship).2 ∧
      ∀ q ∈ [lf, ff, .rel], o' q = o q := by
  rw [run, HF.targetChainEnds]
  by_cases hU : nt.firstRelationship = uninitializedLong
  · rw [if_pos hU]
    refine ⟨o, .rel, .rel, rfl, ?_, ?_, ?_, fun _ _ => rfl⟩
    · exact (hL.cons_of_mem (by simp)).cons_of_mem (by simp)
    · rw [Graph.endsOf, if_pos hU, hrel]
    · rw [Graph.endsOf, if_pos hU, hrel]
  · obtain ⟨o₁, p₁, o₂, p₂, h₁, h₂, hL₂, hid₁, hid₂, hkeep, -, -⟩ := run_chainEnds hA hc hU hL
      .third .fourth h₃ h₄ (by decide) [((o ff).id, ff), ((o lf).id, lf)]
      (fun o p => [((o ff).id, ff), ((o lf).id, lf), (nt.firstRelationship, p)])
      (by simp) (by
        intro p hp hne
        simp only [List.mem_cons, List.not_mem_nil, or_false] at hp
        rcases hp with rfl | rfl | rfl
        · exact ⟨((o p).id, p), by simp, rfl⟩
        · exact ⟨((o p).id, p), by simp, rfl⟩
        · exact absurd (congrArg Relationship.id hrel) hne)
      (fun o' p hk => by rw [hk ff (by simp), hk lf (by simp)]; rfl)
    rw [← hid] at h₂
    refine ⟨o₂, p₁, p₂, ?_, hL₂, hid₁, hid₂, hkeep⟩
    rw [if_neg hU, Prog.run_bind_ok _ h₁, Prog.run_bind_ok _ h₂]
    rfl

end Ends

/-! ### Writing the records -/

section Write

variable {s s₁ : Store} {rel : Relationship} {nf nt : Node}

/-- `first_relationship` set where the chain was empty, for one endpoint. -/
theorem run_setFirstRelationship (hv : s.Valid) {n : Ulong} (hid : nf.id = n)
    (h : s.Live .node n) (relId : Ulong) :
    ∃ s', run (HF.setFirstRelationship nf relId) s = .ok ((), s') ∧ s.SameSlots s' ∧
      s'.graph.rel = s.graph.rel ∧
      s'.graph.node = if nf.firstRelationship = uninitializedLong then
        Function.update s.graph.node n (some { nf with firstRelationship := relId })
        else s.graph.node := by
  subst hid
  rw [run, HF.setFirstRelationship, HF.when]
  split
  · have hl : s.Live .node ({ nf with firstRelationship := relId } : Node).id := h
    refine ⟨_, run_updateNodeInternal hv hl true, sameSlots_setNode _, ?_, ?_⟩
    · rw [graph_setNode hl]
      rfl
    · rw [graph_setNode hl]
      rfl
  · exact ⟨s, rfl, .refl s, rfl, rfl⟩

/-- The nodes once `first_relationship` is set at both endpoints. -/
theorem link_node_eq {g : Graph} {node : Ulong → Option Node}
    (hnf : g.node rel.sourceNode = some nf) (hnt : g.node rel.targetNode = some nt)
    (hnode : node = if nf.firstRelationship = uninitializedLong then
      Function.update g.node rel.sourceNode (some { nf with firstRelationship := rel.id })
      else g.node) :
    (if nt.firstRelationship = uninitializedLong then
      Function.update node rel.targetNode (some { nt with firstRelationship := rel.id })
      else node) = (g.link rel nf.firstRelationship nt.firstRelationship).node := by
  funext n
  have hlink : (g.link rel nf.firstRelationship nt.firstRelationship).node n =
      (g.node n).map fun nd => if nd.firstRelationship = uninitializedLong ∧ rel.At n then
        { nd with firstRelationship := rel.id } else nd := rfl
  have hnode' : node n = (g.node n).map fun nd =>
      if nd.firstRelationship = uninitializedLong ∧ rel.sourceNode = n then
        { nd with firstRelationship := rel.id } else nd := by
    rw [hnode]
    by_cases hn : n = rel.sourceNode
    · subst hn
      rw [hnf]
      split <;> simp_all
    · have : rel.sourceNode ≠ n := Ne.symm hn
      split <;> simp [Function.update_of_ne hn, this]
  rw [hlink]
  by_cases hn : n = rel.targetNode
  · subst hn
    have ha : rel.At rel.targetNode := .inr rfl
    split
    · rename_i h
      rw [Function.update_self, hnt]
      simp [h, ha]
    · rename_i h
      rw [hnode', hnt]
      simp [h]
  · have hne : rel.targetNode ≠ n := Ne.symm hn
    have ha : rel.At n ↔ rel.sourceNode = n := by simp [Relationship.At, hne]
    have : ∀ m : Ulong → Option Node, (if nt.firstRelationship = uninitializedLong then
        Function.update m rel.targetNode (some { nt with firstRelationship := rel.id })
        else m) n = m n := by
      intro m
      split
      · exact Function.update_of_ne hn _ _
      · rfl
    rw [this, hnode']
    simp only [ha]

/-- The pointer assignments of `create_relationship`, by ids. -/
theorem linkNew_eq {o : Objs} {ps : List Obj} (h : o.Apart ps) {ff lf ft lt q : Obj}
    (hff : ff ∈ ps) (hlf : lf ∈ ps) (hft : ft ∈ ps) (hlt : lt ∈ ps) (hq : q ∈ ps)
    (fromId toId : Ulong) :
    HF.linkNew fromId toId ff lf ft lt o q =
      Relationship.relink fromId toId (o lf).id (o .rel).id (o lt).id (o .rel).id (o ff).id
        (o .rel).id (o ft).id (o .rel).id
        (if q = .rel then { o .rel with
          prevRelSource := (o lf).id, nextRelSource := (o ff).id
          prevRelTarget := (o lt).id, nextRelTarget := (o ft).id } else o q) := by
  set f : Relationship → Relationship := fun r => { r with
    prevRelSource := (o lf).id, nextRelSource := (o ff).id
    prevRelTarget := (o lt).id, nextRelTarget := (o ft).id } with hf
  have hid : ∀ r, (f r).id = r.id := fun _ => rfl
  have hown : o.modify .rel f q = if q = .rel then f (o .rel) else o q := by
    unfold Objs.modify
    rw [Function.update_apply]
  have := (h.modify hid .rel).relink_eq hlf hlt hff hft hq fromId toId (o .rel).id (o .rel).id
    (o .rel).id (o .rel).id
  simp only [Objs.modify_id hid] at this
  rw [hown] at this
  exact this

/-- What is stored once `create_relationship` has written back: the graph is linked. -/
theorem run_store (hw : s.WellFormed) (hA : Allocated s .relationship rel.id s₁)
    (hrel : Writable rel) (hnf : s.graph.node rel.sourceNode = some nf)
    (hnt : s.graph.node rel.targetNode = some nt) {o : Objs} {ff lf ft lt : Obj}
    (hL : Loads (s.known rel) o [lt, ft, lf, ff, .rel]) (ho : o .rel = rel)
    (hff : (o ff).id = (s.graph.endsOf rel.id rel.sourceNode nf.firstRelationship).1)
    (hlf : (o lf).id = (s.graph.endsOf rel.id rel.sourceNode nf.firstRelationship).2)
    (hft : (o ft).id = (s.graph.endsOf rel.id rel.targetNode nt.firstRelationship).1)
    (hlt : (o lt).id = (s.graph.endsOf rel.id rel.targetNode nt.firstRelationship).2) :
    ∃ s', run (do
        HF.setFirstRelationship nf rel.id
        HF.setFirstRelationship nt rel.id
        let o := HF.linkNew rel.sourceNode rel.targetNode ff lf ft lt o
        HF.writeBack o ff lf ft lt
        HF.updateRelationshipInternal (o .rel) false) s₁ = .ok ((), s') ∧ s₁.SameSlots s' ∧
      s'.graph = s.graph.link rel nf.firstRelationship nt.firstRelationship := by
  set g := s.graph with hg
  set F := g.relinkNew rel nf.firstRelationship nt.firstRelationship
  have hx : g.rel rel.id = none := rel_eq_none.mpr hA.fresh
  have hnfid : nf.id = rel.sourceNode := node_id hnf
  have hntid : nt.id = rel.targetNode := node_id hnt
  have hlive : ∀ {n nd}, g.node n = some nd → s₁.Live .node n := fun h =>
    (hA.live _ _).mpr (.inl (node_eq_some.mp h).1)
  -- what the pointers hold after the assignments
  set o' := HF.linkNew rel.sourceNode rel.targetNode ff lf ft lt o with ho'
  have hmem : ∀ {q}, q ∈ [ff, lf, ft, lt] → q ∈ [lt, ft, lf, ff, .rel] := by
    intro q hq
    simp only [List.mem_cons, List.not_mem_nil, or_false] at hq ⊢
    tauto
  have hobj : ∀ q ∈ [lt, ft, lf, ff, .rel], o' q = F (if q = .rel then
      g.withEnds rel nf.firstRelationship nt.firstRelationship else o q) := by
    intro q hq
    rw [ho', linkNew_eq hL.apart (by simp) (by simp) (by simp) (by simp) hq, ho, hff, hlf, hft, hlt]
    rfl
  have hid : ∀ q ∈ [lt, ft, lf, ff, .rel], (o' q).id = (o q).id := by
    intro q hq
    rw [hobj q hq, Graph.keeps_relinkNew.id]
    split
    · rename_i h
      rw [h, ho]
      rfl
    · rfl
  have hself : o' .rel = F (g.withEnds rel nf.firstRelationship nt.firstRelationship) := by
    rw [hobj .rel (by simp), if_pos rfl]
  have hselfid : (o' .rel).id = rel.id := by rw [hid .rel (by simp), ho]
  have happ : o'.Apart [ff, lf, ft, lt] :=
    hL.apart.of_id (fun _ => hmem) fun q hq => hid q (hmem hq)
  -- the nodes
  obtain ⟨s₂, h₂, e₂, r₂, n₂⟩ := run_setFirstRelationship hA.valid hnfid (hlive hnf) rel.id
  obtain ⟨s₃, h₃, e₃, r₃, n₃⟩ := run_setFirstRelationship (e₂.valid hA.valid) hntid
    (e₂.live.mpr (hlive hnt)) rel.id
  have e₁₃ := e₂.trans e₃
  have r₁₃ : ∀ {y}, y ≠ rel.id → s₃.graph.rel y = g.rel y := fun hy => by
    rw [r₃, r₂, hA.graph_rel_of_ne hy]
  -- the relationships that were held
  obtain ⟨s₄, h₄, e₄, n₄, r₄⟩ := run_writeBack_map (o := o') (a := ff) (b := lf) (c := ft) (d := lt)
    (F := F) (K := (· = rel.id)) (e₁₃.valid hA.valid) Graph.keeps_relinkNew happ
    (fun p hp hne => by
      have hk := hL.known p (hmem hp)
      have hpid : (o p).id ≠ rel.id := fun e =>
        hne (hL.apart p (hmem hp) .rel (by simp) (e.trans (congrArg _ ho).symm))
      rw [known, Function.update_of_ne hpid] at hk
      exact ⟨o p, by rw [hid p (hmem hp), r₁₃ hpid, hk], by rw [hobj p (hmem hp), if_neg hne],
        hw.writable hk⟩)
    (fun y r hr hy hnot => by
      rw [r₁₃ hy] at hr
      have hne : ∀ q ∈ [ff, lf, ft, lt], r.id ≠ (o q).id := by
        intro q hq he
        rw [s.keyed y r hr] at he
        by_cases hqr : q = .rel
        · rw [hqr, ho] at he
          exact hy he
        · exact hnot q hq hqr (by rw [hid q (hmem hq), he])
      exact Relationship.relink_of_ne (hlf ▸ hne lf (by simp)) (hlt ▸ hne lt (by simp))
        (hff ▸ hne ff (by simp)) (hft ▸ hne ft (by simp)))
  have e₁₄ := e₁₃.trans e₄
  -- the new one
  have hl₅ : s₄.Live .relationship (o' .rel).id := by
    rw [hselfid]
    exact e₁₄.live.mpr hA.live_self
  have hwr : Writable (o' .rel) := by
    rw [hself]
    exact ⟨by rw [Graph.keeps_relinkNew.sourceNode]; exact hrel.1,
      by rw [Graph.keeps_relinkNew.targetNode]; exact hrel.2.1,
      by rw [Graph.keeps_relinkNew.weight]; exact hrel.2.2⟩
  have h₅ := run_updateRelationshipInternal (e₁₄.valid hA.valid) hl₅ hwr false
  refine ⟨s₄.setRel (o' .rel), ?_, e₁₄.trans (sameSlots_setRel _), ?_⟩
  · rw [run, Prog.run_bind_ok _ h₂, Prog.run_bind_ok _ h₃, Prog.run_bind_ok _ h₄]
    exact h₅
  · rw [graph_setRel hl₅]
    refine Graph.ext ?_ (funext fun y => ?_)
    · show s₄.graph.node = _
      rw [n₄, n₃]
      exact link_node_eq hnf hnt (n₂.trans (by rw [hA.graph_node]))
    · show Function.update s₄.graph.rel (o' .rel).id (some (o' .rel)) y = _
      rw [hselfid, hself]
      by_cases hy : y = rel.id
      · subst hy
        rw [Function.update_self, Graph.link_rel_self]
      · rw [Function.update_of_ne hy, Graph.link_rel_of_ne hy, r₄ y hy, r₁₃ hy]

end Write

/-! ### The two functions -/

section Create

variable {s : Store} {nf nt : Node} {fromId toId weight label : Ulong}

/-- The relationship before it is linked in. -/
def relOf (id fromId toId : Ulong) (weight : Double) (label : Ulong) : Relationship :=
  { newRelationship with
    id := id, sourceNode := fromId, targetNode := toId, weight := weight, label := label }

/-- The slots of a store after a record was created at `id`, the first free ones. -/
structure Created (s : Store) (ft : FileType) (id : Ulong) (count : Counters → Counters)
    (s' : Store) : Prop where
  allocated : ∃ s₁, Allocated s ft id s₁ ∧ s'.pages = s₁.pages ∧ s'.bit = s₁.bit ∧
    s'.counters = count s₁.counters
  first : ∃ o, s.FirstFree ft (s.counters.lastAlloc ft).toNat o ∧ id = o.getD (s.endId ft)

/-- The reasons for which no slot is found. -/
def Exhausted (s : Store) (ft : FileType) (fuel : ℕ) : Prop :=
  fuel ≤ s.pages ft * 256 ∨ maxPageNo 4096 ≤ s.pages ft + 1

theorem NoSlot.exhausted {ft : FileType} {fuel : ℕ} (h : s.NoSlot ft fuel) :
    s.Exhausted ft fuel := by
  rcases h with h | ⟨h, -⟩
  · exact .inl h
  · exact .inr h

/-- The counters after `create_relationship`. -/
def countRel (id label : Ulong) (c : Counters) : Counters :=
  { c with log := .createRel id label :: c.log, nRels := c.nRels + 1 }

/-- The counters after `create_node`. -/
def countNode (id label : Ulong) (c : Counters) : Counters :=
  { c with log := .createNode id label :: c.log, nNodes := c.nNodes + 1 }

theorem Created.valid {s' : Store} {ft : FileType} {id : Ulong} {count : Counters → Counters}
    (h : Created s ft id count s') (hc : ∀ c, (count c).lastAllocRelId = c.lastAllocRelId) :
    s'.Valid := by
  obtain ⟨s₁, hA, hp, hb, hcs⟩ := h.allocated
  exact ⟨hp ▸ hA.valid.pages_lt, hp ▸ hb ▸ hA.valid.bit_beyond,
    by rw [hcs, hc]; exact hA.valid.aligned⟩

theorem Created.fresh {s' : Store} {ft : FileType} {id : Ulong} {count : Counters → Counters}
    (h : Created s ft id count s') : ¬ s.Live ft id := by
  obtain ⟨s₁, hA, -⟩ := h.allocated
  exact hA.fresh

theorem Created.live {s' : Store} {ft : FileType} {id : Ulong} {count : Counters → Counters}
    (h : Created s ft id count s') (gt : FileType) (x : Ulong) :
    s'.Live gt x ↔ s.Live gt x ∨ gt = ft ∧ x = id := by
  obtain ⟨s₁, hA, hp, hb, -⟩ := h.allocated
  rw [← hA.live]
  simp only [Live, isUsed, hp, hb]

/-- **`create_relationship`** between two nodes that are there, on a well-formed store. -/
theorem run_createRelationship (hw : s.WellFormed) (hnf : s.graph.node fromId = some nf)
    (hnt : s.graph.node toId = some nt) (hwt : weight ≠ uninitializedWeight) (fuel : ℕ)
    (label : Ulong) :
    (∃ e, run (HF.createRelationship 4096 fuel fromId toId weight label) s = .error e ∧
        s.NoSlot .relationship fuel) ∨
      ∃ id s', run (HF.createRelationship 4096 fuel fromId toId weight label) s = .ok (id, s') ∧
        Created s .relationship id (countRel id label) s' ∧
        s'.graph = s.graph.link (relOf id fromId toId weight label) nf.firstRelationship
          nt.firstRelationship := by
  have hfrom := hw.valid.ne_uninitialized (node_eq_some.mp hnf).1.2.1
  have hto := hw.valid.ne_uninitialized (node_eq_some.mp hnt).1.2.1
  have hargs : ¬ (fromId = uninitializedLong ∨ toId = uninitializedLong ∨
      weight = uninitializedWeight) := by tauto
  rw [run, HF.createRelationship, if_neg hargs]
  rcases run_nextFreeSlots hw.valid fuel .relationship with ⟨e, he, hr⟩ | ⟨c, s₁, h₁, hfree, hA⟩
  · exact .inl ⟨e, Prog.run_bind_error _ he _, hr⟩
  · set id := c.getD (s.endId .relationship) with hid
    have hlast : s₁.counters.lastAllocRelId = id := by rw [hA.counters]; rfl
    have hget : run (Prog.perform .getCounters) s₁ = .ok (s₁.counters, s₁) := rfl
    set rel := relOf id fromId toId weight label with hrel
    have hA' : Allocated s .relationship rel.id s₁ := hA
    obtain ⟨lF, hF⟩ := hw.graph.chain _ _ hnf
    obtain ⟨lT, hT⟩ := hw.graph.chain _ _ hnt
    obtain ⟨o₁, ff, lf, he₁, hL₁, hff, hlf, ho₁, hn₃, hn₄⟩ := run_sourceChainEnds hA'
      (node_id hnf) hF
    obtain ⟨o₂, ft, lt, he₂, hL₂, hft, hlt, hkeep⟩ := run_targetChainEnds hA' (node_id hnt) hT hL₁
      ho₁ hn₃ hn₄
    obtain ⟨s', hs', hsame, hgraph⟩ := run_store hw hA' ⟨hfrom, hto, hwt⟩ hnf hnt hL₂
      (by rw [hkeep .rel (by simp), ho₁]) (by rw [hkeep ff (by simp), hff])
      (by rw [hkeep lf (by simp), hlf]) hft hlt
    refine .inr ⟨id, s'.setCounters (countRel id label s'.counters), ?_, ⟨⟨s₁, hA, ?_⟩, c, hfree, hid⟩,
      hgraph⟩
    · rw [Prog.run_bind_ok _ h₁, Prog.run_bind_ok _ hget, hlast,
        Prog.run_bind_ok _ (run_readNode hA.valid (hA.graph_node ▸ hnf)),
        Prog.run_bind_ok _ (run_readNode hA.valid (hA.graph_node ▸ hnt))]
      refine (Prog.run_bind_ok _ he₁ _).trans ?_
      rw [Prog.run_bind_ok _ he₂]
      obtain ⟨u₂, s₂, h₂, hs'⟩ := Prog.run_bind_inv _ hs'
      obtain ⟨u₃, s₃, h₃, hs'⟩ := Prog.run_bind_inv _ hs'
      obtain ⟨u₄, s₄, h₄, h₅⟩ := Prog.run_bind_inv _ hs'
      refine (Prog.run_bind_ok _ h₂ _).trans ((Prog.run_bind_ok _ h₃ _).trans
        ((Prog.run_bind_ok _ h₄ _).trans ((Prog.run_bind_ok _ h₅ _).trans ?_)))
      rfl
    · exact ⟨hsame.pages, hsame.bit, by rw [← hsame.counters]; rfl⟩

/-- `create_relationship` returns only between nodes that are there, with a weight. -/
theorem createRelationship_inv (hv : s.Valid) {fuel : ℕ} {id : Ulong} {s' : Store}
    (h : run (HF.createRelationship 4096 fuel fromId toId weight label) s = .ok (id, s')) :
    (∃ nd, s.graph.node fromId = some nd) ∧ (∃ nd, s.graph.node toId = some nd) ∧
      weight ≠ uninitializedWeight := by
  rw [run, HF.createRelationship] at h
  split at h
  · cases h
  · rename_i hargs
    obtain ⟨u, s₁, h₁, h⟩ := Prog.run_bind_inv _ h
    obtain ⟨c, s₂, hc, h⟩ := Prog.run_bind_inv _ h
    cases hc
    obtain ⟨nf, s₂, hnf, h⟩ := Prog.run_bind_inv _ h
    rcases run_nextFreeSlots hv fuel .relationship with ⟨e, he, -⟩ | ⟨c, s₁', h₁', -, hA⟩
    · rw [run, h₁] at he
      cases he
    · rw [run, h₁] at h₁'
      cases h₁'
      obtain ⟨hnf, rfl⟩ := readNode_inv hA.valid hnf
      obtain ⟨nt, s₃, hnt, -⟩ := Prog.run_bind_inv _ h
      obtain ⟨hnt, -⟩ := readNode_inv hA.valid hnt
      rw [hA.graph_node] at hnf hnt
      exact ⟨⟨nf, hnf⟩, ⟨nt, hnt⟩, fun e => hargs (.inr (.inr e))⟩

/-- **`create_node`** adds a node without relationships. -/
theorem run_createNode (hv : s.Valid) (fuel : ℕ) (label : Ulong) :
    (∃ e, run (HF.createNode 4096 fuel label) s = .error e ∧ s.NoSlot .node fuel) ∨
      ∃ id s', run (HF.createNode 4096 fuel label) s = .ok (id, s') ∧
        Created s .node id (countNode id label) s' ∧
        s'.graph = s.graph.setNode { newNode with id := id, label := label } := by
  rw [run, HF.createNode]
  rcases run_nextFreeSlots hv fuel .node with ⟨e, he, hr⟩ | ⟨c, s₁, h₁, hfree, hA⟩
  · exact .inl ⟨e, Prog.run_bind_error _ he _, hr⟩
  · set id := c.getD (s.endId .node) with hid
    have hlast : s₁.counters.lastAllocNodeId = id := by rw [hA.counters]; rfl
    have hget : run (Prog.perform .getCounters) s₁ = .ok (s₁.counters, s₁) := rfl
    set nd : Node := { newNode with id := id, label := label }
    have hl : s₁.Live .node nd.id := hA.live_self
    refine .inr ⟨id, (s₁.setNode nd).setCounters (countNode id label s₁.counters), ?_,
      ⟨⟨s₁, hA, rfl, rfl, rfl⟩, c, hfree, hid⟩, ?_⟩
    · rw [Prog.run_bind_ok _ h₁, Prog.run_bind_ok _ hget, hlast,
        Prog.run_bind_ok _ (run_updateNodeInternal hA.valid hl false)]
      rfl
    · rw [graph_setCounters, graph_setNode hl]
      refine Graph.ext (funext fun x => ?_) hA.graph_rel
      simp only [Graph.setNode]
      by_cases hx : x = nd.id
      · rw [hx, Function.update_self, Function.update_self]
      · rw [Function.update_of_ne hx, Function.update_of_ne hx]
        exact hA.graph_node_of_ne hx

end Create

end Store

end Goedb
