import Goedb.Order.ReorderRecords

/-!
# Order — `swap_nodes`

On a well-formed heap file `swap_nodes` returns, and it exchanges the two nodes.  It renames the
endpoints of their relationships only where the second one exists, so it is the renaming of the two
ids unless the first node exists alone and has relationships.

* `Store.run_swapNodes`: what the function does.
* `HeapFile.swapNodes_iff`: when it is the renaming.
-/

namespace Goedb

open Lib

theorem renameEndpoints_eq (fst snd : Ulong) :
    HF.renameEndpoints fst snd = Relationship.rename (Equiv.swap fst snd) 1 := by
  funext r
  simp only [HF.renameEndpoints, Relationship.rename, exchange_eq_swap]
  rfl

theorem Relationship.equals_id {r r' : Relationship} (h : r.equals r' = true) : r.id = r'.id := by
  simp only [equals, Bool.and_eq_true, beq_iff_eq] at h
  exact h.1.1.1.1.1.1.1

theorem goes_both {n : Ulong} {r : Relationship} : r.Goes n .both ↔ r.At n := by
  simp [Relationship.Goes, Relationship.At]

/-! ### The relationships of both nodes -/

theorem mem_addMissing {r : Relationship} {rest : List Relationship} : ∀ {rels : List Relationship},
    r ∈ HF.addMissing rels rest → r ∈ rels ∨ r ∈ rest := by
  induction rest with
  | nil =>
      intro rels h
      exact .inl h
  | cons a rest ih =>
      intro rels h
      rcases ih h with h' | h'
      · split at h'
        · exact .inl h'
        · rcases List.mem_append.mp h' with h'' | h''
          · exact .inl h''
          · exact .inr (List.mem_cons.mpr (.inl (List.mem_singleton.mp h'')))
      · exact .inr (List.mem_cons_of_mem a h')

/-- No relationship is missing afterwards. -/
theorem exists_mem_addMissing {y : Ulong} {rest : List Relationship} :
    ∀ {rels : List Relationship}, (∃ r ∈ rels, r.id = y) ∨ (∃ r ∈ rest, r.id = y) →
      ∃ r ∈ HF.addMissing rels rest, r.id = y := by
  induction rest with
  | nil =>
      rintro rels (h | ⟨r, hr, -⟩)
      · exact h
      · cases hr
  | cons a rest ih =>
      intro rels h
      refine ih ?_
      rcases h with ⟨r, hr, hy⟩ | ⟨r, hr, hy⟩
      · left
        split
        · exact ⟨r, hr, hy⟩
        · exact ⟨r, List.mem_append_left _ hr, hy⟩
      · rcases List.mem_cons.mp hr with rfl | hr'
        · left
          split
          · rename_i hany
            obtain ⟨r', hr', he⟩ := List.any_eq_true.mp hany
            exact ⟨r', hr', (Relationship.equals_id he).trans hy⟩
          · exact ⟨r, by simp, hy⟩
        · exact .inr ⟨r, hr', hy⟩

namespace Store

variable {s : Store} {fst snd : Ulong}

/-- The relationships that `expand` returns in both directions are those at the node. -/
theorem mem_expand_both {n first : Ulong} {l : List Ulong} (hc : s.graph.Chain n first l)
    {r : Relationship} : r ∈ s.graph.expand n .both l ↔ s.graph.rel r.id = some r ∧ r.At n := by
  rw [hc.walk.mem_expand s.keyed, goes_both]

/-- The loop over the relationships: those of the list are renamed. -/
theorem run_updateEndpoints (fst snd : Ulong) {g : Graph} (rels : List Relationship) : ∀ {s : Store}, s.Valid →
    (∀ r ∈ rels, g.rel r.id = some r ∧ s.Live .relationship r.id ∧
      Writable (HF.renameEndpoints fst snd r)) →
    ∃ s', run (HF.updateEndpoints fst snd rels) s = .ok ((), s') ∧ s.SameSlots s' ∧
      s'.graph.node = s.graph.node ∧ ∀ y, s'.graph.rel y =
        if ∃ r ∈ rels, r.id = y then (g.rel y).map (HF.renameEndpoints fst snd)
        else s.graph.rel y := by
  induction rels with
  | nil =>
      intro s _ _
      exact ⟨s, rfl, .refl s, rfl, fun y => by simp⟩
  | cons r rels ih =>
      intro s hv hrels
      obtain ⟨hr, hl, hwr⟩ := hrels r List.mem_cons_self
      have hl' : s.Live .relationship (HF.renameEndpoints fst snd r).id := hl
      obtain ⟨s', hrun, hsame, hnode, hrel⟩ := ih (hv.setRel (HF.renameEndpoints fst snd r))
        fun r' hr' => hrels r' (List.mem_cons_of_mem r hr')
      refine ⟨s', ?_, (sameSlots_setRel _).trans hsame, ?_, fun y => ?_⟩
      · rw [run, HF.updateEndpoints, Prog.run_bind_ok _ (run_updateRelationship hv hl' hwr)]
        exact hrun
      · rw [hnode, graph_setRel hl']
        rfl
      · rw [hrel, graph_setRel hl']
        simp only [List.mem_cons, exists_eq_or_imp, Graph.setRel]
        by_cases hy : ∃ r' ∈ rels, r'.id = y
        · rw [if_pos hy, if_pos (.inr hy)]
        · rw [if_neg hy]
          by_cases he : r.id = y
          · subst he
            rw [if_pos (.inl rfl), hr]
            exact Function.update_self ..
          · rw [if_neg (not_or.mpr ⟨he, hy⟩)]
            exact Function.update_of_ne (Ne.symm he) _ _

/-- A chain is not longer than its file. -/
theorem length_le_of_chain {n first : Ulong} {l : List Ulong} (hc : s.graph.Chain n first l) :
    l.length ≤ s.pages .relationship * 256 := by
  have hd : (l.map BitVec.toNat).Nodup := hc.nodup.map fun _ _ e => BitVec.eq_of_toNat_eq e
  have hsub : l.map BitVec.toNat ⊆ List.range (s.pages .relationship * 256) := by
    intro j hj
    obtain ⟨x, hx, rfl⟩ := List.mem_map.mp hj
    obtain ⟨r, hr, -⟩ := (hc.mem x).mp hx
    have := (rel_eq_some.mp hr).1.2.1
    exact List.mem_range.mpr (by omega)
  simpa using (hd.subperm hsub).length_le

section Expand

variable (hw : s.WellFormed) {fuel : ℕ} (hfuel : s.pages .relationship * 256 < fuel)
include hw hfuel

theorem run_expand_both {n : Ulong} {nd : Node} (hn : s.graph.node n = some nd) :
    ∃ rels, run (HF.expand fuel n .both) s = .ok (rels, s) ∧
      ∀ r, r ∈ rels ↔ s.graph.rel r.id = some r ∧ r.At n := by
  obtain ⟨l, hc⟩ := hw.graph.chain n nd hn
  exact ⟨_, run_expand hw.valid hn hc.walk .both (Nat.lt_of_le_of_lt (length_le_of_chain hc) hfuel),
    fun r => mem_expand_both hc⟩

/-- The relationships of the first node; none if there is no such node. -/
theorem run_expand_onlyIf (n : Ulong) :
    ∃ rels, run (HF.onlyIf (decide (s.Live .node n)) (HF.expand fuel n .both)) s = .ok (rels, s) ∧
      ∀ r, r ∈ rels.getD [] ↔ s.graph.rel r.id = some r ∧ r.At n := by
  by_cases hl : s.Live .node n
  · obtain ⟨nd, hn⟩ := Option.isSome_iff_exists.mp (isSome_node.mpr hl)
    obtain ⟨rels, hrun, hmem⟩ := run_expand_both hw hfuel hn
    exact ⟨some rels, (run_onlyIf hrun _).trans (by simp [hl]), hmem⟩
  · refine ⟨none, by rw [decide_eq_false hl]; rfl, fun r => ?_⟩
    refine iff_of_false List.not_mem_nil ?_
    rintro ⟨hr, ha⟩
    have hnone : s.graph.node n = none := node_eq_none.mpr hl
    obtain ⟨⟨nd₁, h₁⟩, nd₂, h₂⟩ := hw.graph.endpoints _ _ hr
    rcases ha with rfl | rfl
    · rw [hnone] at h₁
      cases h₁
    · rw [hnone] at h₂
      cases h₂

/-- The relationships of both nodes renamed, where the second one exists. -/
theorem run_renameRels {rels : List Relationship} (hv : fst ≠ uninitializedLong)
    (hrels : ∀ r, r ∈ rels ↔ s.graph.rel r.id = some r ∧ r.At fst) {nd : Node}
    (hn : s.graph.node snd = some nd) :
    ∃ s', run (do
        let relsSnd ← HF.expand fuel snd .both
        HF.updateEndpoints fst snd (HF.addMissing rels relsSnd)) s = .ok ((), s') ∧
      s.SameSlots s' ∧ s'.graph.node = s.graph.node ∧
      ∀ y, s'.graph.rel y = (s.graph.rel y).map (Relationship.rename (Equiv.swap fst snd) 1) := by
  have hsnd := hw.valid.ne_uninitialized (node_eq_some.mp hn).1.2.1
  obtain ⟨relsSnd, hrun, hmem⟩ := run_expand_both hw hfuel hn
  have hall : ∀ r ∈ HF.addMissing rels relsSnd, s.graph.rel r.id = some r := by
    intro r hr
    rcases mem_addMissing hr with h | h
    · exact ((hrels r).mp h).1
    · exact ((hmem r).mp h).1
  have hne : ∀ {id}, id ≠ uninitializedLong → exchange fst snd id ≠ uninitializedLong := by
    intro id hid
    rw [exchange]
    split_ifs
    · exact hsnd
    · exact hv
    · exact hid
  obtain ⟨s', hrun', hsame, hnode, hrel⟩ := run_updateEndpoints fst snd
    (HF.addMissing rels relsSnd) hw.valid (g := s.graph) fun r hr => by
      obtain ⟨h₁, h₂, h₃⟩ := hw.writable (hall r hr)
      exact ⟨hall r hr, (rel_eq_some.mp (hall r hr)).1, hne h₁, hne h₂, h₃⟩
  refine ⟨s', (Prog.run_bind_ok _ hrun _).trans hrun', hsame, hnode, fun y => ?_⟩
  rw [hrel, renameEndpoints_eq]
  split
  · rfl
  · -- a relationship that was not renamed joins neither node
    rename_i hnot
    cases hy : s.graph.rel y with
    | none => rfl
    | some r =>
        have hid : r.id = y := rel_id hy
        have hat : ∀ n, r.At n → n ≠ fst ∧ n ≠ snd := by
          intro n ha
          constructor
          · rintro rfl
            exact hnot (exists_mem_addMissing (.inl ⟨r, (hrels r).mpr ⟨by rwa [hid], ha⟩, hid⟩))
          · rintro rfl
            exact hnot (exists_mem_addMissing (.inr ⟨r, (hmem r).mpr ⟨by rwa [hid], ha⟩, hid⟩))
        have h₁ := hat _ (.inl rfl)
        have h₂ := hat _ (.inr rfl)
        simp only [Option.map_some, Relationship.rename, Equiv.swap_apply_of_ne_of_ne h₁.1 h₁.2,
          Equiv.swap_apply_of_ne_of_ne h₂.1 h₂.2]
        rfl

end Expand

/-! ### The nodes -/

/-- A node under another id. -/
def nodeAtId (id : Ulong) (nd : Node) : Node := { nd with id := id }

theorem run_moveNode (id : Ulong) (o : Option Node) (hv : s.Valid)
    (hl : o.isSome → s.Live .node id) :
    ∃ s', run (HF.moveNode id o) s = .ok ((), s') ∧ s.SameSlots s' ∧
      s'.graph.rel = s.graph.rel ∧ s'.graph.node = moved nodeAtId s.graph.node id o := by
  cases o with
  | none => exact ⟨s, rfl, .refl s, rfl, rfl⟩
  | some nd =>
      have hl' : s.Live .node (nodeAtId id nd).id := hl rfl
      refine ⟨s.setNode (nodeAtId id nd), run_updateNode hv hl', sameSlots_setNode _, ?_, ?_⟩
      · rw [graph_setNode hl']
        rfl
      · rw [graph_setNode hl']
        rfl

/-- The bits and the nodes of the two slots exchanged. -/
theorem run_moveNodes (hv : s.Valid) (hp : fst.toNat / 256 < s.pages .node)
    (hq : snd.toNat / 256 < s.pages .node) (hne : fst ≠ snd) :
    ∃ s', run (do
        HF.swapBits .node fst snd (decide (s.Live .node fst)) (decide (s.Live .node snd))
        HF.moveNode snd (s.graph.node fst)
        HF.moveNode fst (s.graph.node snd)) s = .ok ((), s') ∧
      s'.Valid ∧ s'.pages = s.pages ∧ s'.counters = s.counters ∧
      (∀ gt x, s'.Live gt x ↔ s.Live gt (if gt = .node then exchange fst snd x else x)) ∧
      s'.graph.rel = s.graph.rel ∧
      s'.graph.node = (s.graph.rename (Equiv.swap fst snd) 1).node := by
  obtain ⟨s₁, h₁, hB⟩ := run_swapBits .node hv (Nat.mod_one _) (Nat.mod_one _) hp hq hne
  obtain ⟨s₂, h₂, e₂, r₂, n₂⟩ := run_moveNode snd (s.graph.node fst) hB.valid
    fun h => hB.live_of_live_fst (isSome_node.mp h)
  obtain ⟨s₃, h₃, e₃, r₃, n₃⟩ := run_moveNode fst (s.graph.node snd)
    (e₂.valid hB.valid) fun h => e₂.live.mpr (hB.live_of_live_snd (isSome_node.mp h))
  have hsame := e₂.trans e₃
  refine ⟨s₃, (Prog.run_bind_ok _ h₁ _).trans ((Prog.run_bind_ok _ h₂ _).trans h₃),
    hsame.valid hB.valid, hsame.pages.trans hB.pages, hsame.counters.trans hB.counters,
    fun gt x => by rw [hsame.live, hB.live], ?_, ?_⟩
  · rw [r₃, r₂]
    funext x
    refine graph_rel_congr hB.word ?_
    rw [hB.live, if_neg (by decide)]
  · funext x
    have hother : ∀ x, x ≠ fst → x ≠ snd → s₁.graph.node x = s.graph.node x := by
      intro x hx₁ hx₂
      refine graph_node_congr hB.word ?_
      rw [hB.live, if_pos rfl, exchange_of_ne hx₁ hx₂]
    have hsome : ∀ x, (s₁.graph.node x).isSome ↔ (s.graph.node (exchange fst snd x)).isSome := by
      intro x
      rw [isSome_node, isSome_node, hB.live, if_pos rfl]
    rw [n₃, n₂, moved_moved nodeAtId hne hother hsome (fun x nd hx => ?_)]
    · rw [exchange_eq_swap]
      simp only [Graph.rename, Equiv.symm_swap]
      cases hx : s.graph.node (Equiv.swap fst snd x) with
      | none => rfl
      | some nd =>
          have hid : Equiv.swap fst snd nd.id = x := by
            rw [node_id hx, Equiv.swap_apply_self]
          simp only [Option.map_some, nodeAtId, Node.rename, hid]
          rfl
    · rw [← node_id hx]
      rfl

/-! ### The function -/

/-- The renaming of two ids that no record has is none. -/
theorem WellFormed.rename_nodes_of_not_live (hw : s.WellFormed)
    (h : fst = snd ∨ ¬ s.Live .node fst ∧ ¬ s.Live .node snd) :
    s.graph.rename (Equiv.swap fst snd) 1 = s.graph :=
  hw.graph.rename_eq_self rfl s.keyed (fun _ _ hn => node_id hn)
    (fun _ hn => swap_apply_of_live h (isSome_node.mp hn)) fun _ _ => rfl

/-- The nodes as the function reads them, after the relationships were renamed. -/
theorem run_readNode_onlyIf (hv : s.Valid) (n : Ulong) :
    run (HF.onlyIf (decide (s.Live .node n)) (HF.readNode n)) s = .ok (s.graph.node n, s) := by
  by_cases hl : s.Live .node n
  · obtain ⟨nd, hn⟩ := Option.isSome_iff_exists.mp (isSome_node.mpr hl)
    rw [run_onlyIf (run_readNode hv hn), decide_eq_true hl, hn]
    rfl
  · rw [decide_eq_false hl, node_eq_none.mpr hl]
    rfl

/-- The relationships as they are before the nodes move. -/
theorem run_renameRels_when (snd : Ulong) (hw : s.WellFormed) (hv : fst ≠ uninitializedLong)
    {rels : List Relationship} (hrels : ∀ r, r ∈ rels ↔ s.graph.rel r.id = some r ∧ r.At fst)
    {fuel : ℕ} (hfuel : s.pages .relationship * 256 < fuel) :
    ∃ s', run (HF.when (decide (s.Live .node snd) = true) do
        let relsSnd ← HF.expand fuel snd .both
        HF.updateEndpoints fst snd (HF.addMissing rels relsSnd)) s = .ok ((), s') ∧
      s.SameSlots s' ∧ s'.graph.node = s.graph.node ∧
      s'.graph.rel = if s.Live .node snd then (s.graph.rename (Equiv.swap fst snd) 1).rel
        else s.graph.rel := by
  by_cases hl : s.Live .node snd
  · obtain ⟨nd, hn⟩ := Option.isSome_iff_exists.mp (isSome_node.mpr hl)
    obtain ⟨s', hrun, hsame, hnode, hrel⟩ := run_renameRels hw hfuel hv hrels hn
    rw [HF.when, if_pos (decide_eq_true hl), if_pos hl]
    exact ⟨s', hrun, hsame, hnode, funext hrel⟩
  · rw [HF.when, if_neg (by simpa using hl), if_neg hl]
    exact ⟨s, rfl, .refl s, rfl, rfl⟩

/-- **`swap_nodes`** exchanges the nodes of the two slots.  It renames the relationships unless only
the first slot holds a node. -/
theorem run_swapNodes (hw : s.WellFormed) (hp : fst.toNat / 256 < s.pages .node)
    (hq : snd.toNat / 256 < s.pages .node) {fuel : ℕ}
    (hfuel : s.pages .relationship * 256 < fuel) :
    ∃ s', run (HF.swapNodes 4096 fuel fst snd) s = .ok ((), s') ∧ s.Exchanged .node fst snd s' ∧
      s'.graph.node = (s.graph.rename (Equiv.swap fst snd) 1).node ∧
      s'.graph.rel = if s.Live .node fst ∧ ¬ s.Live .node snd then s.graph.rel
        else (s.graph.rename (Equiv.swap fst snd) 1).rel := by
  have hv := hw.valid
  have hnum : run (Prog.perform (.numPages .node)) s = .ok (s.pages .node, s) := rfl
  have hacc : HF.SwapAccepts 4096 .node (s.pages .node) fst ∧
      HF.SwapAccepts 4096 .node (s.pages .node) snd :=
    ⟨(swapAccepts_iff .node hv).mpr ⟨hp, Nat.mod_lt _ (by decide)⟩,
      (swapAccepts_iff .node hv).mpr ⟨hq, Nat.mod_lt _ (by decide)⟩⟩
  have hf₁ : run (HF.checkRecordExists .node fst) s = _ := run_checkRecordExists hv hp
  have hf₂ : run (HF.checkRecordExists .node snd) s = _ := run_checkRecordExists hv hq
  rw [run, HF.swapNodes, Prog.run_bind_ok _ hnum, if_neg (not_not.mpr hacc),
    Prog.run_bind_ok _ hf₁, Prog.run_bind_ok _ hf₂]
  by_cases htriv : fst = snd ∨ ¬ s.Live .node fst ∧ ¬ s.Live .node snd
  · rw [if_pos (by simpa using htriv), hw.rename_nodes_of_not_live htriv]
    exact ⟨s, rfl, exchanged_refl hv htriv, rfl, by split <;> rfl⟩
  · rw [if_neg (by simpa using htriv)]
    rw [not_or, not_and_or, not_not, not_not] at htriv
    obtain ⟨hne, hone⟩ := htriv
    -- the endpoints are renamed only if `snd` exists, whether `fst` does or not
    obtain ⟨rels, h₁, hrels⟩ := run_expand_onlyIf hw hfuel fst
    obtain ⟨s₁, h₂, e₁, n₁, r₁⟩ := run_renameRels_when snd hw hacc.1.1 hrels hfuel
    have hv₁ := e₁.valid hv
    have h₃ := run_readNode_onlyIf hv₁ fst
    have h₄ := run_readNode_onlyIf hv₁ snd
    simp only [e₁.live] at h₃ h₄
    set e : LogEntry := .swapNodes fst (((s₁.graph.node fst).map Node.label).getD uninitializedLong)
      snd (((s₁.graph.node snd).map Node.label).getD uninitializedLong)
    set s₂ := s₁.setCounters { s₁.counters with log := e :: s₁.counters.log } with hs₂
    have h₅ : run (HF.log e) s₁ = .ok ((), s₂) := rfl
    have hv₂ : s₂.Valid := hv₁.setCounters hv₁.aligned
    have hp₂ : fst.toNat / 256 < s₂.pages .node := by
      show _ < s₁.pages .node
      rwa [e₁.pages]
    have hq₂ : snd.toNat / 256 < s₂.pages .node := by
      show _ < s₁.pages .node
      rwa [e₁.pages]
    obtain ⟨s₃, h₆, hv₃, p₃, c₃, l₃, r₃, n₃⟩ := run_moveNodes hv₂ hp₂ hq₂ hne
    have hlive : ∀ gt x, s₂.Live gt x ↔ s.Live gt x := fun gt x => e₁.live
    simp only [hlive] at h₆
    refine ⟨s₃, ?_, ⟨hv₃, p₃.trans e₁.pages, fun gt x => by rw [l₃, hlive], ?_⟩, ?_, ?_⟩
    · rw [Prog.run_bind_ok _ h₁, Prog.run_bind_ok _ h₂, Prog.run_bind_ok _ h₃,
        Prog.run_bind_ok _ h₄, Prog.run_bind_ok _ h₅]
      exact h₆
    · rw [c₃, hs₂, ← e₁.counters]
      rfl
    · rw [n₃]
      simp only [Graph.rename]
      funext x
      rw [show s₂.graph.node = s.graph.node from n₁]
    · rw [r₃, show s₂.graph.rel = s₁.graph.rel from rfl, r₁]
      by_cases hl : s.Live .node snd
      · rw [if_pos hl, if_neg fun h => h.2 hl]
      · rw [if_neg hl, if_pos ⟨hone.resolve_right hl, hl⟩]

/-- The renaming of two ids at which no relationship is leaves the relationships as they are. -/
theorem rename_rel_of_not_at
    (h : ∀ x r, s.graph.rel x = some r → ¬ r.At fst ∧ ¬ r.At snd) :
    (s.graph.rename (Equiv.swap fst snd) 1).rel = s.graph.rel := by
  funext x
  show (s.graph.rel x).map _ = _
  cases hx : s.graph.rel x with
  | none => rfl
  | some r =>
      obtain ⟨h₁, h₂⟩ := h x r hx
      rw [Relationship.At, not_or] at h₁ h₂
      simp only [Option.map_some, Relationship.rename, Equiv.swap_apply_of_ne_of_ne h₁.1 h₂.1,
        Equiv.swap_apply_of_ne_of_ne h₁.2 h₂.2]
      rfl

/-- A node that has a first relationship has a relationship. -/
theorem WellFormed.exists_at (hw : s.WellFormed) {n : Ulong} {nd : Node}
    (hn : s.graph.node n = some nd) :
    nd.firstRelationship ≠ uninitializedLong ↔ ∃ x r, s.graph.rel x = some r ∧ r.At n := by
  obtain ⟨l, hc⟩ := hw.graph.chain n nd hn
  rw [Ne, hc.first_eq_iff]
  refine Iff.trans ⟨List.exists_mem_of_ne_nil l, ?_⟩ (exists_congr hc.mem)
  rintro ⟨x, hx⟩
  exact List.ne_nil_of_mem hx

theorem WellFormed.not_at_of_not_live (hw : s.WellFormed) {n x : Ulong} {r : Relationship}
    (hn : ¬ s.Live .node n) (hr : s.graph.rel x = some r) : ¬ r.At n := by
  have hnone := node_eq_none.mpr hn
  obtain ⟨⟨nd₁, h₁⟩, nd₂, h₂⟩ := hw.graph.endpoints x r hr
  rintro (rfl | rfl)
  · rw [hnone] at h₁
    cases h₁
  · rw [hnone] at h₂
    cases h₂

theorem WellFormed.rename (hw : s.WellFormed) {s' : Store} (hv : s'.Valid) {τ σ : Renaming}
    (hU : σ uninitializedLong = uninitializedLong) (hg : s'.graph = s.graph.rename τ σ) :
    s'.WellFormed := by
  refine ⟨hv, fun x r hr => ?_, hg ▸ hw.graph.rename hU⟩
  rw [hg] at hr
  obtain ⟨y, r', -, rfl, hr'⟩ := Graph.rename_rel_eq_some hr
  exact hw.weights y r' hr'

end Store

/-! ### The heap file -/

namespace HeapFile

/-- `hf'` is the well-formed heap file `hf` with two ids of nodes exchanged everywhere. -/
structure NodesSwapped (hf hf' : HeapFile PhyDatabase) (fst snd : Ulong) : Prop where
  wellFormed : hf'.WellFormed
  slots : (Store.of hf).Exchanged .node fst snd (Store.of hf')
  graph : hf'.graph = hf.graph.rename (Equiv.swap fst snd) 1

/-- The first slot holds a node with relationships and the second one is empty. -/
def Strands (hf : HeapFile PhyDatabase) (fst snd : Ulong) : Prop :=
  hf.graph.node snd = none ∧
    ∃ nd, hf.graph.node fst = some nd ∧ nd.firstRelationship ≠ uninitializedLong

variable {hf : HeapFile PhyDatabase} {fst snd : Ulong} {fuel : ℕ}

theorem swapNodes_run (hw : hf.WellFormed)
    (hfst : HF.SwapAccepts 4096 .node (hf.cache.records .node).numPages fst)
    (hsnd : HF.SwapAccepts 4096 .node (hf.cache.records .node).numPages snd)
    (hfuel : (hf.cache.records .relationship).numPages * 256 < fuel) :
    ∃ hf', run (HF.swapNodes 4096 fuel fst snd) hf = .ok ((), hf') ∧ hf'.Good ∧
      (Store.of hf).Exchanged .node fst snd (Store.of hf') ∧
      hf'.graph.node = (hf.graph.rename (Equiv.swap fst snd) 1).node ∧
      hf'.graph.rel = if (Store.of hf).Live .node fst ∧ ¬ (Store.of hf).Live .node snd
        then hf.graph.rel else (hf.graph.rename (Equiv.swap fst snd) 1).rel := by
  have hv := hw.store.valid
  have hp := ((Store.swapAccepts_iff .node hv).mp hfst).1
  have hq := ((Store.swapAccepts_iff .node hv).mp hsnd).1
  obtain ⟨s', hrun, hE, hn, hr⟩ := Store.run_swapNodes hw.store hp hq hfuel
  obtain ⟨hf', hrun', hg, rfl⟩ := run_ok hw.good hrun
  exact ⟨hf', hrun', hg, hE, hn, hr⟩

/-- Where the first slot alone holds a node with relationships, these keep their endpoint. -/
theorem not_nodesSwapped (hw : hf.WellFormed) (hs : hf.Strands fst snd)
    {hf' : HeapFile PhyDatabase} (hrel : hf'.graph.rel = hf.graph.rel) :
    ¬ NodesSwapped hf hf' fst snd := by
  intro h
  obtain ⟨hsnd, nd, hn, hfirst⟩ := hs
  obtain ⟨x, r, hr, ha⟩ := (hw.store.exists_at hn).mp hfirst
  have hne : fst ≠ snd := by
    rintro rfl
    rw [hn] at hsnd
    cases hsnd
  have he : some r = some (r.rename (Equiv.swap fst snd) 1) := by
    have hr' : hf.graph.rel x = some r := hr
    rw [← hr', ← hrel, h.graph]
    show (hf.graph.rel x).map _ = _
    rw [hr']
    rfl
  have he' := Option.some.inj he
  rcases ha with ha | ha
  · have := congrArg Relationship.sourceNode he'
    simp only [Relationship.rename, ha, Equiv.swap_apply_left] at this
    exact hne this
  · have := congrArg Relationship.targetNode he'
    simp only [Relationship.rename, ha, Equiv.swap_apply_left] at this
    exact hne this

/-- **`swap_nodes` is a renaming** of the two ids exactly if it does not strand the relationships of
the first node. -/
theorem swapNodes_iff (hw : hf.WellFormed)
    (hfst : HF.SwapAccepts 4096 .node (hf.cache.records .node).numPages fst)
    (hsnd : HF.SwapAccepts 4096 .node (hf.cache.records .node).numPages snd)
    (hfuel : (hf.cache.records .relationship).numPages * 256 < fuel) :
    ∃ hf', run (HF.swapNodes 4096 fuel fst snd) hf = .ok ((), hf') ∧
      (NodesSwapped hf hf' fst snd ↔ ¬ hf.Strands fst snd) := by
  obtain ⟨hf', hrun, hg, hE, hnode, hrel⟩ := swapNodes_run hw hfst hsnd hfuel
  refine ⟨hf', hrun, ?_, fun hs => ?_⟩
  · intro h hs
    have ⟨hnone, nd, hn, _⟩ := hs
    have hl : (Store.of hf).Live .node fst ∧ ¬ (Store.of hf).Live .node snd :=
      ⟨(Store.node_eq_some.mp hn).1, Store.node_eq_none.mp hnone⟩
    rw [if_pos hl] at hrel
    exact not_nodesSwapped hw hs hrel h
  · have hgraph : hf'.graph = hf.graph.rename (Equiv.swap fst snd) 1 := by
      refine Graph.ext hnode ?_
      rw [hrel]
      split
      · rename_i hl
        obtain ⟨nd, hn⟩ := Option.isSome_iff_exists.mp (Store.isSome_node.mpr hl.1)
        refine (Store.rename_rel_of_not_at fun x r hr => ⟨fun ha => hs ?_, ?_⟩).symm
        · exact ⟨Store.node_eq_none.mpr hl.2, nd, hn, (hw.store.exists_at hn).mpr ⟨x, r, hr, ha⟩⟩
        · exact hw.store.not_at_of_not_live hl.2 hr
      · rfl
    exact ⟨⟨hg, hw.store.rename hE.valid rfl hgraph⟩, hE, hgraph⟩

/-- A node and a self-loop at it are created; the node is exchanged with the empty slot after it.
The self-loop still joins the slot that is empty now. -/
theorem swapNodes_selfLoop : ∃ db hf₀ hf hf', PhyDatabase.create 4096 = .ok db ∧
    create 4096 1000 (PhyDatabase.flat 4096) db = .ok hf₀ ∧
    run (HF.creations 4096 1000 [.node 7#64, .relationship 0#64 0#64 0#64 5#64]) hf₀ =
      .ok ([0#64, 0#64], hf) ∧
    hf.WellFormed ∧ HF.SwapAccepts 4096 .node (hf.cache.records .node).numPages 0#64 ∧
    HF.SwapAccepts 4096 .node (hf.cache.records .node).numPages 1#64 ∧
    run (HF.swapNodes 4096 1000 0#64 1#64) hf = .ok ((), hf') ∧
    ¬ NodesSwapped hf hf' 0#64 1#64 := by
  have h : Prog.check Store.step
      (HF.creations 4096 1000 [.node 7#64, .relationship 0#64 0#64 0#64 5#64]) Store.empty
      (fun ids s => decide (ids = [0#64, 0#64] ∧ s.pages .node = 1 ∧ s.pages .relationship = 1 ∧
        s.Live .node 0#64 ∧ ¬ s.Live .node 1#64 ∧
        (s.nodeAt 0#64).firstRelationship ≠ uninitializedLong)) = true := by
    decide +kernel
  obtain ⟨ids, s, hrun, hp⟩ := Prog.check_inv _ h
  obtain ⟨rfl, hpn, hpr, hl₀, hl₁, hfirst⟩ := of_decide_eq_true hp
  obtain ⟨db, hf₀, hf, hdb, hcreate, hrun', hw, rfl⟩ := exists_created hrun
  have hacc : ∀ id : Ulong, id.toNat < 256 →
      HF.SwapAccepts 4096 .node (hf.cache.records .node).numPages id := fun id hid =>
    (Store.swapAccepts_iff .node hw.store.valid).mpr
      ⟨by rw [hpn, Nat.div_eq_of_lt hid]; exact Nat.one_pos, Nat.mod_lt _ (by decide)⟩
  have hfuel : (hf.cache.records .relationship).numPages * 256 < 1000 := by
    rw [show (hf.cache.records .relationship).numPages = 1 from hpr]
    decide
  obtain ⟨hf', hswap, -, -, -, hrel⟩ := swapNodes_run hw (hacc 0#64 (by decide))
    (hacc 1#64 (by decide)) hfuel
  rw [if_pos ⟨hl₀, hl₁⟩] at hrel
  have hs : hf.Strands 0#64 1#64 :=
    ⟨Store.node_eq_none.mpr hl₁, _, Store.node_eq_some.mpr ⟨hl₀, rfl⟩, hfirst⟩
  exact ⟨db, hf₀, hf, hf', hdb, hcreate, hrun', hw, hacc _ (by decide), hacc _ (by decide), hswap,
    not_nodesSwapped hw hs hrel⟩

/-- Two nodes with a relationship are exchanged well. -/
theorem swapNodes_iff_pair : ∃ hf hf', hf.WellFormed ∧
    run (HF.swapNodes 4096 1000 0#64 1#64) hf = .ok ((), hf') ∧ NodesSwapped hf hf' 0#64 1#64 := by
  have h : Prog.check Store.step (HF.creations 4096 1000
      [.node 7#64, .node 8#64, .relationship 0#64 1#64 0#64 5#64]) Store.empty
      (fun _ s => decide (s.pages .node = 1 ∧ s.pages .relationship = 1 ∧
        s.Live .node 1#64)) = true := by
    decide +kernel
  obtain ⟨ids, s, hrun, hp⟩ := Prog.check_inv _ h
  obtain ⟨hpn, hpr, hl⟩ := of_decide_eq_true hp
  obtain ⟨-, -, hf, -, -, -, hw, rfl⟩ := exists_created hrun
  have hacc : ∀ id : Ulong, id.toNat < 256 →
      HF.SwapAccepts 4096 .node (hf.cache.records .node).numPages id := fun id hid =>
    (Store.swapAccepts_iff .node hw.store.valid).mpr
      ⟨by rw [hpn, Nat.div_eq_of_lt hid]; exact Nat.one_pos, Nat.mod_lt _ (by decide)⟩
  have hfuel : (hf.cache.records .relationship).numPages * 256 < 1000 := by
    rw [show (hf.cache.records .relationship).numPages = 1 from hpr]
    decide
  obtain ⟨hf', hswap, hiff⟩ := swapNodes_iff hw (hacc 0#64 (by decide)) (hacc 1#64 (by decide))
    hfuel
  refine ⟨hf, hf', hw, hswap, hiff.mpr ?_⟩
  rintro ⟨hnone, -⟩
  exact Store.node_eq_none.mp hnone hl

end HeapFile

end Goedb
