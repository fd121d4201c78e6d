import Goedb.Order.SwapNodes

/-!
# Order — `swap_relationships`

On a well-formed heap file `swap_relationships` is the renaming of two ids of relationships.  The
records that point to one of the two are among the neighbours that it collects, because the rings
are linked both ways (`Graph.WellFormed.points_back`).

* `Store.run_swapRelationships`: what the function does.
* `HeapFile.swapRelationships_renames`: it is the renaming.
-/

namespace Goedb

open Lib

/-! ### The records to update -/

theorem mem_addIds {x : Ulong} {rest : List Ulong} : ∀ {ids : List Ulong},
    x ∈ HF.addIds ids rest ↔ x ∈ ids ∨ x ∈ rest := by
  induction rest with
  | nil => simp [HF.addIds]
  | cons a rest ih =>
      intro ids
      rw [HF.addIds, ih, List.mem_cons]
      split
      · rename_i ha
        constructor
        · tauto
        · rintro (h | rfl | h)
          · exact .inl h
          · exact .inl ha
          · exact .inr h
      · rw [List.mem_append, List.mem_singleton, or_assoc]

theorem nodup_addIds {rest : List Ulong} : ∀ {ids : List Ulong}, ids.Nodup →
    (HF.addIds ids rest).Nodup := by
  induction rest with
  | nil =>
      intro ids h
      exact h
  | cons a rest ih =>
      intro ids h
      rw [HF.addIds]
      apply ih
      split
      · exact h
      · rename_i ha
        exact List.nodup_append.mpr ⟨h, List.nodup_singleton a, fun x hx y hy e =>
          ha (List.mem_singleton.mp hy ▸ e ▸ hx)⟩

namespace Graph

variable {g : Graph} {x y : Ulong} {r : Relationship}

theorem prevAt_mem (n : Ulong) (r : Relationship) :
    r.prevAt n ∈ HF.relsToUpdate r ∧ r.nextAt n ∈ HF.relsToUpdate r := by
  simp only [HF.relsToUpdate, Relationship.prevAt, Relationship.nextAt]
  split <;> simp

/-- **Who is pointed to points back.** -/
theorem WellFormed.points_back (hw : g.WellFormed) (hy : g.rel y = some r)
    (hx : x ∈ HF.relsToUpdate r) : ∃ r', g.rel x = some r' ∧ y ∈ HF.relsToUpdate r' := by
  obtain ⟨⟨ns, hns⟩, nt, hnt⟩ := hw.endpoints y r hy
  have hloop : r.LoopAgrees := hw.loops y r hy
  -- in the chain of either endpoint
  have hnext : ∀ {n nd}, g.node n = some nd → r.At n →
      ∃ r', g.rel (r.nextAt n) = some r' ∧ y ∈ HF.relsToUpdate r' := by
    intro n nd hn ha
    obtain ⟨l, hc⟩ := hw.chain n nd hn
    obtain ⟨r', hr', -⟩ := (hc.mem _).mp (hc.next_mem hy ha)
    refine ⟨r', hr', ?_⟩
    have hback := hc.ring.prv_nxt (hc.mem_of_rel hy ha)
    rw [next_of_rel hy, prev_of_rel hr'] at hback
    exact hback ▸ (prevAt_mem n r').1
  have hprev : ∀ {n nd}, g.node n = some nd → r.At n →
      ∃ r', g.rel (r.prevAt n) = some r' ∧ y ∈ HF.relsToUpdate r' := by
    intro n nd hn ha
    obtain ⟨l, hc⟩ := hw.chain n nd hn
    obtain ⟨r', hr', -⟩ := (hc.mem _).mp (hc.prev_mem hy ha)
    refine ⟨r', hr', ?_⟩
    have hback := hc.ring.nxt_prv (hc.mem_of_rel hy ha)
    rw [prev_of_rel hy, next_of_rel hr'] at hback
    exact hback ▸ (prevAt_mem n r').2
  simp only [HF.relsToUpdate, List.mem_cons, List.not_mem_nil, or_false] at hx
  rcases hx with rfl | rfl | rfl | rfl
  · exact (prevAt_source rfl).1 ▸ hprev hns (.inl rfl)
  · exact (prevAt_target hloop rfl).1 ▸ hprev hnt (.inr rfl)
  · exact (prevAt_source rfl).2 ▸ hnext hns (.inl rfl)
  · exact (prevAt_target hloop rfl).2 ▸ hnext hnt (.inr rfl)

/-- The first relationship of a node joins it. -/
theorem WellFormed.first_joins (hw : g.WellFormed) {n : Ulong} {nd : Node}
    (hn : g.node n = some nd) (hU : nd.firstRelationship ≠ uninitializedLong) :
    ∃ r, g.rel nd.firstRelationship = some r ∧ n ∈ HF.nodesToUpdate r := by
  obtain ⟨l, hc⟩ := hw.chain n nd hn
  cases l with
  | nil => exact absurd (hc.first_eq_iff.mpr rfl) hU
  | cons a t =>
      have hfirst : nd.firstRelationship = a := hc.first_eq
      obtain ⟨r, hr, ha⟩ := (hc.mem a).mp List.mem_cons_self
      refine ⟨r, hfirst ▸ hr, ?_⟩
      rcases ha with rfl | rfl
      · exact List.mem_cons_self
      · exact List.mem_cons_of_mem _ List.mem_cons_self

end Graph

namespace Store

variable {s : Store} {fst snd : Ulong}

/-! ### The loops -/

/-- The loop over the neighbours: the pointers of those of the list are renamed. -/
theorem run_updatePointers (fst snd : Ulong) (ids : List Ulong) : ∀ {s : Store}, s.Valid →
    ids.Nodup → (∀ x ∈ ids, ∃ r, s.graph.rel x = some r ∧ Writable r) →
    ∃ s', run (HF.updatePointers fst snd ids) s = .ok ((), s') ∧ s.SameSlots s' ∧
      s'.graph.node = s.graph.node ∧ ∀ y, s'.graph.rel y =
        if y ∈ ids then (s.graph.rel y).map (HF.renamePointers fst snd) else s.graph.rel y := by
  induction ids with
  | nil =>
      intro s _ _ _
      exact ⟨s, rfl, .refl s, rfl, fun y => by simp⟩
  | cons x ids ih =>
      intro s hv hd hids
      obtain ⟨hx, hd⟩ := List.nodup_cons.mp hd
      obtain ⟨r, hr, hwr⟩ := hids x List.mem_cons_self
      obtain ⟨hl, -⟩ := rel_eq_some.mp hr
      have hid : r.id = x := rel_id hr
      have hl' : s.Live .relationship (HF.renamePointers fst snd r).id := hid ▸ hl
      have hg := graph_setRel hl'
      have hother : ∀ y, y ≠ x → (s.setRel (HF.renamePointers fst snd r)).graph.rel y =
          s.graph.rel y := by
        intro y hy
        rw [hg]
        exact Function.update_of_ne (hid ▸ hy) _ _
      obtain ⟨s', hrun, hsame, hnode, hrel⟩ := ih (hv.setRel (HF.renamePointers fst snd r)) hd
        fun y hy => by
          rw [hother y fun e => hx (e ▸ hy)]
          exact hids y (List.mem_cons_of_mem x hy)
      refine ⟨s', ?_, (sameSlots_setRel _).trans hsame, ?_, fun y => ?_⟩
      · rw [run, HF.updatePointers, Prog.run_bind_ok _ (run_readRelationship hv hr),
          Prog.run_bind_ok _ (run_updateRelationship hv hl' hwr)]
        exact hrun
      · rw [hnode, hg]
        rfl
      · rw [hrel]
        by_cases hy : y = x
        · subst hy
          rw [if_neg hx, if_pos List.mem_cons_self, hg, hr, ← hid]
          exact Function.update_self ..
        · simp only [List.mem_cons, hy, false_or, hother y hy]

/-- The loop over the endpoints: the first relationships of those of the list are renamed. -/
theorem run_updateFirsts (fst snd : Ulong) (ids : List Ulong) : ∀ {s : Store}, s.Valid →
    ids.Nodup → (∀ x ∈ ids, ∃ nd, s.graph.node x = some nd) →
    ∃ s', run (HF.updateFirsts fst snd ids) s = .ok ((), s') ∧ s.SameSlots s' ∧
      s'.graph.rel = s.graph.rel ∧ ∀ y, s'.graph.node y =
        if y ∈ ids then (s.graph.node y).map (HF.renameFirst fst snd) else s.graph.node y := by
  induction ids with
  | nil =>
      intro s _ _ _
      exact ⟨s, rfl, .refl s, rfl, fun y => by simp⟩
  | cons x ids ih =>
      intro s hv hd hids
      obtain ⟨hx, hd⟩ := List.nodup_cons.mp hd
      obtain ⟨nd, hn⟩ := hids x List.mem_cons_self
      obtain ⟨hl, -⟩ := node_eq_some.mp hn
      have hid : nd.id = x := node_id hn
      have hl' : s.Live .node (HF.renameFirst fst snd nd).id := hid ▸ hl
      have hg := graph_setNode hl'
      have hother : ∀ y, y ≠ x → (s.setNode (HF.renameFirst fst snd nd)).graph.node y =
          s.graph.node y := by
        intro y hy
        rw [hg]
        exact Function.update_of_ne (hid ▸ hy) _ _
      obtain ⟨s', hrun, hsame, hrel, hnode⟩ := ih (hv.setNode (HF.renameFirst fst snd nd)) hd
        fun y hy => by
          rw [hother y fun e => hx (e ▸ hy)]
          exact hids y (List.mem_cons_of_mem x hy)
      refine ⟨s', ?_, (sameSlots_setNode _).trans hsame, ?_, fun y => ?_⟩
      · rw [run, HF.updateFirsts, Prog.run_bind_ok _ (run_readNode hv hn),
          Prog.run_bind_ok _ (run_updateNode hv hl')]
        exact hrun
      · rw [hrel, hg]
        rfl
      · rw [hnode]
        by_cases hy : y = x
        · subst hy
          rw [if_neg hx, if_pos List.mem_cons_self, hg, hn, ← hid]
          exact Function.update_self ..
        · simp only [List.mem_cons, hy, false_or, hother y hy]

/-! ### The records that point to the two relationships -/

theorem renamePointers_of_ne {r : Relationship}
    (h : ∀ x ∈ HF.relsToUpdate r, x ≠ fst ∧ x ≠ snd) : HF.renamePointers fst snd r = r := by
  simp only [HF.relsToUpdate, List.mem_cons, List.not_mem_nil, or_false, forall_eq_or_imp,
    forall_eq] at h
  obtain ⟨⟨a₁, a₂⟩, ⟨b₁, b₂⟩, ⟨c₁, c₂⟩, d₁, d₂⟩ := h
  simp only [HF.renamePointers, exchange_of_ne a₁ a₂, exchange_of_ne b₁ b₂, exchange_of_ne c₁ c₂,
    exchange_of_ne d₁ d₂]

/-- The two relationships, those that are there. -/
def pair (s : Store) (fst snd : Ulong) : List Relationship :=
  (s.graph.rel fst).toList ++ (s.graph.rel snd).toList

theorem mem_pair {r : Relationship} :
    r ∈ s.pair fst snd ↔ s.graph.rel fst = some r ∨ s.graph.rel snd = some r := by
  rw [pair, List.mem_append, Option.mem_toList, Option.mem_toList]

/-- All pointers to the two relationships are renamed. -/
theorem run_renamePointers (hw : s.WellFormed) (fst snd : Ulong) :
    ∃ s', run (HF.updatePointers fst snd
        (HF.addIds [] ((s.pair fst snd).flatMap HF.relsToUpdate))) s = .ok ((), s') ∧
      s.SameSlots s' ∧ s'.graph.node = s.graph.node ∧
      ∀ y, s'.graph.rel y = (s.graph.rel y).map (HF.renamePointers fst snd) := by
  have hrel : ∀ {r}, r ∈ s.pair fst snd → ∃ x, s.graph.rel x = some r := by
    intro r hr
    rcases mem_pair.mp hr with h | h
    · exact ⟨fst, h⟩
    · exact ⟨snd, h⟩
  obtain ⟨s', hrun, hsame, hnode, hrels⟩ := run_updatePointers fst snd
    (HF.addIds [] ((s.pair fst snd).flatMap HF.relsToUpdate)) hw.valid (nodup_addIds List.nodup_nil)
    fun y hy => by
      obtain ⟨r, hr, hy⟩ := List.mem_flatMap.mp ((mem_addIds.mp hy).resolve_left List.not_mem_nil)
      obtain ⟨x, hx⟩ := hrel hr
      obtain ⟨r', hr', -⟩ := hw.graph.points_back hx hy
      exact ⟨r', hr', hw.writable hr'⟩
  refine ⟨s', hrun, hsame, hnode, fun y => ?_⟩
  rw [hrels]
  split
  · rfl
  · -- a relationship that was not renamed points to neither
    rename_i hnot
    cases hy : s.graph.rel y with
    | none => rfl
    | some r =>
        refine congrArg some (renamePointers_of_ne fun x hx => ?_).symm
        obtain ⟨r', hr', hy'⟩ := hw.graph.points_back hy hx
        have hin : r' ∈ s.pair fst snd → False := fun h =>
          hnot (mem_addIds.mpr (.inr (List.mem_flatMap.mpr ⟨r', h, hy'⟩)))
        constructor
        · rintro rfl
          exact hin (mem_pair.mpr (.inl hr'))
        · rintro rfl
          exact hin (mem_pair.mpr (.inr hr'))

/-- All first relationships that are one of the two are renamed, where the relationships of `s` are
those before the pointers were renamed. -/
theorem run_renameFirsts (hw : s.WellFormed) {s₁ : Store} (hv : s₁.Valid)
    (hnodes : s₁.graph.node = s.graph.node) (h₁ : fst ≠ uninitializedLong)
    (h₂ : snd ≠ uninitializedLong) :
    ∃ s', run (HF.updateFirsts fst snd
        (HF.addIds [] ((s.pair fst snd).flatMap HF.nodesToUpdate))) s₁ = .ok ((), s') ∧
      s₁.SameSlots s' ∧ s'.graph.rel = s₁.graph.rel ∧
      ∀ y, s'.graph.node y = (s.graph.node y).map (HF.renameFirst fst snd) := by
  obtain ⟨s', hrun, hsame, hrel, hnode⟩ := run_updateFirsts fst snd
    (HF.addIds [] ((s.pair fst snd).flatMap HF.nodesToUpdate)) hv (nodup_addIds List.nodup_nil)
    fun y hy => by
      obtain ⟨r, hr, hy⟩ := List.mem_flatMap.mp ((mem_addIds.mp hy).resolve_left List.not_mem_nil)
      have hends : (∃ nd, s.graph.node r.sourceNode = some nd) ∧
          ∃ nd, s.graph.node r.targetNode = some nd := by
        rcases mem_pair.mp hr with h | h
        · exact hw.graph.endpoints _ _ h
        · exact hw.graph.endpoints _ _ h
      simp only [HF.nodesToUpdate, List.mem_cons, List.not_mem_nil, or_false] at hy
      rw [hnodes]
      rcases hy with rfl | rfl
      · exact hends.1
      · exact hends.2
  refine ⟨s', hrun, hsame, hrel, fun y => ?_⟩
  rw [hnode, hnodes]
  split
  · rfl
  · rename_i hnot
    cases hy : s.graph.node y with
    | none => rfl
    | some nd =>
        have hne : nd.firstRelationship ≠ fst ∧ nd.firstRelationship ≠ snd := by
          have hin : ∀ r, r ∈ s.pair fst snd → y ∉ HF.nodesToUpdate r := fun r hr h =>
            hnot (mem_addIds.mpr (.inr (List.mem_flatMap.mpr ⟨r, hr, h⟩)))
          constructor
          · intro e
            obtain ⟨r, hr, hj⟩ := hw.graph.first_joins hy (e ▸ h₁)
            exact hin r (mem_pair.mpr (.inl (e ▸ hr))) hj
          · intro e
            obtain ⟨r, hr, hj⟩ := hw.graph.first_joins hy (e ▸ h₂)
            exact hin r (mem_pair.mpr (.inr (e ▸ hr))) hj
        simp only [Option.map_some, HF.renameFirst, exchange_of_ne hne.1 hne.2]

/-! ### The two relationships -/

/-- A relationship under another id. -/
def relAtId (id : Ulong) (r : Relationship) : Relationship := { r with id := id }

theorem run_moveRelationship (id : Ulong) (o : Option Relationship) (hv : s.Valid)
    (hl : o.isSome → s.Live .relationship id) (hwr : ∀ r, o = some r → Writable r) :
    ∃ s', run (HF.moveRelationship id o) s = .ok ((), s') ∧ s.SameSlots s' ∧
      s'.graph.node = s.graph.node ∧ s'.graph.rel = moved relAtId s.graph.rel id o := by
  cases o with
  | none => exact ⟨s, rfl, .refl s, rfl, rfl⟩
  | some r =>
      have hl' : s.Live .relationship (relAtId id r).id := hl rfl
      refine ⟨s.setRel (relAtId id r), run_updateRelationship hv hl' (hwr r rfl),
        sameSlots_setRel _, ?_, ?_⟩
      · rw [graph_setRel hl']
        rfl
      · rw [graph_setRel hl']
        rfl

/-- The bits and the relationships of the two slots exchanged. -/
theorem run_moveRelationships (hv : s.Valid) (ha : fst.toNat % 4 = 0) (hb : snd.toNat % 4 = 0)
    (hp : fst.toNat / 256 < s.pages .relationship) (hq : snd.toNat / 256 < s.pages .relationship)
    (hne : fst ≠ snd) (hwr : ∀ x r, s.graph.rel x = some r → Writable r) :
    ∃ s', run (do
        HF.swapBits .relationship fst snd (decide (s.Live .relationship fst))
          (decide (s.Live .relationship snd))
        HF.moveRelationship snd (s.graph.rel fst)
        HF.moveRelationship fst (s.graph.rel snd)) s = .ok ((), s') ∧
      s'.Valid ∧ s'.pages = s.pages ∧ s'.counters = s.counters ∧
      (∀ gt x, s'.Live gt x ↔ s.Live gt (if gt = .relationship then exchange fst snd x else x)) ∧
      s'.graph.node = s.graph.node ∧
      ∀ x, s'.graph.rel x = (s.graph.rel (exchange fst snd x)).map (relAtId x) := by
  obtain ⟨s₁, h₁, hB⟩ := run_swapBits .relationship hv ha hb hp hq hne
  obtain ⟨s₂, h₂, e₂, n₂, r₂⟩ := run_moveRelationship snd (s.graph.rel fst) hB.valid
    (fun h => hB.live_of_live_fst (isSome_rel.mp h)) (hwr fst)
  obtain ⟨s₃, h₃, e₃, n₃, r₃⟩ := run_moveRelationship fst (s.graph.rel snd)
    (e₂.valid hB.valid) (fun h => e₂.live.mpr (hB.live_of_live_snd (isSome_rel.mp h))) (hwr snd)
  have hsame := e₂.trans e₃
  refine ⟨s₃, (Prog.run_bind_ok _ h₁ _).trans ((Prog.run_bind_ok _ h₂ _).trans h₃),
    hsame.valid hB.valid, hsame.pages.trans hB.pages, hsame.counters.trans hB.counters,
    fun gt x => by rw [hsame.live, hB.live], ?_, fun x => ?_⟩
  · rw [n₃, n₂]
    funext x
    refine graph_node_congr hB.word ?_
    rw [hB.live, if_neg (by decide)]
  · have hother : ∀ x, x ≠ fst → x ≠ snd → s₁.graph.rel x = s.graph.rel x := by
      intro x hx₁ hx₂
      refine graph_rel_congr hB.word ?_
      rw [hB.live, if_pos rfl, exchange_of_ne hx₁ hx₂]
    have hsome : ∀ x, (s₁.graph.rel x).isSome ↔ (s.graph.rel (exchange fst snd x)).isSome := by
      intro x
      rw [isSome_rel, isSome_rel, hB.live, if_pos rfl]
    rw [r₃, r₂, moved_moved relAtId hne hother hsome fun x r hx => ?_]
    rw [← rel_id hx]
    rfl

theorem run_readRelationship_onlyIf (hv : s.Valid) (x : Ulong) :
    run (HF.onlyIf (decide (s.Live .relationship x)) (HF.readRelationship x)) s =
      .ok (s.graph.rel x, s) := by
  by_cases hl : s.Live .relationship x
  · obtain ⟨r, hr⟩ := Option.isSome_iff_exists.mp (isSome_rel.mpr hl)
    rw [run_onlyIf (run_readRelationship hv hr), decide_eq_true hl, hr]
    rfl
  · rw [decide_eq_false hl, rel_eq_none.mpr hl]
    rfl

/-! ### The function -/

theorem WellFormed.rename_rels_of_not_live (hw : s.WellFormed) (h₁ : fst ≠ uninitializedLong)
    (h₂ : snd ≠ uninitializedLong)
    (h : fst = snd ∨ ¬ s.Live .relationship fst ∧ ¬ s.Live .relationship snd) :
    s.graph.rename 1 (Equiv.swap fst snd) = s.graph :=
  hw.graph.rename_eq_self (Equiv.swap_apply_of_ne_of_ne h₁.symm h₂.symm) s.keyed
    (fun _ _ hn => node_id hn) (fun _ _ => rfl)
    fun _ hx => swap_apply_of_live h (isSome_rel.mp hx)

/-- **`swap_relationships`** exchanges the relationships of two aligned slots and renames what points
to them. -/
theorem run_swapRelationships (hw : s.WellFormed) (ha : fst.toNat % 4 = 0)
    (hb : snd.toNat % 4 = 0) (hp : fst.toNat / 256 < s.pages .relationship)
    (hq : snd.toNat / 256 < s.pages .relationship) :
    ∃ s', run (HF.swapRelationships 4096 fst snd) s = .ok ((), s') ∧
      s.Exchanged .relationship fst snd s' ∧
      s'.graph = s.graph.rename 1 (Equiv.swap fst snd) := by
  have hv := hw.valid
  have hnum : run (Prog.perform (.numPages .relationship)) s = .ok (s.pages .relationship, s) := rfl
  have hacc : HF.SwapAccepts 4096 .relationship (s.pages .relationship) fst ∧
      HF.SwapAccepts 4096 .relationship (s.pages .relationship) snd := by
    refine ⟨(swapAccepts_iff .relationship hv).mpr ⟨hp, ?_⟩,
      (swapAccepts_iff .relationship hv).mpr ⟨hq, ?_⟩⟩
    · show _ + 4 ≤ _
      omega
    · show _ + 4 ≤ _
      omega
  have hf₁ : run (HF.checkRecordExists .relationship fst) s = _ := run_checkRecordExists hv hp
  have hf₂ : run (HF.checkRecordExists .relationship snd) s = _ := run_checkRecordExists hv hq
  rw [run, HF.swapRelationships, Prog.run_bind_ok _ hnum, if_neg (not_not.mpr hacc),
    Prog.run_bind_ok _ hf₁, Prog.run_bind_ok _ hf₂]
  by_cases htriv : fst = snd ∨ ¬ s.Live .relationship fst ∧ ¬ s.Live .relationship snd
  · rw [if_pos (by simpa using htriv), hw.rename_rels_of_not_live hacc.1.1 hacc.2.1 htriv]
    exact ⟨s, rfl, exchanged_refl hv htriv, rfl⟩
  · rw [if_neg (by simpa using htriv)]
    have hne : fst ≠ snd := fun e => htriv (.inl e)
    -- the pointers of relationships and nodes are renamed first, and then the two records change
    -- places
    obtain ⟨s₁, h₁, e₁, n₁, r₁⟩ := run_renamePointers hw fst snd
    obtain ⟨s₂, h₂, e₂, r₂, n₂⟩ := run_renameFirsts hw (e₁.valid hv) n₁ hacc.1.1 hacc.2.1
    have e₁₂ := e₁.trans e₂
    have hv₂ := e₁₂.valid hv
    have h₃ := run_readRelationship_onlyIf hv₂ snd
    have h₄ := run_readRelationship_onlyIf hv₂ fst
    simp only [e₁₂.live] at h₃ h₄
    set s₃ := s₂.setCounters { s₂.counters with
      log := .swapRelationships fst snd :: s₂.counters.log } with hs₃
    have h₅ : run (HF.log (.swapRelationships fst snd)) s₂ = .ok ((), s₃) := rfl
    have hwr : ∀ x r, s₃.graph.rel x = some r → Writable r := by
      intro x r hr
      rw [show s₃.graph.rel = s₁.graph.rel from r₂, r₁] at hr
      obtain ⟨r', hr', rfl⟩ := Option.map_eq_some_iff.mp hr
      have hwr' : Writable r' := hw.writable hr'
      exact hwr'
    obtain ⟨s₄, h₆, hv₄, p₄, c₄, l₄, n₄, r₄⟩ := run_moveRelationships (s := s₃)
      (hv₂.setCounters hv₂.aligned) ha hb (show _ < s₂.pages _ by rwa [e₁₂.pages])
      (show _ < s₂.pages _ by rwa [e₁₂.pages]) hne hwr
    have hlive : ∀ gt x, s₃.Live gt x ↔ s.Live gt x := fun gt x => e₁₂.live
    simp only [hlive] at h₆
    refine ⟨s₄, ?_, ⟨hv₄, p₄.trans e₁₂.pages, fun gt x => by rw [l₄, hlive], ?_⟩, ?_⟩
    · rw [Prog.run_bind_ok _ (run_readRelationship_onlyIf hv fst),
        Prog.run_bind_ok _ (run_readRelationship_onlyIf hv snd)]
      refine (Prog.run_bind_ok _ h₁ _).trans ((Prog.run_bind_ok _ h₂ _).trans ?_)
      rw [Prog.run_bind_ok _ h₃, Prog.run_bind_ok _ h₄, Prog.run_bind_ok _ h₅]
      exact h₆
    · rw [c₄, hs₃, ← e₁₂.counters]
      rfl
    · refine Graph.ext (funext fun x => ?_) (funext fun x => ?_)
      · rw [n₄, show s₃.graph.node = s₂.graph.node from rfl, n₂]
        show _ = (s.graph.node x).map _
        cases s.graph.node x with
        | none => rfl
        | some nd =>
            simp only [Option.map_some, HF.renameFirst, Node.rename, exchange_eq_swap]
            rfl
      · rw [r₄, show s₃.graph.rel = s₁.graph.rel from r₂, r₁, exchange_eq_swap]
        simp only [Graph.rename, Equiv.symm_swap, Option.map_map]
        cases hx : s.graph.rel (Equiv.swap fst snd x) with
        | none => rfl
        | some r =>
            have hid : Equiv.swap fst snd r.id = x := by
              rw [rel_id hx, Equiv.swap_apply_self]
            simp only [Option.map_some, Function.comp, relAtId, HF.renamePointers,
              Relationship.rename, exchange_eq_swap, hid]
            rfl

end Store

/-! ### The heap file -/

namespace HeapFile

/-- `hf'` is the well-formed heap file `hf` with two ids of relationships exchanged everywhere. -/
structure RelationshipsSwapped (hf hf' : HeapFile PhyDatabase) (fst snd : Ulong) : Prop where
  wellFormed : hf'.WellFormed
  slots : (Store.of hf).Exchanged .relationship fst snd (Store.of hf')
  graph : hf'.graph = hf.graph.rename 1 (Equiv.swap fst snd)

/-- **`swap_relationships` is a renaming** of the two ids, for aligned slots of the file. -/
theorem swapRelationships_renames {hf : HeapFile PhyDatabase} {fst snd : Ulong}
    (hw : hf.WellFormed) (ha : fst.toNat % 4 = 0) (hb : snd.toNat % 4 = 0)
    (hp : pageOf fst < (hf.cache.records .relationship).numPages)
    (hq : pageOf snd < (hf.cache.records .relationship).numPages) :
    ∃ hf', run (HF.swapRelationships 4096 fst snd) hf = .ok ((), hf') ∧
      RelationshipsSwapped hf hf' fst snd := by
  rw [pageOf_eq] at hp hq
  have hU : ∀ {x : Ulong}, x.toNat / 256 < (Store.of hf).pages .relationship →
      x ≠ uninitializedLong := hw.store.valid.ne_uninitialized
  obtain ⟨s', hrun, hE, hg⟩ := Store.run_swapRelationships hw.store ha hb hp hq
  obtain ⟨hf', hrun', hgood, rfl⟩ := run_ok hw.good hrun
  have hnull : Equiv.swap fst snd uninitializedLong = uninitializedLong :=
    Equiv.swap_apply_of_ne_of_ne (hU hp).symm (hU hq).symm
  exact ⟨hf', hrun', ⟨hgood, hw.store.rename hE.valid hnull hg⟩, hE, hg⟩

/-- Two relationships of a node, a self-loop and one to another node, are exchanged. -/
theorem swapRelationships_renames_loop : ∃ hf hf', hf.WellFormed ∧
    run (HF.swapRelationships 4096 0#64 4#64) hf = .ok ((), hf') ∧
    RelationshipsSwapped hf hf' 0#64 4#64 := by
  have h : Prog.check Store.step (HF.creations 4096 1000
      [.node 7#64, .node 8#64, .relationship 0#64 0#64 0#64 5#64,
        .relationship 0#64 1#64 0#64 6#64]) Store.empty
      (fun _ s => decide (s.pages .relationship = 1)) = true := by
    decide +kernel
  obtain ⟨ids, s, hrun, hp⟩ := Prog.check_inv _ h
  obtain ⟨-, -, hf, -, -, -, hw, rfl⟩ := exists_created hrun
  have hpages : (hf.cache.records .relationship).numPages = 1 := of_decide_eq_true hp
  obtain ⟨hf', hswap, hS⟩ := swapRelationships_renames hw (show (0#64).toNat % 4 = 0 by decide)
    (show (4#64).toNat % 4 = 0 by decide) (by rw [hpages]; decide) (by rw [hpages]; decide)
  exact ⟨hf, hf', hw, hswap, hS⟩

end HeapFile

end Goedb
