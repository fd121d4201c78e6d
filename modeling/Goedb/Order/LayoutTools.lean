import Goedb.Order.ByNodes
import Goedb.Order.SortedIncidence
import Goedb.Query.Traversal

/-!
# Order — the graph under the layout tools

The tools for the layout of the relationships (`LayoutCall`) give the relationships new ids or link them
anew.  `Store.Relaid` is what they leave of a graph: the same nodes, each with a cycle of relationships,
and relationships that say the same at other ids.  Then `expand` and `bfs` answer as before
(`HeapFile.layoutCall_answersAlike`).
-/

namespace Goedb

open Lib

/-! ### The calls -/

/-- A call of a tool for the layout of the relationships. -/
inductive LayoutCall
  | swapRelationships (fst snd : Ulong)
  | reorderRelationships (newIds : Dict)
  | reorderRelationshipsByNodes
  | sortIncidenceList

/-- The call is made. -/
def LayoutCall.exec (P fuel : ℕ) : LayoutCall → HF Unit
  | swapRelationships fst snd => HF.swapRelationships P fst snd
  | reorderRelationships newIds => HF.reorderRelationships P fuel newIds
  | reorderRelationshipsByNodes => HF.reorderRelationshipsByNodes P fuel
  | sortIncidenceList => HF.sortIncidenceList P fuel

/-- What `reorder_relationships` is given is a bijection of the ids that exist. -/
def LayoutCall.Bijective (hf : HeapFile PhyDatabase) : LayoutCall → Prop
  | reorderRelationships newIds => ∃ π, hf.Permutes .relationship newIds π
  | _ => True

/-! ### Graphs that say the same -/

namespace Graph

variable {g g' : Graph} {σ : Renaming} {direction : Direction}

theorem Retells.symm (h : Retells σ g g') : Retells σ.symm g' g := by
  intro x
  rw [← h, σ.apply_symm_apply]

/-- A relationship leads where the one leads that says the same. -/
theorem Leads.retell (h : Retells σ g g') {v x w : Ulong} (hl : g.Leads direction v x w) :
    g'.Leads direction v (σ x) w := by
  obtain ⟨r, hr, hgoes, rfl⟩ := hl
  have hx := h x
  rw [payloadAt_eq_some.mpr ⟨r, hr, rfl⟩] at hx
  obtain ⟨r', hr', hp⟩ := payloadAt_eq_some.mp hx
  have hsource : r'.sourceNode = r.sourceNode := congrArg Prod.fst hp
  have htarget : r'.targetNode = r.targetNode := congrArg (fun p => p.2.1) hp
  refine ⟨r', hr', ?_, ?_⟩
  · rwa [Relationship.Goes, hsource, htarget]
  · rw [Relationship.otherEnd, Relationship.otherEnd, hsource, htarget]

theorem Retells.exists_leads_iff (h : Retells σ g g') (v w : Ulong) :
    (∃ x, g.Leads direction v x w) ↔ ∃ x, g'.Leads direction v x w :=
  ⟨fun ⟨_, hl⟩ => ⟨_, hl.retell h⟩, fun ⟨_, hl⟩ => ⟨_, hl.retell h.symm⟩⟩

end Graph

namespace Store

variable {s s' : Store} {fuel : ℕ} {source : Ulong}

/-- The nodes of `s'` are those of `s`, and its relationships say the same at other ids. -/
structure Relaid (s s' : Store) : Prop where
  counted : s'.Counted
  circular : s'.graph.Circular
  live : ∀ n, s'.Live .node n ↔ s.Live .node n
  retells : ∃ σ, s.graph.Retells σ s'.graph

/-! ### The answers -/

theorem Relaid.walkable (h : s.Relaid s') (hs : s.Walkable) : s'.Walkable where
  counted := h.counted
  circular := h.circular
  endpoints x r hr := by
    obtain ⟨σ, hσ⟩ := h.retells
    have hx := hσ.symm x
    rw [Graph.payloadAt_eq_some.mpr ⟨r, hr, rfl⟩] at hx
    obtain ⟨r', hr', hp⟩ := Graph.payloadAt_eq_some.mp hx
    have hsource : r'.sourceNode = r.sourceNode := congrArg Prod.fst hp
    have htarget : r'.targetNode = r.targetNode := congrArg (fun p => p.2.1) hp
    rw [h.live, h.live, ← hsource, ← htarget]
    exact hs.endpoints _ r' hr'

/-- `expand` returns the same relationships. -/
theorem Relaid.run_expand (h : s.Relaid s') (hs : s.Walkable) (hl : s.Live .node source)
    (hfuel : maxPageNo 4096 * 256 ≤ fuel) (direction : Direction) :
    ∃ rels rels', run (HF.expand fuel source direction) s = .ok (rels, s) ∧
      run (HF.expand fuel source direction) s' = .ok (rels', s') ∧
      (rels.map Relationship.payload).Perm (rels'.map Relationship.payload) := by
  obtain ⟨σ, hσ⟩ := h.retells
  have hv := hs.counted.valid
  have hv' := h.counted.valid
  have hn : s.graph.node source = some (s.nodeAt source) := node_eq_some.mpr ⟨hl, rfl⟩
  have hn' : s'.graph.node source = some (s'.nodeAt source) :=
    node_eq_some.mpr ⟨(h.live source).mpr hl, rfl⟩
  obtain ⟨l, hw⟩ := hs.circular source _ hn
  obtain ⟨l', hw'⟩ := h.circular source _ hn'
  have hlen := walk_length_le hw
  have hlen' := walk_length_le hw'
  have hpages := hv.pages_lt .relationship
  have hpages' := hv'.pages_lt .relationship
  refine ⟨_, _, Store.run_expand hv hn hw direction (by omega),
    Store.run_expand hv' hn' hw' direction (by omega), ?_⟩
  have hperm := (hw.perm_expand s.keyed s'.keyed hw' hσ direction).map Prod.snd
  rwa [List.map_map, List.map_map] at hperm

/-- `bfs` numbers the nodes alike. -/
theorem Relaid.run_bfs (h : s.Relaid s') (hs : s.Walkable) (hl : s.Live .node source)
    (hfuel : maxPageNo 4096 * 256 ≤ fuel) (direction : Direction) :
    ∃ r r', run (HF.bfs 4096 fuel source direction) s = .ok (r, s) ∧
      run (HF.bfs 4096 fuel source direction) s' = .ok (r', s') ∧
      ∀ v, r'.traversalNumbers.lookup v = r.traversalNumbers.lookup v := by
  obtain ⟨σ, hσ⟩ := h.retells
  obtain ⟨r, f, hrun, -, hS, hrep⟩ :=
    hs.run_traverse hl pops_popFirst takesOne_first hfuel "bfs: Invalid Arguments" direction
  obtain ⟨r', f', hrun', -, hS', hrep'⟩ := (h.walkable hs).run_traverse ((h.live source).mpr hl)
    pops_popFirst takesOne_first hfuel "bfs: Invalid Arguments" direction
  have hlevel : f.level = f'.level := hS.frontier.level_eq hS'.frontier hσ.exists_leads_iff
  refine ⟨r, r', hrun, hrun', fun v => ?_⟩
  rw [hrep'.numbers, hrep.numbers, hlevel]
  simp only [h.live]

/-! ### What is left of the graph -/

theorem Renamed.relaid {τ : Renaming} (h : s.Renamed .relationship τ s') (hc : s.Counted) :
    s.Relaid s' where
  counted := h.counted hc
  circular := h.wellFormed.graph.circular
  live _ := by rw [h.live, if_neg (by decide)]
  retells := ⟨τ, h.graph ▸ Graph.retells_rename τ s.graph⟩

theorem Resorted.relaid {ns : List Ulong} (h : s.Resorted ns s') (hc : s.Counted)
    (hcirc : s.graph.Circular) : s.Relaid s' where
  counted := hc.sameSlots h.slots
  circular := h.circular hc.valid hcirc
  live _ := h.slots.live
  retells := ⟨1, Graph.retells_of_keeps (s.keeps_foldl_sortAt ns) h.rel⟩

/-- Two slots are left as they are. -/
theorem swapRelationships_idle (hv : s.Valid) {fst snd : Ulong} (hidle : s.Idle .relationship fst snd)
    (h : run (HF.swapRelationships 4096 fst snd) s = .ok ((), s')) : s' = s := by
  obtain ⟨numPages, s₁, h₁, h⟩ := Prog.run_bind_inv _ h
  cases h₁
  split at h
  · cases h
  · obtain ⟨fstExists, s₂, h₂, hk₂⟩ := Prog.run_bind_inv _ h
    obtain ⟨rfl, rfl⟩ := checkRecordExists_inv hv h₂
    obtain ⟨sndExists, s₃, h₃, hk₃⟩ := Prog.run_bind_inv _ hk₂
    obtain ⟨rfl, rfl⟩ := checkRecordExists_inv hv h₃
    rw [if_pos (hidle.imp id fun h => ⟨decide_eq_false h.1, decide_eq_false h.2⟩)] at hk₃
    cases hk₃
    rfl

/-- **`swap_relationships`** renames, whatever slots it is called for. -/
theorem swapRelationships_renamed (hw : s.WellFormed) {fst snd : Ulong}
    (h : run (HF.swapRelationships 4096 fst snd) s = .ok ((), s')) :
    ∃ τ, s.Renamed .relationship τ s' := by
  by_cases hidle : s.Idle .relationship fst snd
  · obtain rfl := swapRelationships_idle hw.valid hidle h
    exact ⟨1, .refl hw⟩
  · have hone : s.Live .relationship fst ∨ s.Live .relationship snd := by
      by_contra hnone
      exact hidle (.inr (not_or.mp hnone))
    obtain ⟨-, hE⟩ | hE := swapRelationships_inv hw.valid h
    · exact absurd hE hidle
    · -- where one of them was there is a record now, so both are slots of the file
      have hmoved : ∀ x, s.Live .relationship (exchange fst snd x) → x.toNat % 4 = 0 ∧
          x.toNat / 256 < s.pages .relationship := fun x hx => by
        have hx' : s'.Live .relationship x := (hE.live ..).mpr (by rwa [if_pos rfl])
        exact ⟨hx'.1, hE.pages ▸ hx'.2.1⟩
      have hslot : (fst.toNat % 4 = 0 ∧ fst.toNat / 256 < s.pages .relationship) ∧
          snd.toNat % 4 = 0 ∧ snd.toNat / 256 < s.pages .relationship := by
        rcases hone with hl | hl
        · exact ⟨⟨hl.1, hl.2.1⟩, hmoved snd (by rwa [exchange_snd])⟩
        · exact ⟨hmoved fst (by rwa [exchange_fst]), hl.1, hl.2.1⟩
      obtain ⟨⟨ha, hp⟩, hb, hq⟩ := hslot
      obtain ⟨s₁, hrun, hR⟩ := run_swapRelationships_renamed hw ha hb hp hq
      rw [run] at hrun
      cases h.symm.trans hrun
      exact ⟨_, hR⟩

theorem inert_assertSameSize : Inert HF.assertSameSize := by
  intro newIds inverse s s' h
  rw [run, HF.assertSameSize] at h
  split at h
  · cases h
    rfl
  · cases h

/-- **`reorder_relationships`** renames, wherever the relationships shall go. -/
theorem reorderRelationships_inv (hw : s.WellFormed) {newIds : Dict}
    (hkeys : ∀ x ∈ newIds, s.Live .relationship x)
    (h : run (HF.reorderRelationships 4096 fuel newIds) s = .ok ((), s')) :
    ∃ τ, s.Renamed .relationship τ s' :=
  (reorderLoop_inv (swaps_relationships _) stays_swapRelationships inert_assertSameSize (.inr rfl)
    (fun _ _ => rfl) fuel (i := 0) hw rfl (inverts_inverse newIds) hkeys h).1

theorem insertAll_keys {sequence : List Ulong} : ∀ {ids : List Ulong} {newIds newIds' : Dict},
    insertAll newIds sequence ids = .ok newIds' → ∀ x ∈ newIds', x ∈ newIds ∨ x ∈ sequence := by
  induction sequence with
  | nil =>
      intro ids newIds newIds' h x hx
      cases ids with
      | nil =>
          cases h
          exact .inl hx
      | cons id ids => cases h
  | cons y sequence ih =>
      intro ids newIds newIds' h x hx
      cases ids with
      | nil =>
          cases h
          exact .inl hx
      | cons id ids =>
          rcases ih h x hx with hx | hx
          · rw [AList.mem_insert] at hx
            exact hx.elim (fun e => .inr (e ▸ List.mem_cons_self)) .inl
          · exact .inr (List.mem_cons_of_mem y hx)

theorem reorderRelationshipsBySequence_inv (hw : s.WellFormed) {sequence : List Ulong}
    (hsequence : ∀ x ∈ sequence, s.Live .relationship x)
    (h : run (HF.reorderRelationshipsBySequence 4096 fuel sequence) s = .ok ((), s')) :
    ∃ τ, s.Renamed .relationship τ s' := by
  obtain ⟨c, s₁, h₁, hk₁⟩ := Prog.run_bind_inv _ h
  cases h₁
  obtain ⟨ids, s₂, h₂, hk₂⟩ := Prog.run_bind_inv _ hk₁
  obtain ⟨-, rfl⟩ := run_lift_inv h₂
  obtain ⟨newIds, s₃, h₃, hk₃⟩ := Prog.run_bind_inv _ hk₂
  obtain ⟨hinsert, rfl⟩ := run_lift_inv h₃
  exact reorderRelationships_inv hw (fun x hx => hsequence x
    ((insertAll_keys hinsert x hx).resolve_left (AList.notMem_empty x))) hk₃

/-- **`reorder_relationships_by_nodes`** renames, whatever ids the temporary database hands out. -/
theorem reorderRelationshipsByNodes_inv (hw : s.WellFormed) (hc : s.Counted)
    (hfuel : maxPageNo 4096 * 256 ≤ fuel)
    (h : run (HF.reorderRelationshipsByNodes 4096 fuel) s = .ok ((), s')) :
    ∃ τ, s.Renamed .relationship τ s' := by
  obtain ⟨out, hout⟩ := exists_outgoing hw.valid hw.graph.circular hfuel
  have hperm := hout.perm_flatMap_outgoing hw
  rw [hout.run_reorderRelationshipsByNodes hw hc hfuel] at h
  exact reorderRelationshipsBySequence_inv hw
    (fun x hx => mem_liveIds.mp (hperm.mem_iff.mp hx)) h

end Store

/-! ### The heap file -/

namespace HeapFile

variable {hf hf' : HeapFile PhyDatabase} {fuel : ℕ} {call : LayoutCall}

/-- `expand` returns the same relationships of a node up to their ids and their order, and `bfs` returns
the same numbers. -/
def AnswersAlike (hf : HeapFile PhyDatabase) (fuel : ℕ) (hf' : HeapFile PhyDatabase) : Prop :=
  ∀ n, (Store.of hf).Live .node n → ∀ direction,
    (∃ rels rels' hf₁ hf₁', run (HF.expand fuel n direction) hf = .ok (rels, hf₁) ∧
      run (HF.expand fuel n direction) hf' = .ok (rels', hf₁') ∧
      (rels.map Relationship.payload).Perm (rels'.map Relationship.payload)) ∧
    ∃ r r' hf₁ hf₁', run (HF.bfs 4096 fuel n direction) hf = .ok (r, hf₁) ∧
      run (HF.bfs 4096 fuel n direction) hf' = .ok (r', hf₁') ∧
      ∀ v, r'.traversalNumbers.lookup v = r.traversalNumbers.lookup v

theorem relaid_answersAlike (hw : hf.WellFormed) (hc : (Store.of hf).Counted) (hg : hf'.Good)
    (hR : (Store.of hf).Relaid (Store.of hf')) (hfuel : maxPageNo 4096 * 256 ≤ fuel) :
    hf.AnswersAlike fuel hf' := by
  have hs := hw.store.walkable hc
  intro n hl direction
  obtain ⟨rels, rels', hrun, hrun', hperm⟩ := hR.run_expand hs hl hfuel direction
  obtain ⟨hf₁, hexpand, -, -⟩ := run_ok hw.good hrun
  obtain ⟨hf₁', hexpand', -, -⟩ := run_ok hg hrun'
  obtain ⟨r, r', hbfs, hbfs', hnumbers⟩ := hR.run_bfs hs hl hfuel direction
  obtain ⟨hf₂, hrun₂, -, -⟩ := run_ok hw.good hbfs
  obtain ⟨hf₂', hrun₂', -, -⟩ := run_ok hg hbfs'
  exact ⟨⟨rels, rels', hf₁, hf₁', hexpand, hexpand', hperm⟩, r, r', hf₂, hf₂', hrun₂, hrun₂', hnumbers⟩

/-- A call that returns. -/
theorem layoutCall_relaid (hw : hf.WellFormed) (hc : (Store.of hf).Counted)
    (hcall : call.Bijective hf) (hfuel : maxPageNo 4096 * 256 ≤ fuel) {s' : Store}
    (h : Store.run (call.exec 4096 fuel) (Store.of hf) = .ok ((), s')) : (Store.of hf).Relaid s' := by
  cases call with
  | swapRelationships fst snd =>
      obtain ⟨τ, hR⟩ := Store.swapRelationships_renamed hw.store h
      exact hR.relaid hc
  | reorderRelationships newIds =>
      obtain ⟨π, hπ⟩ := hcall
      have hkeys : ∀ x ∈ newIds, (Store.of hf).Live .relationship x := fun x hx =>
        (hπ.mem_keys x).mp (List.mem_toFinset.mpr (AList.mem_keys.mp hx))
      obtain ⟨τ, hR⟩ := Store.reorderRelationships_inv hw.store hkeys h
      exact hR.relaid hc
  | reorderRelationshipsByNodes =>
      obtain ⟨τ, hR⟩ := Store.reorderRelationshipsByNodes_inv hw.store hc hfuel h
      exact hR.relaid hc
  | sortIncidenceList =>
      obtain ⟨s₁, hrun, hR⟩ := Store.run_sortIncidenceList hw.store hc hfuel
      rw [Store.run, show (LayoutCall.sortIncidenceList).exec 4096 fuel = HF.sortIncidenceList 4096 fuel
        from rfl] at h
      rw [Store.run, h] at hrun
      cases hrun
      exact hR.relaid hc hw.graph.circular

/-- **The layout tools do not change the graph.** -/
theorem layoutCall_answersAlike (hw : hf.WellFormed) (hc : (Store.of hf).Counted)
    (hcall : call.Bijective hf) (hfuel : maxPageNo 4096 * 256 ≤ fuel)
    (h : run (call.exec 4096 fuel) hf = .ok ((), hf')) : hf.AnswersAlike fuel hf' := by
  obtain ⟨hg, hrun⟩ := run_inv hw.good h
  exact relaid_answersAlike hw hc hg (layoutCall_relaid hw hc hcall hfuel hrun) hfuel

/-- A self-loop and a relationship to another node change places. -/
theorem layoutCall_answersAlike_loop : ∃ hf hf', hf.WellFormed ∧
    run ((LayoutCall.swapRelationships 0#64 4#64).exec 4096 (maxPageNo 4096 * 256)) hf =
      .ok ((), hf') ∧
    hf.AnswersAlike (maxPageNo 4096 * 256) hf' := by
  obtain ⟨-, -, hf, -, -, -, -, hw, hc, hrels, -, -⟩ := exists_loopCreated
  have hlive : ∀ x ∈ [0#64, 4#64, 8#64], (Store.of hf).Live .relationship x :=
    fun x hx => Store.mem_liveIds.mp (hrels ▸ hx)
  have h₀ := hlive 0#64 (by decide)
  have h₄ := hlive 4#64 (by decide)
  obtain ⟨s', hswap, -⟩ := Store.run_swapRelationships_renamed hw.store h₀.1 h₄.1 h₀.2.1 h₄.2.1
  obtain ⟨hf', hrun, -, -⟩ := run_ok hw.good hswap
  have hcall : (LayoutCall.swapRelationships 0#64 4#64).Bijective hf := trivial
  exact ⟨hf, hf', hw, hrun, layoutCall_answersAlike hw hc hcall (Nat.le_refl _) hrun⟩

end HeapFile

end Goedb
