import Goedb.Order.SortIncidence

/-!
# Order — when `sort_incidence_list` sorts, and what it breaks

`sort_incidence_list` leaves the first relationship of a node as it is, and at a self-loop it writes the
pointers of the source side only.

* `HeapFile.sortIncidenceList_sorts_iff`: the relationships of every node are returned in the order of
  their ids exactly if the first one of every node was the lowest before.
* `HeapFile.sortIncidenceList_wellFormed_iff`: the heap file is well-formed afterwards exactly if the
  self-loops at nodes with three or more relationships were in their places before.
-/

namespace Goedb

open Lib

/-! ### The order of `expand` -/

namespace Store

/-- The first relationship of every node is the lowest of its relationships. -/
def StartsLowest (s : Store) : Prop :=
  ∀ n nd x r, s.graph.node n = some nd → s.graph.rel x = some r → r.At n →
    nd.firstRelationship.toNat ≤ x.toNat

theorem startsLowest_iff {s : Store} : s.StartsLowest ↔ ∀ n ∈ s.liveIds .node, ∀ x ∈ s.incident n,
    (s.nodeAt n).firstRelationship.toNat ≤ x.toNat := by
  constructor
  · intro h n hn x hx
    obtain ⟨r, hr, ha⟩ := mem_incident.mp hx
    exact h n _ x r (node_eq_some.mpr ⟨mem_liveIds.mp hn, rfl⟩) hr ha
  · intro h n nd x r hn hr ha
    obtain ⟨hl, rfl⟩ := node_eq_some.mp hn
    exact h n (mem_liveIds.mpr hl) x (mem_incident.mpr ⟨r, hr, ha⟩)

variable {s s' : Store} {n k x : Ulong} {ns l : List Ulong} {first : Ulong}

/-- Fewer than three relationships are in order if the first one is the lowest. -/
theorem pairwise_of_length_lt (hd : l.Nodup) (hlen : l.length < 3)
    (hlow : ∀ x ∈ l, (l.headD uninitializedLong).toNat ≤ x.toNat) :
    l.Pairwise fun x y => x.toNat < y.toNat := by
  match l, hd, hlen, hlow with
  | [], _, _, _ => exact .nil
  | [x], _, _, _ => exact List.pairwise_singleton _ x
  | [x, y], hd, _, hlow =>
      refine List.pairwise_pair.mpr (Nat.lt_of_le_of_ne (hlow y (by simp)) fun e => ?_)
      obtain rfl : x = y := BitVec.eq_of_toNat_eq e
      exact (List.nodup_cons.mp hd).1 List.mem_cons_self

/-- The relationships of a node are read in the order of their ids, if the first is the lowest. -/
theorem Resorted.walk_incident (h : s.Resorted ns s') (hv : s.Valid) (hk : k ∈ ns)
    (hw : s.graph.Walk k first l) (hlow : ∀ x ∈ s.incident k, first.toNat ≤ x.toNat) :
    s'.graph.Walk k first (s.incident k) := by
  have hperm := perm_incident hv hw
  have hsorted := pairwise_incident hv k
  by_cases hbig : 3 ≤ (s.incident k).length
  · refine h.walk_of_rotated hv hk hbig (.refl _) ?_
    obtain ⟨y, t, hinc⟩ := List.exists_cons_of_ne_nil
      (List.ne_nil_of_length_pos (Nat.lt_of_lt_of_le (by decide) hbig))
    obtain ⟨z, t', rfl⟩ : ∃ z t', l = z :: t' := by
      refine List.exists_cons_of_ne_nil fun hnil => ?_
      rw [hnil, hinc] at hperm
      exact List.cons_ne_nil y t hperm.nil_eq.symm
    have hfirst : first ∈ s.incident k := by
      rw [← hperm.mem_iff, hw.first_eq]
      exact List.mem_cons_self
    rw [hinc] at hsorted hfirst hlow ⊢
    have hle := hlow y List.mem_cons_self
    rcases List.mem_cons.mp hfirst with he | hmem
    · exact he
    · exact absurd ((List.pairwise_cons.mp hsorted).1 first hmem) (Nat.not_lt.mpr hle)
  · have hl : l = s.incident k := by
      refine List.Pairwise.eq_of_mem_iff (r := fun a b : Ulong => a.toNat < b.toNat) ?_ hsorted
        fun x => hperm.mem_iff
      refine pairwise_of_length_lt hw.nodup (by rw [hperm.length_eq]; omega) fun x hx => ?_
      rw [← hw.first_eq]
      exact hlow x (hperm.mem_iff.mp hx)
    rw [← hl]
    exact h.walk_of_not (fun hb => hbig hb.2) hw

/-! ### The self-loops -/

/-- The pointers of a self-loop that has its place in the sorted cycle. -/
theorem target_foldl_sortAt (ns : List Ulong) : ∀ {r : Relationship}, r.sourceNode = r.targetNode →
    (ns.foldl s.sortAt r).nextRelTarget = r.nextRelTarget ∧
      (ns.foldl s.sortAt r).prevRelTarget = r.prevRelTarget := by
  induction ns with
  | nil => exact fun _ => ⟨rfl, rfl⟩
  | cons n ns ih =>
      intro r hloop
      have hk := s.keeps_sortAt n
      have hloop' : (s.sortAt r n).sourceNode = (s.sortAt r n).targetNode := by
        rw [hk.sourceNode, hk.targetNode, hloop]
      obtain ⟨hnext, hprev⟩ := ih hloop'
      rw [List.foldl_cons, hnext, hprev, sortAt]
      split
      · rename_i hn
        have hsource : r.sourceNode = n := hn.1.elim id hloop.trans
        rw [HF.setPointers, if_pos hsource]
        exact ⟨rfl, rfl⟩
      · exact ⟨rfl, rfl⟩

/-- The self-loops at nodes with three or more relationships are where the sorted cycle has them. -/
def LoopsPlaced (s : Store) : Prop :=
  ∀ n x r, s.graph.rel x = some r → r.sourceNode = n → r.targetNode = n →
    3 ≤ (s.incident n).length → r.nextRelSource = (s.incident n).formPerm x ∧
      r.prevRelSource = (s.incident n).formPerm.symm x

theorem loopsPlaced_iff {s : Store} : s.LoopsPlaced ↔ ∀ x ∈ s.liveIds .relationship,
    (s.relAt x).sourceNode = (s.relAt x).targetNode →
    3 ≤ (s.incident (s.relAt x).sourceNode).length →
    (s.relAt x).nextRelSource = (s.incident (s.relAt x).sourceNode).formPerm x ∧
      (s.relAt x).prevRelSource = (s.incident (s.relAt x).sourceNode).formPerm.symm x := by
  constructor
  · intro h x hx hloop
    exact h _ x _ (rel_eq_some.mpr ⟨mem_liveIds.mp hx, rfl⟩) rfl hloop.symm
  · rintro h n x r hr rfl ht
    obtain ⟨hl, rfl⟩ := rel_eq_some.mp hr
    exact h x (mem_liveIds.mpr hl) ht.symm

namespace Resorted

variable (h : s.Resorted (s.liveIds .node) s') (hw : s.WellFormed)
include h hw

/-- **Every node has its chain**, whatever becomes of the self-loops. -/
theorem chain : ∀ n nd, s'.graph.node n = some nd → ∃ l, s'.graph.Chain n nd.firstRelationship l := by
  intro n nd hn
  rw [h.node] at hn
  obtain ⟨l, hc⟩ := hw.graph.chain n nd hn
  by_cases hbig : n ∈ s.liveIds .node ∧ 3 ≤ (s.incident n).length
  · obtain ⟨l', hrot, hfirst⟩ := exists_rotated hw.valid hc.walk
      (List.ne_nil_of_length_pos (Nat.lt_of_lt_of_le (by decide) hbig.2))
    have hwalk := h.walk_of_rotated hw.valid hbig.1 hbig.2 hrot hfirst
    exact ⟨l', hwalk.nodup, hwalk.mem, h.ring hw.valid hbig.1 hbig.2 hrot, hwalk.first_eq,
      hwalk.first_eq_iff⟩
  · have hwalk := h.walk_of_not hbig hc.walk
    have hmem : ∀ x ∈ l, x ∈ s.incident n := fun x hx => mem_incident.mpr ((hc.mem x).mp hx)
    have hring : Ring (s'.graph.next n) (s'.graph.prev n) l := hc.ring.congr
      (fun x hx => (h.next_eq (hmem x hx)).trans (if_neg hbig))
      fun x hx => (h.prev_eq (hmem x hx)).trans (if_neg hbig)
    exact ⟨l, hwalk.nodup, hwalk.mem, hring, hwalk.first_eq, hwalk.first_eq_iff⟩

omit h in
/-- A self-loop at `n` once the nodes are sorted. -/
theorem loopAgrees_iff {r : Relationship} (hr : s.graph.rel x = some r) (hs : r.sourceNode = n)
    (ht : r.targetNode = n) {r' : Relationship} (hr' : r' = (s.liveIds .node).foldl s.sortAt r) :
    (r'.prevRelSource = r'.prevRelTarget ∧ r'.nextRelSource = r'.nextRelTarget) ↔
      (3 ≤ (s.incident n).length → r.nextRelSource = (s.incident n).formPerm x ∧
        r.prevRelSource = (s.incident n).formPerm.symm x) := by
  subst hr'
  have hk := s.keeps_foldl_sortAt (s.liveIds .node)
  have hloop : r.sourceNode = r.targetNode := hs.trans ht.symm
  obtain ⟨hprev, hnext⟩ := hw.graph.loops x r hr hloop
  obtain ⟨hnext', hprev'⟩ := target_foldl_sortAt (s := s) (s.liveIds .node) hloop
  obtain ⟨hnextAt, hprevAt⟩ := pointers_foldl_sortAt (s := s) (s.liveIds .node) (k := n) (.inl hs)
  obtain ⟨⟨nd, hn⟩, -⟩ := hw.graph.endpoints x r hr
  have hlive : n ∈ s.liveIds .node := by
    rw [mem_liveIds, ← isSome_node, ← hs, hn]
    rfl
  have hsource : n = ((s.liveIds .node).foldl s.sortAt r).sourceNode := by
    rw [hk.sourceNode, hs]
  rw [Relationship.nextAt, if_pos hsource, Relationship.nextAt, if_pos hs.symm, s.keyed x r hr]
    at hnextAt
  rw [Relationship.prevAt, if_pos hsource, Relationship.prevAt, if_pos hs.symm, s.keyed x r hr]
    at hprevAt
  rw [hnext', hprev', ← hnext, ← hprev, hnextAt, hprevAt]
  by_cases hbig : 3 ≤ (s.incident n).length
  · rw [if_pos ⟨hlive, hbig⟩, if_pos ⟨hlive, hbig⟩]
    exact ⟨fun e _ => ⟨e.2.symm, e.1.symm⟩, fun e => ⟨(e hbig).2.symm, (e hbig).1.symm⟩⟩
  · rw [if_neg fun e => hbig e.2, if_neg fun e => hbig e.2]
    exact iff_of_true ⟨rfl, rfl⟩ fun e => absurd e hbig

/-- The self-loops agree afterwards exactly if they are in their places. -/
theorem loopsAgree_iff : s'.graph.LoopsAgree ↔ s.LoopsPlaced := by
  have hk := s.keeps_foldl_sortAt (s.liveIds .node)
  constructor
  · intro hloops n x r hr hs ht
    have hr' : s'.graph.rel x = some ((s.liveIds .node).foldl s.sortAt r) := by
      rw [h.rel, hr]
      rfl
    refine (loopAgrees_iff hw hr hs ht rfl).mp (hloops x _ hr' ?_)
    rw [hk.sourceNode, hk.targetNode, hs, ht]
  · intro hplaced x r' hr' hloop
    rw [h.rel] at hr'
    obtain ⟨r, hr, rfl⟩ := Option.map_eq_some_iff.mp hr'
    rw [hk.sourceNode, hk.targetNode] at hloop
    exact (loopAgrees_iff hw hr hloop rfl rfl).mpr (hplaced _ x r hr hloop rfl)

/-- **The records stay well-formed** but for the self-loops. -/
theorem wellFormed_iff : s'.WellFormed ↔ s.LoopsPlaced := by
  rw [← h.loopsAgree_iff hw]
  refine ⟨fun hw' => hw'.graph.loops, fun hloops => ⟨h.slots.valid hw.valid, fun x r' hr' => ?_,
    h.chain hw, hloops, fun x r' hr' => ?_⟩⟩
  all_goals
    have hk := s.keeps_foldl_sortAt (s.liveIds .node)
    rw [h.rel] at hr'
    obtain ⟨r, hr, rfl⟩ := Option.map_eq_some_iff.mp hr'
  · rw [hk.weight]
    exact hw.weights x r hr
  · rw [hk.sourceNode, hk.targetNode, h.node]
    exact hw.graph.endpoints x r hr

end Resorted

end Store

/-! ### What is wanted -/

namespace HeapFile

variable {hf : HeapFile PhyDatabase} {fuel : ℕ}

/-- `sort_incidence_list` returns, and then `expand` returns the relationships that it returned before,
for every node, in the order of their ids. -/
def SortsIncidence (hf : HeapFile PhyDatabase) (fuel : ℕ) : Prop :=
  ∃ hf₁, run (HF.sortIncidenceList 4096 fuel) hf = .ok ((), hf₁) ∧
    ∀ n, (Store.of hf).Live .node n → ∃ rels rels' hf' hf₁',
      run (HF.expand fuel n .both) hf = .ok (rels, hf') ∧
      run (HF.expand fuel n .both) hf₁ = .ok (rels', hf₁') ∧
      (rels.map fun r => (r.id, r.payload)).Perm (rels'.map fun r => (r.id, r.payload)) ∧
      (rels'.map Relationship.id).Pairwise fun x y => x.toNat < y.toNat

/-- What `sort_incidence_list` does. -/
theorem run_sortIncidenceList (hw : hf.WellFormed) (hc : (Store.of hf).Counted)
    (hfuel : maxPageNo 4096 * 256 ≤ fuel) :
    ∃ hf₁, run (HF.sortIncidenceList 4096 fuel) hf = .ok ((), hf₁) ∧ hf₁.Good ∧
      (Store.of hf).Resorted ((Store.of hf).liveIds .node) (Store.of hf₁) := by
  obtain ⟨s', hrun, hR⟩ := Store.run_sortIncidenceList hw.store hc hfuel
  obtain ⟨hf₁, hrun', hgood, rfl⟩ := run_ok hw.good hrun
  exact ⟨hf₁, hrun', hgood, hR⟩

/-- `expand` on a heap file whose nodes have their cycles. -/
theorem run_expand (hg : hf.Good) (hv : (Store.of hf).Valid) {n : Ulong} {nd : Node} {l : List Ulong}
    (hn : hf.graph.node n = some nd) (hw : hf.graph.Walk n nd.firstRelationship l)
    (hfuel : maxPageNo 4096 * 256 ≤ fuel) (direction : Direction) :
    ∃ hf', run (HF.expand fuel n direction) hf = .ok (hf.graph.expand n direction l, hf') := by
  have hlen := Store.walk_length_le hw
  have hpages := hv.pages_lt .relationship
  have hlt : l.length < fuel := by omega
  obtain ⟨hf', hrun, -, -⟩ := run_ok hg (Store.run_expand hv hn hw direction hlt)
  exact ⟨hf', hrun⟩

theorem startsLowest_of_sorts (hw : hf.WellFormed) (hc : (Store.of hf).Counted)
    (hfuel : maxPageNo 4096 * 256 ≤ fuel) (h : hf.SortsIncidence fuel) : (Store.of hf).StartsLowest := by
  obtain ⟨hf₁, hrun, hgood, hR⟩ := run_sortIncidenceList hw hc hfuel
  obtain ⟨hf₁', hrun', hall⟩ := h
  obtain rfl : hf₁ = hf₁' := by
    rw [hrun] at hrun'
    cases hrun'
    rfl
  intro n nd x r hn hr ha
  have hlive : (Store.of hf).Live .node n := (Store.node_eq_some.mp hn).1
  obtain ⟨rels, rels', hf', hf₂, -, hexpand, -, hsorted⟩ := hall n hlive
  have hn₁ : hf₁.graph.node n = some nd := (congrFun hR.node n).trans hn
  obtain ⟨l, hwalk⟩ := hR.circular hw.store.valid hw.graph.circular n nd hn₁
  obtain ⟨hf₂', hexpand'⟩ := run_expand hgood (hR.slots.valid hw.store.valid) hn₁ hwalk hfuel .both
  rw [hexpand] at hexpand'
  cases hexpand'
  have hids : (hf₁.graph.expand n .both l).map Relationship.id = l :=
    hwalk.map_id_expand_both (Store.keyed _)
  rw [hids] at hsorted
  have hx : x ∈ l := (hwalk.mem x).mpr (hR.exists_rel_iff.mpr ⟨r, hr, ha⟩)
  rw [hwalk.first_eq]
  cases l with
  | nil => cases hx
  | cons y l =>
      rcases List.mem_cons.mp hx with rfl | hx
      · exact Nat.le_refl _
      · exact Nat.le_of_lt ((List.pairwise_cons.mp hsorted).1 x hx)

theorem sorts_of_startsLowest (hw : hf.WellFormed) (hc : (Store.of hf).Counted)
    (hfuel : maxPageNo 4096 * 256 ≤ fuel) (h : (Store.of hf).StartsLowest) : hf.SortsIncidence fuel := by
  have hv := hw.store.valid
  obtain ⟨hf₁, hrun, hgood, hR⟩ := run_sortIncidenceList hw hc hfuel
  refine ⟨hf₁, hrun, fun n hlive => ?_⟩
  obtain ⟨nd, hn⟩ := Option.isSome_iff_exists.mp (Store.isSome_node.mpr hlive)
  obtain ⟨l, hwalk⟩ := hw.graph.circular n nd hn
  have hlow : ∀ x ∈ (Store.of hf).incident n, nd.firstRelationship.toNat ≤ x.toNat := by
    intro x hx
    obtain ⟨r, hr, ha⟩ := Store.mem_incident.mp hx
    exact h n nd x r hn hr ha
  have hn₁ : hf₁.graph.node n = some nd := (congrFun hR.node n).trans hn
  have hwalk₁ : hf₁.graph.Walk n nd.firstRelationship ((Store.of hf).incident n) :=
    hR.walk_incident hv (Store.mem_liveIds.mpr hlive) hwalk hlow
  obtain ⟨hf', hexpand⟩ := run_expand hw.good hv hn hwalk hfuel .both
  obtain ⟨hf₁', hexpand₁⟩ := run_expand hgood (hR.slots.valid hv) hn₁ hwalk₁ hfuel .both
  have hids : (hf₁.graph.expand n .both ((Store.of hf).incident n)).map Relationship.id = _ :=
    hwalk₁.map_id_expand_both (Store.keyed _)
  refine ⟨_, _, hf', hf₁', hexpand, hexpand₁, ?_, ?_⟩
  · exact hwalk.perm_expand (Store.keyed _) (Store.keyed _) hwalk₁
      (Graph.retells_of_keeps (Store.keeps_foldl_sortAt _ _) hR.rel) .both
  · rw [hids]
    exact Store.pairwise_incident hv n

/-- Two nodes, a self-loop at the first one and two relationships to the second. -/
def loopAndTwo : List Creation :=
  [.node 7#64, .node 8#64, .relationship 0#64 0#64 0#64 5#64, .relationship 0#64 1#64 0#64 6#64,
    .relationship 0#64 1#64 0#64 9#64]

/-- As they are created, the relationships are sorted. -/
theorem exists_loopCreated : ∃ db hf₀ hf ids, PhyDatabase.create 4096 = .ok db ∧
    create 4096 1000 (PhyDatabase.flat 4096) db = .ok hf₀ ∧
    run (HF.creations 4096 1000 loopAndTwo) hf₀ = .ok (ids, hf) ∧ hf.WellFormed ∧
    (Store.of hf).Counted ∧ (Store.of hf).liveIds .relationship = [0#64, 4#64, 8#64] ∧
    (Store.of hf).StartsLowest ∧ (Store.of hf).LoopsPlaced := by
  have h : Prog.check Store.step (HF.creations 4096 1000 loopAndTwo) Store.empty (fun _ s => decide
      (s.liveIds .node = [0#64, 1#64] ∧ s.liveIds .relationship = [0#64, 4#64, 8#64] ∧
        s.incident 0#64 = [0#64, 4#64, 8#64] ∧ s.incident 1#64 = [4#64, 8#64] ∧
        (s.nodeAt 0#64).firstRelationship = 0#64 ∧ (s.nodeAt 1#64).firstRelationship = 4#64 ∧
        (s.relAt 0#64).sourceNode = 0#64 ∧ (s.relAt 0#64).nextRelSource = 4#64 ∧
        (s.relAt 0#64).prevRelSource = 8#64 ∧
        (s.relAt 4#64).sourceNode ≠ (s.relAt 4#64).targetNode ∧
        (s.relAt 8#64).sourceNode ≠ (s.relAt 8#64).targetNode)) = true := by
    decide +kernel
  obtain ⟨ids, s, hrun, hp⟩ := Prog.check_inv _ h
  obtain ⟨hnodes, hrels, hinc₀, hinc₁, hfirst₀, hfirst₁, hsource, hnext, hprev, h₄, h₈⟩ :=
    of_decide_eq_true hp
  have hc := Store.counted_of_creations hrun
  obtain ⟨db, hf₀, hf, hdb, hcreate, hrun', hw, rfl⟩ := exists_created hrun
  refine ⟨db, hf₀, hf, ids, hdb, hcreate, hrun', hw, hc, hrels, Store.startsLowest_iff.mpr ?_,
    Store.loopsPlaced_iff.mpr ?_⟩
  · rw [hnodes, List.forall_mem_cons, List.forall_mem_singleton, hinc₀, hinc₁, hfirst₀, hfirst₁]
    exact ⟨fun x _ => Nat.zero_le _, by simp⟩
  · rw [hrels, List.forall_mem_cons, List.forall_mem_cons, List.forall_mem_singleton, hsource, hinc₀,
      hnext, hprev]
    exact ⟨fun _ _ => by decide, fun e => absurd e h₄, fun e => absurd e h₈⟩

/-- The self-loop and the first of the others are exchanged. -/
theorem exists_loopSwapped : ∃ db hf₀ hf₁ hf ids, PhyDatabase.create 4096 = .ok db ∧
    create 4096 1000 (PhyDatabase.flat 4096) db = .ok hf₀ ∧
    run (HF.creations 4096 1000 loopAndTwo) hf₀ = .ok (ids, hf₁) ∧
    run (HF.swapRelationships 4096 0#64 4#64) hf₁ = .ok ((), hf) ∧ hf.WellFormed ∧
    (Store.of hf).Counted ∧ ¬ (Store.of hf).StartsLowest ∧ ¬ (Store.of hf).LoopsPlaced := by
  have h : Prog.check Store.step (HF.creations 4096 1000 loopAndTwo >>= fun _ =>
      HF.swapRelationships 4096 0#64 4#64) Store.empty (fun _ s => decide
      (s.liveIds .node = [0#64, 1#64] ∧ s.liveIds .relationship = [0#64, 4#64, 8#64] ∧
        s.incident 0#64 = [0#64, 4#64, 8#64] ∧ (s.nodeAt 0#64).firstRelationship = 4#64 ∧
        (s.relAt 4#64).sourceNode = 0#64 ∧ (s.relAt 4#64).targetNode = 0#64 ∧
        (s.relAt 4#64).nextRelSource = 0#64)) = true := by
    decide +kernel
  obtain ⟨u, s, hrun, hp⟩ := Prog.check_inv _ h
  obtain ⟨hnodes, hrels, hinc, hfirst, hsource, htarget, hnext⟩ := of_decide_eq_true hp
  obtain ⟨db, hf₀, hf₁, ids, hdb, hcreate, hrun₁, hw, hc, hrels₁, -, -⟩ := exists_loopCreated
  obtain ⟨hgood₀, hempty⟩ := create_inv hdb hcreate
  obtain ⟨-, hrun₁'⟩ := run_inv hgood₀ hrun₁
  rw [hempty] at hrun₁'
  rw [Prog.run_bind_ok _ hrun₁'] at hrun
  have hlive : ∀ x ∈ [0#64, 4#64, 8#64], (Store.of hf₁).Live .relationship x :=
    fun x hx => Store.mem_liveIds.mp (hrels₁ ▸ hx)
  have h₀ := hlive 0#64 (by decide)
  have h₄ := hlive 4#64 (by decide)
  obtain ⟨s', hswap, hR⟩ := Store.run_swapRelationships_renamed hw.store h₀.1 h₄.1 h₀.2.1 h₄.2.1
  obtain rfl : s = s' := by
    rw [Store.run, hrun] at hswap
    cases hswap
    rfl
  obtain ⟨hf, hswap', hgood, rfl⟩ := run_ok hw.good hrun
  refine ⟨db, hf₀, hf₁, hf, ids, hdb, hcreate, hrun₁, hswap', ⟨hgood, hR.wellFormed⟩, hR.counted hc,
    fun hlow => ?_, fun hplaced => ?_⟩
  · have hle := Store.startsLowest_iff.mp hlow 0#64 (hnodes ▸ by decide) 0#64 (hinc ▸ by decide)
    rw [hfirst] at hle
    exact absurd hle (by decide)
  · have hloop := Store.loopsPlaced_iff.mp hplaced 4#64 (hrels ▸ by decide) (hsource.trans htarget.symm)
    rw [hsource, hinc, hnext] at hloop
    exact absurd (hloop (by decide)).1 (by decide)

/-- **When the relationships get sorted**: if the first relationship of every node was the lowest. -/
theorem sortIncidenceList_sorts_iff (hw : hf.WellFormed) (hc : (Store.of hf).Counted)
    (hfuel : maxPageNo 4096 * 256 ≤ fuel) : hf.SortsIncidence fuel ↔ (Store.of hf).StartsLowest :=
  ⟨startsLowest_of_sorts hw hc hfuel, sorts_of_startsLowest hw hc hfuel⟩

theorem sortIncidenceList_sorts_iff_loop : ∃ hf : HeapFile PhyDatabase, hf.WellFormed ∧
    hf.SortsIncidence (maxPageNo 4096 * 256) := by
  obtain ⟨-, -, hf, -, -, -, -, hw, hc, -, hlow, -⟩ := exists_loopCreated
  exact ⟨hf, hw, (sortIncidenceList_sorts_iff hw hc (Nat.le_refl _)).mpr hlow⟩

/-- After an exchange of relationships the first one of a node need not be the lowest. -/
theorem sortIncidenceList_not_sorted : ∃ db hf₀ hf₁ hf ids, PhyDatabase.create 4096 = .ok db ∧
    create 4096 1000 (PhyDatabase.flat 4096) db = .ok hf₀ ∧
    run (HF.creations 4096 1000 loopAndTwo) hf₀ = .ok (ids, hf₁) ∧
    run (HF.swapRelationships 4096 0#64 4#64) hf₁ = .ok ((), hf) ∧ hf.WellFormed ∧
    ∀ fuel ≥ maxPageNo 4096 * 256, ¬ hf.SortsIncidence fuel := by
  obtain ⟨db, hf₀, hf₁, hf, ids, hdb, hcreate, hrun, hswap, hw, hc, hlow, -⟩ := exists_loopSwapped
  exact ⟨db, hf₀, hf₁, hf, ids, hdb, hcreate, hrun, hswap, hw,
    fun fuel hfuel h => hlow (startsLowest_of_sorts hw hc hfuel h)⟩

/-- **When the heap file stays well-formed**: if the self-loops are in their places. -/
theorem sortIncidenceList_wellFormed_iff (hw : hf.WellFormed) (hc : (Store.of hf).Counted)
    (hfuel : maxPageNo 4096 * 256 ≤ fuel) :
    (∃ hf₁, run (HF.sortIncidenceList 4096 fuel) hf = .ok ((), hf₁) ∧ hf₁.WellFormed) ↔
      (Store.of hf).LoopsPlaced := by
  obtain ⟨hf₁, hrun, hgood, hR⟩ := run_sortIncidenceList hw hc hfuel
  rw [← hR.wellFormed_iff hw.store]
  constructor
  · rintro ⟨hf₁', hrun', hw₁⟩
    rw [hrun] at hrun'
    cases hrun'
    exact hw₁.store
  · exact fun hw₁ => ⟨hf₁, hrun, hgood, hw₁⟩

theorem sortIncidenceList_wellFormed_iff_loop : ∃ hf hf₁ : HeapFile PhyDatabase, hf.WellFormed ∧
    run (HF.sortIncidenceList 4096 (maxPageNo 4096 * 256)) hf = .ok ((), hf₁) ∧ hf₁.WellFormed := by
  obtain ⟨-, -, hf, -, -, -, -, hw, hc, -, -, hplaced⟩ := exists_loopCreated
  obtain ⟨hf₁, hrun, hw₁⟩ :=
    (sortIncidenceList_wellFormed_iff hw hc (Nat.le_refl _)).mpr hplaced
  exact ⟨hf, hf₁, hw, hrun, hw₁⟩

/-- The self-loop is not where the sorted cycle has it, and its two sides part. -/
theorem sortIncidenceList_not_wellFormed : ∃ db hf₀ hf₁ hf ids, PhyDatabase.create 4096 = .ok db ∧
    create 4096 1000 (PhyDatabase.flat 4096) db = .ok hf₀ ∧
    run (HF.creations 4096 1000 loopAndTwo) hf₀ = .ok (ids, hf₁) ∧
    run (HF.swapRelationships 4096 0#64 4#64) hf₁ = .ok ((), hf) ∧ hf.WellFormed ∧
    ∀ fuel ≥ maxPageNo 4096 * 256, ∃ hf₂,
      run (HF.sortIncidenceList 4096 fuel) hf = .ok ((), hf₂) ∧ ¬ hf₂.graph.LoopsAgree := by
  obtain ⟨db, hf₀, hf₁, hf, ids, hdb, hcreate, hrun, hswap, hw, hc, -, hplaced⟩ :=
    exists_loopSwapped
  refine ⟨db, hf₀, hf₁, hf, ids, hdb, hcreate, hrun, hswap, hw, fun fuel hfuel => ?_⟩
  obtain ⟨hf₂, hsort, hgood, hR⟩ := run_sortIncidenceList hw hc hfuel
  exact ⟨hf₂, hsort, fun hloops => hplaced ((hR.loopsAgree_iff hw.store).mp hloops)⟩

end HeapFile

end Goedb
