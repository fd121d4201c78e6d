import Goedb.Access.Retelling
import Goedb.Order.BySequence

/-!
# Order — `reorder_relationships_by_nodes`

Every relationship goes out of one node, so the loop over the nodes collects each of them once
(`Store.perm_flatMap_outgoing`) and fills `new_order` exactly.  With the relationships at the first slots
the new ids are a rearrangement of the old ones, and `get_relationships` then lists the relationships
node by node (`HeapFile.reorderRelationshipsByNodes_groups`).
-/

namespace Goedb

open Lib

/-! ### The new order -/

namespace Store

variable {s : Store} {out : Ulong → List Relationship} {fuel : ℕ}

/-- `out` is what `expand` returns for the outgoing relationships of a node. -/
def Outgoing (s : Store) (fuel : ℕ) (out : Ulong → List Relationship) : Prop :=
  ∀ n, s.Live .node n → run (HF.expand fuel n .outgoing) s = .ok (out n, s) ∧
    ((out n).map Relationship.id).Nodup ∧
    ∀ r, r ∈ out n ↔ s.graph.rel r.id = some r ∧ r.sourceNode = n

theorem exists_outgoing (hv : s.Valid) (hc : s.graph.Circular) (hfuel : maxPageNo 4096 * 256 ≤ fuel) :
    ∃ out, s.Outgoing fuel out := by
  have h : ∀ n, ∃ rels, s.Live .node n → run (HF.expand fuel n .outgoing) s = .ok (rels, s) ∧
      (rels.map Relationship.id).Nodup ∧
      ∀ r, r ∈ rels ↔ s.graph.rel r.id = some r ∧ r.sourceNode = n := by
    intro n
    by_cases hl : s.Live .node n
    · obtain ⟨nd, hn⟩ := Option.isSome_iff_exists.mp (isSome_node.mpr hl)
      obtain ⟨l, hw⟩ := hc n nd hn
      have hlen := walk_length_le hw
      have hpages := hv.pages_lt .relationship
      refine ⟨_, fun _ => ⟨run_expand hv hn hw .outgoing (by omega), ?_, fun r => ?_⟩⟩
      · rw [Graph.map_id_expand s.keyed]
        exact hw.nodup.filter _
      · rw [hw.mem_expand s.keyed]
        simp [Relationship.Goes]
    · exact ⟨[], fun hl' => absurd hl' hl⟩
  choose out hout using h
  exact ⟨out, hout⟩

variable (h : s.Outgoing fuel out)
include h

/-- `new_order` is filled node by node. -/
theorem Outgoing.run_collectOrder (ns : List Ulong) : ∀ {free : ℕ}, (∀ n ∈ ns, s.Live .node n) →
    (ns.flatMap out).length ≤ free →
    run (HF.collectOrder fuel ns.length (ns.map s.nodeAt) free) s =
      .ok (((ns.flatMap out).map Relationship.id, free - (ns.flatMap out).length), s) := by
  induction ns with
  | nil => exact fun _ _ => rfl
  | cons n ns ih =>
      intro free hlive hlen
      rw [List.flatMap_cons, List.length_append] at hlen
      obtain ⟨hexpand, -, -⟩ := h n (hlive n List.mem_cons_self)
      have hfill : HF.fillOrder free (out n) =
          .ok ((out n).map Relationship.id, free - (out n).length) := if_pos (by omega)
      have hrest := @ih (free - (out n).length)
        (fun m hm => hlive m (List.mem_cons_of_mem n hm)) (by omega)
      have hid : (s.nodeAt n).id = n := rfl
      rw [List.length_cons, List.map_cons, run, HF.collectOrder, hid, Prog.run_bind_ok _ hexpand,
        Prog.run_bind_ok _ (run_lift hfill s)]
      refine (Prog.run_bind_ok _ hrest _).trans ?_
      rw [List.flatMap_cons, List.map_append, List.length_append, Nat.sub_sub]
      rfl

/-- **Every relationship goes out of one node.** -/
theorem Outgoing.perm_flatMap_outgoing (hw : s.WellFormed) :
    (((s.liveIds .node).flatMap out).map Relationship.id).Perm (s.liveIds .relationship) := by
  have hd : (((s.liveIds .node).flatMap out).map Relationship.id).Nodup := by
    rw [List.map_flatMap, List.nodup_flatMap]
    refine ⟨fun n hn => (h n (mem_liveIds.mp hn)).2.1, ?_⟩
    refine (nodup_liveIds hw.valid).imp_of_mem fun {n m} hn hm hne => ?_
    rw [Function.onFun, List.disjoint_left]
    intro x hx hx'
    obtain ⟨r, hr, rfl⟩ := List.mem_map.mp hx
    obtain ⟨r', hr', he⟩ := List.mem_map.mp hx'
    obtain ⟨hrel, hs⟩ := ((h n (mem_liveIds.mp hn)).2.2 r).mp hr
    obtain ⟨hrel', hs'⟩ := ((h m (mem_liveIds.mp hm)).2.2 r').mp hr'
    rw [he, hrel] at hrel'
    cases hrel'
    exact hne (hs.symm.trans hs')
  refine (List.perm_ext_iff_of_nodup hd (nodup_liveIds hw.valid)).mpr fun x => ?_
  rw [List.mem_map, mem_liveIds, ← isSome_rel, Option.isSome_iff_exists]
  constructor
  · rintro ⟨r, hr, rfl⟩
    obtain ⟨n, hn, hr⟩ := List.mem_flatMap.mp hr
    exact ⟨r, (((h n (mem_liveIds.mp hn)).2.2 r).mp hr).1⟩
  · rintro ⟨r, hr⟩
    obtain ⟨⟨nd, hn⟩, -⟩ := hw.graph.endpoints x r hr
    have hlive : s.Live .node r.sourceNode := (node_eq_some.mp hn).1
    have hid := s.keyed x r hr
    exact ⟨r, List.mem_flatMap.mpr ⟨_, mem_liveIds.mpr hlive,
      ((h _ hlive).2.2 r).mpr ⟨hid.symm ▸ hr, rfl⟩⟩, hid⟩

/-- **`new_order` is filled exactly.** -/
theorem Outgoing.run_collectOrder_liveIds (hw : s.WellFormed) (hc : s.Counted) :
    run (HF.collectOrder fuel s.counters.nNodes.toNat ((s.liveIds .node).map s.nodeAt)
        s.counters.nRels.toNat) s =
      .ok ((((s.liveIds .node).flatMap out).map Relationship.id, 0), s) := by
  have hlen : ((s.liveIds .node).flatMap out).length = s.counters.nRels.toNat := by
    rw [← List.length_map Relationship.id, (h.perm_flatMap_outgoing hw).length_eq]
    exact (hc.toNat_number .relationship).symm
  have hcount : (s.liveIds .node).length = s.counters.nNodes.toNat := (hc.toNat_number .node).symm
  have hcollect := h.run_collectOrder (s.liveIds .node) (fun n hn => mem_liveIds.mp hn)
    (Nat.le_of_eq hlen)
  rwa [hcount, hlen, Nat.sub_self] at hcollect

/-- `reorder_relationships_by_nodes` is `reorder_relationships_by_sequence`. -/
theorem Outgoing.run_reorderRelationshipsByNodes (hw : s.WellFormed) (hc : s.Counted)
    (hfuel : maxPageNo 4096 * 256 ≤ fuel) :
    run (HF.reorderRelationshipsByNodes 4096 fuel) s = run (HF.reorderRelationshipsBySequence 4096 fuel
      (((s.liveIds .node).flatMap out).map Relationship.id)) s := by
  have hpages := hw.valid.pages_lt .node
  have hget : run (Prog.perform .getCounters) s = .ok (s.counters, s) := rfl
  have hnodes : s.pages .node * 256 < fuel := by omega
  rw [run, HF.reorderRelationshipsByNodes, Prog.run_bind_ok _ hget,
    Prog.run_bind_ok _ (run_getNodes hw.valid hnodes),
    Prog.run_bind_ok _ (h.run_collectOrder_liveIds hw hc)]
  simp only [List.replicate_zero, List.append_nil]

/-- The relationships of one source in the new order. -/
theorem Outgoing.filter_flatMap {n : Ulong} (ns : List Ulong) (hlive : ∀ m ∈ ns, s.Live .node m)
    (hd : ns.Nodup) (hn : n ∈ ns) :
    ((ns.flatMap out).filter fun r => r.sourceNode = n) = out n := by
  induction ns with
  | nil => cases hn
  | cons m ns ih =>
      have hsource : ∀ m' ∈ m :: ns, ∀ r ∈ out m', r.sourceNode = m' :=
        fun m' hm' r hr => (((h m' (hlive m' hm')).2.2 r).mp hr).2
      obtain ⟨hm, hd⟩ := List.nodup_cons.mp hd
      rw [List.flatMap_cons, List.filter_append]
      rcases List.mem_cons.mp hn with rfl | hn
      · have hall : ((out n).filter fun r => r.sourceNode = n) = out n :=
          List.filter_eq_self.mpr fun r hr =>
            decide_eq_true (hsource n List.mem_cons_self r hr)
        have hnone : ((ns.flatMap out).filter fun r => r.sourceNode = n) = [] := by
          refine List.filter_eq_nil_iff.mpr fun r hr => ?_
          obtain ⟨m', hm', hr⟩ := List.mem_flatMap.mp hr
          rw [decide_eq_true_eq, hsource m' (List.mem_cons_of_mem n hm') r hr]
          rintro rfl
          exact hm hm'
        rw [hall, hnone, List.append_nil]
      · have hnone : ((out m).filter fun r => r.sourceNode = n) = [] := by
          refine List.filter_eq_nil_iff.mpr fun r hr => ?_
          rw [decide_eq_true_eq, hsource m List.mem_cons_self r hr]
          rintro rfl
          exact hm hn
        rw [hnone, List.nil_append]
        exact ih (fun m' hm' => hlive m' (List.mem_cons_of_mem m hm')) hd hn

/-- The new order has ascending sources. -/
theorem Outgoing.pairwise_flatMap {ns : List Ulong} (hlive : ∀ m ∈ ns, s.Live .node m)
    (hns : ns.Pairwise fun x y => x.toNat < y.toNat) :
    (ns.flatMap out).Pairwise fun r r' => r.sourceNode.toNat ≤ r'.sourceNode.toNat := by
  have hsource : ∀ m ∈ ns, ∀ r ∈ out m, r.sourceNode = m :=
    fun m hm r hr => (((h m (hlive m hm)).2.2 r).mp hr).2
  refine List.pairwise_flatMap.mpr ⟨fun m hm => ?_, ?_⟩
  · refine List.pairwise_of_forall_mem_list fun r hr r' hr' => ?_
    rw [hsource m hm r hr, hsource m hm r' hr']
  · refine hns.imp_of_mem fun {m m'} hm hm' hlt r hr r' hr' => ?_
    rw [hsource m hm r hr, hsource m' hm' r' hr']
    exact Nat.le_of_lt hlt

/-- What the relationships of the new order say, read from the store. -/
theorem Outgoing.map_relAt (ns : List Ulong) (hlive : ∀ m ∈ ns, s.Live .node m) :
    ((ns.flatMap out).map Relationship.id).map s.relAt = ns.flatMap out := by
  rw [List.map_map]
  refine (List.map_congr_left fun r hr => ?_).trans (List.map_id _)
  obtain ⟨m, hm, hr⟩ := List.mem_flatMap.mp hr
  exact (rel_eq_some.mp (((h m (hlive m hm)).2.2 r).mp hr).1).2

omit h in
/-- A relationship that is renamed says what it said. -/
theorem Renamed.payload_relAt {s' : Store} {π : Renaming} (hR : s.Renamed .relationship π s')
    {x : Ulong} (hx : s.Live .relationship x) :
    (s'.relAt (π x)).payload = (s.relAt x).payload := by
  have hg : s'.graph.rel (π x) = (s.graph.rel x).map (Relationship.rename 1 π) := by
    rw [hR.graph]
    exact Graph.rename_rel
  rw [rel_eq_some.mpr ⟨hx, rfl⟩] at hg
  rw [(rel_eq_some.mp hg).2]
  rfl

end Store

/-! ### The new ids -/

/-- **The temporary database** numbers the relationships, with its header file grown by hand. -/
theorem tempIds_relationship {fuel nPages n : ℕ} (hpages : 1 ≤ nPages) (hle : nPages ≤ 2 ^ 50)
    (hn : n * 4 ≤ 256 * (maxPageNo 4096 - 1)) (hfuel : maxPageNo 4096 * 256 ≤ fuel) :
    tempIds 4096 fuel .relationship (growRelationshipHeader 4096 nPages) nPages n =
      .ok (Store.idsFrom .relationship 0 n) := by
  have hone : ((PhyDatabase.fresh 4096).header .relationship).numPages = 1 := rfl
  have hroom : ((PhyDatabase.fresh 4096).header .relationship).numPages + nPages < maxPageNo 4096 := by
    rw [hone, show maxPageNo 4096 = 2251799813685247 by decide]
    omega
  obtain ⟨header, hgrow, hG⟩ := DiskFile.grow_ok hroom
  have hprepare : growRelationshipHeader 4096 nPages (.fresh 4096) = .ok { PhyDatabase.fresh 4096 with
      header := Function.update (PhyDatabase.fresh 4096).header .relationship header } := by
    rw [growRelationshipHeader, hgrow]
    rfl
  refine tempIds_ok hpages hprepare ⟨fun fk ft => ?_, rfl⟩ hle hn hfuel
  cases fk with
  | catalogue => exact ⟨0, Nat.zero_le _, .refl _, fun _ => rfl⟩
  | records => exact ⟨0, Nat.zero_le _, .refl _, fun _ => rfl⟩
  | header =>
      cases ft with
      | node => exact ⟨0, Nat.zero_le _, .refl _, fun _ => rfl⟩
      | relationship => exact ⟨nPages, Nat.le_refl _, hG, fun e => absurd rfl e⟩

namespace HeapFile

variable {hf : HeapFile PhyDatabase} {fuel : ℕ} {sequence : List Ulong}

/-- The first slots are slots of the file. -/
theorem FirstSlots.number_le (hfirst : hf.FirstSlots .relationship) (hv : (Store.of hf).Valid) :
    hf.counters.nRels.toNat * 4 ≤ 256 * (Store.of hf).pages .relationship := by
  have hpages := hv.pages_lt .relationship
  have hmax : maxPageNo 4096 < 2 ^ 51 := by decide
  by_contra hgt
  -- the slot beyond the last page would be in use
  have hx : (BitVec.ofNat 64 (256 * (Store.of hf).pages .relationship)).toNat =
      256 * (Store.of hf).pages .relationship := by
    rw [BitVec.toNat_ofNat]
    exact Nat.mod_eq_of_lt (by omega)
  have hlive : (Store.of hf).Live .relationship
      (BitVec.ofNat 64 (256 * (Store.of hf).pages .relationship)) := by
    refine (hfirst _).mpr ?_
    rw [hx]
    exact ⟨by show 256 * _ % 4 = 0; omega, Nat.lt_of_not_le hgt⟩
  have hpage := hlive.2.1
  rw [hx] at hpage
  omega

/-- The ids of relationships without gaps. -/
theorem FirstSlots.liveIds_eq (hfirst : hf.FirstSlots .relationship) (hv : (Store.of hf).Valid) :
    (Store.of hf).liveIds .relationship = Store.idsFrom .relationship 0 hf.counters.nRels.toNat := by
  have hle := hfirst.number_le hv
  have hpages := hv.pages_lt .relationship
  have hmax : maxPageNo 4096 < 2 ^ 51 := by decide
  have hid : ∀ i < hf.counters.nRels.toNat, (BitVec.ofNat 64 (i * 4)).toNat = i * 4 := by
    intro i hi
    rw [BitVec.toNat_ofNat]
    exact Nat.mod_eq_of_lt (by omega)
  have hfour : numSlotsPer .relationship = 4 := rfl
  refine List.Pairwise.eq_of_mem_iff (r := fun a b : Ulong => a.toNat < b.toNat)
    (Store.pairwise_liveIds hv) ?_ fun x => ?_
  · rw [Store.idsFrom, ← List.range_eq_range', hfour, List.pairwise_map]
    refine List.Pairwise.imp_of_mem (fun {a b} ha hb hab => ?_) List.pairwise_lt_range
    rw [List.mem_range] at ha hb
    rw [hid a ha, hid b hb]
    omega
  · rw [Store.mem_liveIds, hfirst, Store.idsFrom, ← List.range_eq_range', hfour, List.mem_map]
    constructor
    · rintro ⟨ha, hlt⟩
      refine ⟨x.toNat / 4, List.mem_range.mpr (Nat.div_lt_of_lt_mul (Nat.mul_comm _ 4 ▸ hlt)), ?_⟩
      rw [Nat.div_mul_cancel (Nat.dvd_of_mod_eq_zero ha), BitVec.ofNat_toNat, BitVec.setWidth_eq]
    · rintro ⟨i, hi, rfl⟩
      rw [List.mem_range] at hi
      rw [hid i hi]
      exact ⟨Nat.mul_mod_left i 4, Nat.mul_lt_mul_of_pos_right hi (by decide)⟩

/-- The temporary database gets at least one frame, and far fewer than there are pages. -/
theorem nPagesOfRels_bounds {c : Counters} (hpos : 0 < c.nRels.toNat)
    (hle : c.nRels.toNat * 4 ≤ 2 ^ 59) :
    1 ≤ nPagesOfRels 4096 c ∧ nPagesOfRels 4096 c ≤ 2 ^ 50 := by
  rw [nPagesOfRels, show numSlotsPer .relationship = 4 from rfl, show 4096 * charBit = 32768 from rfl,
    Nat.mod_eq_of_lt (by omega)]
  split <;> omega

/-- **`reorder_relationships_by_sequence`** puts the relationships of the sequence at the first slots. -/
theorem run_reorderRelationshipsBySequence (hw : hf.WellFormed) (hfirst : hf.FirstSlots .relationship)
    (hpos : 0 < hf.counters.nRels.toNat)
    (hsequence : sequence.Perm ((Store.of hf).liveIds .relationship))
    (hfuel : maxPageNo 4096 * 256 ≤ fuel) : ∃ hf₁ π,
      run (HF.reorderRelationshipsBySequence 4096 fuel sequence) hf = .ok ((), hf₁) ∧ hf₁.Good ∧
      (Store.of hf).Renamed .relationship π (Store.of hf₁) ∧
      sequence.map π = (Store.of hf).liveIds .relationship ∧
      (Store.of hf₁).liveIds .relationship = (Store.of hf).liveIds .relationship := by
  have hv := hw.store.valid
  have hle := hfirst.number_le hv
  have hpages := hv.pages_lt .relationship
  have hturns : hf.counters.nRels.toNat < fuel := by omega
  have hslots : hf.counters.nRels.toNat * 4 ≤ 256 * (maxPageNo 4096 - 1) :=
    hle.trans (Nat.mul_le_mul_left 256 (Nat.le_sub_one_of_lt hpages))
  have hmax : 256 * (maxPageNo 4096 - 1) ≤ 2 ^ 59 := by decide
  obtain ⟨hframe, hfew⟩ := nPagesOfRels_bounds hpos (hslots.trans hmax)
  have hd : sequence.Nodup := hsequence.nodup_iff.mpr (Store.nodup_liveIds hv)
  have hids := hfirst.liveIds_eq hv
  have hlen : (Store.idsFrom .relationship 0 hf.counters.nRels.toNat).length = sequence.length := by
    rw [← hids, hsequence.length_eq]
  have hmem : ∀ x, x ∈ sequence ↔ (Store.of hf).Live .relationship x := fun x => by
    rw [hsequence.mem_iff, Store.mem_liveIds]
  obtain ⟨π, hmap, hfix⟩ := exists_map_eq hd hsequence
  obtain ⟨newIds, hinsert, hin, hout⟩ := @insertAll_ok _ _ ∅ hlen hd
  have hπ : hf.Permutes .relationship newIds π := by
    refine ⟨fun x => ?_, fun x hx => hfix x ((hmem x).not.mpr hx)⟩
    by_cases hx : x ∈ sequence
    · rw [if_pos ((hmem x).mp hx), hin x hx, ← hids, ← hmap, List.getElem?_map,
        List.getElem?_eq_getElem (List.idxOf_lt_length_of_mem hx), List.getElem_idxOf]
      rfl
    · rw [if_neg ((hmem x).not.mp hx), hout x hx, AList.lookup_empty]
  have htemp := tempIds_relationship hframe hfew hslots hfuel
  obtain ⟨hf₁, hrun, hg, hR⟩ := run_reorderRelationships hw hfirst hπ hturns
  refine ⟨hf₁, π, ?_, hg, hR, hmap, ?_⟩
  · have hget : run (Prog.perform .getCounters) hf = .ok (hf.counters, hf) := rfl
    rw [run, HF.reorderRelationshipsBySequence, Prog.run_bind_ok _ hget]
    simp only [htemp]
    show run (HF.lift (insertAll ∅ sequence _) >>= _) hf = _
    rw [hinsert]
    exact hrun
  · have hlive : ∀ x, (Store.of hf₁).Live .relationship x ↔ (Store.of hf).Live .relationship x :=
      fun x => by rw [hR.live, if_pos rfl, hπ.live_symm_iff]
    simp only [Store.liveIds, Store.liveFrom, hR.pages, hlive]

/-- What `reorder_relationships_by_nodes` does. -/
theorem run_reorderRelationshipsByNodes (hw : hf.WellFormed) (hc : (Store.of hf).Counted)
    (hfirst : hf.FirstSlots .relationship) (hpos : 0 < hf.counters.nRels.toNat)
    (hfuel : maxPageNo 4096 * 256 ≤ fuel) {out : Ulong → List Relationship}
    (hout : (Store.of hf).Outgoing fuel out) : ∃ hf₁ π,
      run (HF.reorderRelationshipsByNodes 4096 fuel) hf = .ok ((), hf₁) ∧ hf₁.Good ∧
      (Store.of hf).Renamed .relationship π (Store.of hf₁) ∧
      ((((Store.of hf).liveIds .node).flatMap out).map Relationship.id).map π =
        (Store.of hf).liveIds .relationship ∧
      (Store.of hf₁).liveIds .relationship = (Store.of hf).liveIds .relationship := by
  have hperm := hout.perm_flatMap_outgoing hw.store
  obtain ⟨hf₁, π, hrun, -, hR, hmap, hids⟩ :=
    run_reorderRelationshipsBySequence hw hfirst hpos hperm hfuel
  obtain ⟨-, hrun⟩ := run_inv hw.good hrun
  obtain ⟨hf₂, hrun₂, hg, he⟩ := run_ok hw.good
    ((hout.run_reorderRelationshipsByNodes hw.store hc hfuel).trans hrun)
  exact ⟨hf₂, π, hrun₂, hg, he ▸ hR, hmap, he ▸ hids⟩

/-! ### What is wanted -/

/-- `reorder_relationships_by_nodes` returns, and then `get_relationships` lists the same relationships
as before, with ascending sources, and those of one source in the order that `expand` returned them in
before. -/
def GroupsBySource (hf : HeapFile PhyDatabase) (fuel : ℕ) : Prop :=
  ∃ hf₁ rels rels' hf' hf₁', run (HF.reorderRelationshipsByNodes 4096 fuel) hf = .ok ((), hf₁) ∧
    run (HF.getRelationships 4096 fuel) hf = .ok (rels, hf') ∧
    run (HF.getRelationships 4096 fuel) hf₁ = .ok (rels', hf₁') ∧
    (rels.map Relationship.payload).Perm (rels'.map Relationship.payload) ∧
    (rels'.Pairwise fun r r' => r.sourceNode.toNat ≤ r'.sourceNode.toNat) ∧
    ∀ n, (Store.of hf).Live .node n → ∃ out hf'',
      run (HF.expand fuel n .outgoing) hf = .ok (out, hf'') ∧
      (rels'.filter fun r => r.sourceNode = n).map Relationship.payload =
        out.map Relationship.payload

/-- **The relationships are grouped by their sources**, if they are at the first slots. -/
theorem reorderRelationshipsByNodes_groups (hw : hf.WellFormed) (hc : (Store.of hf).Counted)
    (hfirst : hf.FirstSlots .relationship) (hpos : 0 < hf.counters.nRels.toNat)
    (hfuel : maxPageNo 4096 * 256 ≤ fuel) : hf.GroupsBySource fuel := by
  have hv := hw.store.valid
  have hpages := hv.pages_lt .relationship
  have hrels : (Store.of hf).pages .relationship * 256 < fuel := by omega
  obtain ⟨out, hout⟩ := Store.exists_outgoing hv hw.graph.circular hfuel
  obtain ⟨hf₁, π, hrun, hg, hR, hmap, hids⟩ :=
    run_reorderRelationshipsByNodes hw hc hfirst hpos hfuel hout
  have hlive : ∀ n ∈ (Store.of hf).liveIds .node, (Store.of hf).Live .node n :=
    fun n hn => Store.mem_liveIds.mp hn
  have hperm := hout.perm_flatMap_outgoing hw.store
  have hread := hout.map_relAt _ hlive
  obtain ⟨hf', hget, -, -⟩ := run_ok hw.good (Store.run_getRelationships hv hrels)
  obtain ⟨hf₁', hget₁, -, -⟩ := run_ok hg
    (Store.run_getRelationships hR.wellFormed.valid (hR.pages ▸ hrels))
  -- what is listed says what the new order says
  have hpayload : (((Store.of hf₁).liveIds .relationship).map (Store.of hf₁).relAt).map
      Relationship.payload =
        (((Store.of hf).liveIds .node).flatMap out).map Relationship.payload := by
    rw [hids, ← hmap, ← congrArg (List.map Relationship.payload) hread]
    simp only [List.map_map]
    exact List.map_congr_left fun r hr => hR.payload_relAt (x := r.id)
      (Store.mem_liveIds.mp (hperm.mem_iff.mp (List.mem_map_of_mem hr)))
  refine ⟨hf₁, _, _, hf', hf₁', hrun, hget, hget₁, ?_, ?_, fun n hn => ?_⟩
  · rw [hpayload, ← hread]
    exact ((hperm.map _).map _).symm
  · have hsorted := hout.pairwise_flatMap hlive (Store.pairwise_liveIds hv)
    have hmap : ∀ rels : List Relationship,
        (rels.Pairwise fun r r' => r.sourceNode.toNat ≤ r'.sourceNode.toNat) ↔
          (rels.map Relationship.payload).Pairwise fun p p' => p.1.toNat ≤ p'.1.toNat :=
      fun rels => by rw [List.pairwise_map]; rfl
    rw [hmap] at hsorted ⊢
    rwa [hpayload]
  · obtain ⟨hexpand, -, -⟩ := hout n hn
    obtain ⟨hf'', hexpand', -, -⟩ := run_ok hw.good hexpand
    refine ⟨out n, hf'', hexpand', ?_⟩
    have hfilter : ∀ rels : List Relationship,
        (rels.filter fun r => r.sourceNode = n).map Relationship.payload =
          (rels.map Relationship.payload).filter fun p => p.1 = n :=
      fun rels => by rw [List.filter_map]; rfl
    rw [hfilter, hpayload, ← hfilter,
      hout.filter_flatMap _ hlive (Store.nodup_liveIds hv) (Store.mem_liveIds.mpr hn)]

/-- A relationship of the second node, one of the first and a self-loop, in the order of creation. -/
theorem reorderRelationshipsByNodes_groups_loop : ∃ hf : HeapFile PhyDatabase, hf.WellFormed ∧
    (Store.of hf).liveIds .relationship = [0#64, 4#64, 8#64] ∧
    hf.GroupsBySource (maxPageNo 4096 * 256) := by
  have h : Prog.check Store.step (HF.creations 4096 1000
      [.node 7#64, .node 8#64, .relationship 1#64 0#64 0#64 5#64,
        .relationship 0#64 1#64 0#64 6#64, .relationship 0#64 0#64 0#64 9#64]) Store.empty
      (fun _ s => decide (s.liveIds .relationship = [0#64, 4#64, 8#64] ∧
        s.counters.nRels = 3#64)) = true := by
    decide +kernel
  obtain ⟨ids, s, hrun, hp⟩ := Prog.check_inv _ h
  obtain ⟨hrels, hnRels⟩ := of_decide_eq_true hp
  have hc := Store.counted_of_creations hrun
  obtain ⟨-, -, hf, -, -, -, hw, rfl⟩ := exists_created hrun
  have hcount : hf.counters.nRels = 3#64 := hnRels
  have hfirst : hf.FirstSlots .relationship := by
    intro x
    rw [← Store.mem_liveIds, hrels, Counters.number, hcount]
    simp only [List.mem_cons, List.not_mem_nil, or_false, ← BitVec.toNat_inj]
    show x.toNat = 0 ∨ x.toNat = 4 ∨ x.toNat = 8 ↔ x.toNat % 4 = 0 ∧ x.toNat < 3 * 4
    omega
  have hpos : 0 < hf.counters.nRels.toNat := by
    rw [hcount]
    decide
  exact ⟨hf, hw, hrels, reorderRelationshipsByNodes_groups hw hc hfirst hpos (Nat.le_refl _)⟩

end HeapFile

end Goedb
