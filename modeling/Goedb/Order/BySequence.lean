import Goedb.Order.ReorderRuns
import Goedb.Order.TempIds

/-!
# Order — `reorder_nodes_by_sequence`

The temporary database hands out the ids `0`, `1`, `2` and so on (`tempIds_node`), so the node at
place `i` of the sequence shall get the id `i`.

`HeapFile.BySequence` is what is wanted of the function.  It needs a page cache with a frame for the
temporary database, nodes without gaps, and it is not met where nodes have to get to the slots 255 that
`reorder_nodes` never visits (`HeapFile.reorderNodesBySequence_iff`).
-/

namespace Goedb

open Lib

open Prog (Always)

/-- **The temporary database** numbers the nodes, if its page cache has a frame. -/
theorem tempIds_node {fuel nPages n : ℕ} (hpages : 1 ≤ nPages)
    (hn : n ≤ 256 * (maxPageNo 4096 - 1)) (hfuel : maxPageNo 4096 * 256 ≤ fuel) :
    tempIds 4096 fuel .node .ok nPages n = .ok (HeapFile.firstIds n) := by
  have hone : numSlotsPer .node = 1 := rfl
  rw [tempIds_ok hpages rfl (.refl _) (Nat.zero_le _) (by rwa [hone, Nat.mul_one]) hfuel,
    Store.idsFrom, HeapFile.firstIds, List.range_eq_range']
  simp only [hone, Nat.mul_one]

/-! ### The dictionary -/

/-- Where a node of the sequence shall go. -/
def targetOf (sequence : List Ulong) (x : Ulong) : Ulong :=
  if x ∈ sequence then BitVec.ofNat 64 (sequence.idxOf x) else x

/-- The sequence and the ids are paired. -/
theorem insertAll_ok {sequence : List Ulong} : ∀ {ids : List Ulong} {newIds : Dict},
    ids.length = sequence.length → sequence.Nodup →
    ∃ newIds', insertAll newIds sequence ids = .ok newIds' ∧
      (∀ x ∈ sequence, newIds'.lookup x = ids[sequence.idxOf x]?) ∧
      ∀ x, x ∉ sequence → newIds'.lookup x = newIds.lookup x := by
  induction sequence with
  | nil =>
      intro ids newIds hlen _
      rw [List.length_nil, List.length_eq_zero_iff] at hlen
      subst hlen
      exact ⟨newIds, rfl, fun x hx => absurd hx List.not_mem_nil, fun _ _ => rfl⟩
  | cons y sequence ih =>
      intro ids newIds hlen hnodup
      obtain ⟨hy, hnodup⟩ := List.nodup_cons.mp hnodup
      cases ids with
      | nil => cases hlen
      | cons id ids =>
          obtain ⟨newIds', hok, hin, hout⟩ := @ih ids (newIds.insert y id)
            (Nat.succ.inj hlen) hnodup
          refine ⟨newIds', hok, fun x hx => ?_, fun x hx => ?_⟩
          · by_cases hxy : x = y
            · subst hxy
              rw [hout x hy, AList.lookup_insert, List.idxOf_cons_self]
              rfl
            · rw [hin x ((List.mem_cons.mp hx).resolve_left hxy), List.idxOf_cons_ne _ (Ne.symm hxy)]
              rfl
          · rw [List.mem_cons, not_or] at hx
            rw [hout x hx.2, AList.lookup_insert_ne hx.1]

theorem firstIds_getElem? {n i : ℕ} (hi : i < n) :
    (HeapFile.firstIds n)[i]? = some (BitVec.ofNat 64 i) := by
  simp [HeapFile.firstIds, hi]

/-- The dictionary of `reorder_nodes_by_sequence`. -/
theorem insertAll_firstIds {sequence : List Ulong} (hnodup : sequence.Nodup) :
    ∃ newIds, insertAll ∅ sequence (HeapFile.firstIds sequence.length) = .ok newIds ∧
      ∀ x, newIds.lookup x = if x ∈ sequence then some (targetOf sequence x) else none := by
  have hlen : (HeapFile.firstIds sequence.length).length = sequence.length := by
    simp [HeapFile.firstIds]
  obtain ⟨newIds, hok, hin, hout⟩ := @insertAll_ok _ _ ∅ hlen hnodup
  refine ⟨newIds, hok, fun x => ?_⟩
  split
  · rename_i hx
    rw [hin x hx, firstIds_getElem? (List.idxOf_lt_length_of_mem hx), targetOf, if_pos hx]
  · rename_i hx
    rw [hout x hx, AList.lookup_empty]

/-- Every target is a key of the inverse. -/
theorem mem_foldl_inverse {es : List (Sigma fun _ : Ulong => Ulong)} {t : Ulong} :
    ∀ {acc : Dict}, (t ∈ acc ∨ ∃ e ∈ es, e.2 = t) →
      t ∈ es.foldl (fun inv e => inv.insert e.2 e.1) acc := by
  induction es with
  | nil =>
      rintro acc (h | ⟨e, he, -⟩)
      · exact h
      · cases he
  | cons e es ih =>
      rintro acc (h | ⟨e', he, rfl⟩)
      · exact ih (.inl ((AList.mem_insert _).mpr (.inr h)))
      · rcases List.mem_cons.mp he with rfl | he
        · exact ih (.inl ((AList.mem_insert _).mpr (.inl rfl)))
        · exact ih (.inr ⟨e', he, rfl⟩)

theorem Dict.mem_inverse {newIds : Dict} {x t : Ulong} (h : newIds.lookup x = some t) :
    t ∈ newIds.inverse :=
  mem_foldl_inverse (.inr ⟨⟨x, t⟩, AList.mem_lookup_iff.mp h, rfl⟩)

section Placement

variable {sequence : List Ulong}

/-- The sequence lists the ids below its length. -/
def ListsFirst (sequence : List Ulong) : Prop :=
  sequence.Nodup ∧ ∀ x, x ∈ sequence ↔ x.toNat < sequence.length

theorem ListsFirst.length_le (h : ListsFirst sequence) : sequence.length ≤ 2 ^ 64 := by
  rw [← List.toFinset_card_of_nodup h.1, ← Finset.card_range (2 ^ 64)]
  exact Finset.card_le_card_of_injOn BitVec.toNat (fun x _ => Finset.mem_range.mpr x.isLt)
    fun x _ y _ e => BitVec.eq_of_toNat_eq e

theorem ListsFirst.toNat_targetOf (h : ListsFirst sequence) {x : Ulong} (hx : x ∈ sequence) :
    (targetOf sequence x).toNat = sequence.idxOf x := by
  have hlt := List.idxOf_lt_length_of_mem hx
  rw [targetOf, if_pos hx, BitVec.toNat_ofNat, Nat.mod_eq_of_lt (hlt.trans_le h.length_le)]

/-- The node that shall go to an id. -/
def sourceOf (sequence : List Ulong) (x : Ulong) : Ulong := sequence[x.toNat]?.getD x

theorem ListsFirst.sourceOf_targetOf (h : ListsFirst sequence) (x : Ulong) :
    sourceOf sequence (targetOf sequence x) = x := by
  by_cases hx : x ∈ sequence
  · rw [sourceOf, h.toNat_targetOf hx, List.getElem?_eq_getElem (List.idxOf_lt_length_of_mem hx),
      List.getElem_idxOf]
    rfl
  · have hlen : sequence.length ≤ x.toNat := Nat.le_of_not_lt fun hlt => hx ((h.2 x).mpr hlt)
    rw [targetOf, if_neg hx, sourceOf, List.getElem?_eq_none hlen]
    rfl

theorem ListsFirst.targetOf_sourceOf (h : ListsFirst sequence) (x : Ulong) :
    targetOf sequence (sourceOf sequence x) = x := by
  by_cases hx : x.toNat < sequence.length
  · rw [sourceOf, List.getElem?_eq_getElem hx, Option.getD_some, targetOf,
      if_pos (List.getElem_mem hx), h.1.idxOf_getElem, BitVec.ofNat_toNat, BitVec.setWidth_eq]
  · rw [sourceOf, List.getElem?_eq_none (Nat.le_of_not_lt hx), Option.getD_none, targetOf,
      if_neg fun hmem => hx ((h.2 x).mp hmem)]

/-- The permutation of the ids that the sequence asks for. -/
def ListsFirst.placement (h : ListsFirst sequence) : Renaming where
  toFun := targetOf sequence
  invFun := sourceOf sequence
  left_inv := h.sourceOf_targetOf
  right_inv := h.targetOf_sourceOf

/-- The sequence, from the first id on. -/
theorem ListsFirst.map_sourceOf (h : ListsFirst sequence) :
    (HeapFile.firstIds sequence.length).map (sourceOf sequence) = sequence := by
  refine List.ext_getElem? fun i => ?_
  rcases Nat.lt_or_ge i sequence.length with hi | hi
  · rw [List.getElem?_map, firstIds_getElem? hi, Option.map_some, sourceOf, BitVec.toNat_ofNat,
      Nat.mod_eq_of_lt (hi.trans_le h.length_le), List.getElem?_eq_getElem hi]
    rfl
  · rw [List.getElem?_eq_none hi, List.getElem?_eq_none]
    simpa [HeapFile.firstIds] using hi

theorem ListsFirst.placement_pow (h : ListsFirst sequence) (k : ℕ) (x : Ulong) :
    (h.placement ^ k) x = (targetOf sequence)^[k] x :=
  congrFun (Equiv.Perm.coe_pow h.placement k) x

end Placement

/-! ### What is wanted -/

namespace HeapFile

variable {hf : HeapFile PhyDatabase} {sequence : List Ulong} {fuel : ℕ}

/-- `reorder_nodes_by_sequence` returns, and then `get_nodes` lists the nodes so that the one at place
`i` has the label of the node that was at `sequence[i]`. -/
def BySequence (hf : HeapFile PhyDatabase) (sequence : List Ulong) (fuel : ℕ) : Prop :=
  ∃ hf₁ nodes hf₂, run (HF.reorderNodesBySequence 4096 fuel sequence) hf = .ok ((), hf₁) ∧
    run (HF.getNodes 4096 fuel) hf₁ = .ok (nodes, hf₂) ∧
    nodes.map (fun nd => some nd.label) = sequence.map hf.graph.labelAt

/-- The sequence lists every node once, and the heap file counts as many. -/
structure ListsNodes (hf : HeapFile PhyDatabase) (sequence : List Ulong) : Prop where
  nodup : sequence.Nodup
  mem : ∀ x, x ∈ sequence ↔ (Store.of hf).Live .node x
  count : hf.counters.nNodes.toNat = sequence.length

/-- Two ids with slot 255, of which one is reached from the other by going from the id of a node to
where it shall go, shall get nodes with one label. -/
def LastLabelsAgree (hf : HeapFile PhyDatabase) (sequence : List Ulong) : Prop :=
  ∀ a b k, a.toNat % 256 = 255 → b.toNat % 256 = 255 → (targetOf sequence)^[k] a = b →
    hf.graph.labelAt (sourceOf sequence a) = hf.graph.labelAt (sourceOf sequence b)

/-- The nodes fill a header page, or the relationships leave one begun: then the temporary database
gets a frame. -/
def BeginsPage (c : Counters) : Prop := 32768 ≤ c.nNodes.toNat ∨ c.nRels.toNat % 32768 ≠ 0

theorem one_le_nPagesOfNodes {c : Counters} : 1 ≤ nPagesOfNodes 4096 c ↔ BeginsPage c := by
  rw [nPagesOfNodes, BeginsPage, show 4096 * charBit = 32768 from rfl,
    show numSlotsPer .node = 1 from rfl, Nat.mul_one, Nat.mul_one]
  split <;> omega

/-- There are slots for the nodes. -/
theorem ListsNodes.length_le (h : hf.ListsNodes sequence) (hw : hf.WellFormed) :
    sequence.length ≤ 256 * (maxPageNo 4096 - 1) := by
  have hpages := hw.store.valid.pages_lt .node
  have hlen := (Store.of hf).length_liveIds_le .node
  rw [← (Store.perm_liveIds hw.store.valid h.nodup h.mem).length_eq]
  omega

/-- With a frame for the temporary database, `reorder_nodes` is called with the sequence. -/
theorem reorderNodesBySequence_eq (hw : hf.WellFormed) (h : hf.ListsNodes sequence)
    (hpages : 1 ≤ nPagesOfNodes 4096 hf.counters) (hfuel : maxPageNo 4096 * 256 ≤ fuel) :
    ∃ newIds : Dict,
      (∀ x, newIds.lookup x = if x ∈ sequence then some (targetOf sequence x) else none) ∧
      run (HF.reorderNodesBySequence 4096 fuel sequence) hf =
        run (HF.reorderNodes 4096 fuel newIds) hf := by
  obtain ⟨newIds, hinsert, hlookup⟩ := insertAll_firstIds h.nodup
  have hids := tempIds_node hpages (h.length_le hw) hfuel
  refine ⟨newIds, hlookup, ?_⟩
  have hget : run (Prog.perform .getCounters) hf = .ok (hf.counters, hf) := rfl
  rw [run, HF.reorderNodesBySequence, Prog.run_bind_ok _ hget, h.count, hids]
  show run (HF.lift (insertAll ∅ sequence (firstIds sequence.length)) >>= _) hf = _
  rw [hinsert]
  rfl

/-- Without a frame the run ends. -/
theorem reorderNodesBySequence_no_frame (hpages : nPagesOfNodes 4096 hf.counters = 0) (fuel : ℕ) :
    run (HF.reorderNodesBySequence 4096 (fuel + 1) sequence) hf = .error (.exit
      "page cache - evict: could not find a page to evict, as all pages are pinned!") := by
  have hget : run (Prog.perform .getCounters) hf = .ok (hf.counters, hf) := rfl
  rw [run, HF.reorderNodesBySequence, Prog.run_bind_ok _ hget, hpages, tempIds_no_frame]
  rfl

/-! ### Nodes with gaps -/

/-- The visits are at different ids. -/
theorem position_node_inj {j k : ℕ} (hj : j < 2 ^ 60) (hk : k < 2 ^ 60)
    (h : Store.position 1 j = Store.position 1 k) : j = k := by
  have hpos : ∀ i < 2 ^ 60, (Store.position 1 i).toNat = 256 * (i / 255) + i % 255 := by
    intro i hi
    have h₁ : i / 255 = (256 * (i / 255) + i % 255) / 256 := by omega
    have h₂ : 1 * (i % 255) = (256 * (i / 255) + i % 255) % 256 := by omega
    have hid : Store.position 1 i = BitVec.ofNat 64 (256 * (i / 255) + i % 255) := by
      rw [← Store.recordId_eq (by omega), ← h₁, ← h₂]
      rfl
    rw [hid, BitVec.toNat_ofNat]
    exact Nat.mod_eq_of_lt (by omega)
  have heq := congrArg BitVec.toNat h
  rw [hpos j hj, hpos k hk] at heq
  omega

/-- **Where a visit finds no node the run ends**: if it returns, every slot that is visited has one. -/
theorem live_of_reorderNodes (hw : hf.WellFormed) (h : hf.ListsNodes sequence)
    (hfuel : maxPageNo 4096 * 256 ≤ fuel) {newIds : Dict}
    (hlookup : ∀ x, newIds.lookup x = if x ∈ sequence then some (targetOf sequence x) else none)
    {hf₁ : HeapFile PhyDatabase} (hrun : run (HF.reorderNodes 4096 fuel newIds) hf = .ok ((), hf₁))
    {g : Ulong} (hg : g.toNat < sequence.length) (hslot : g.toNat % 256 ≠ 255) :
    (Store.of hf).Live .node g := by
  have hlen := h.length_le hw
  have hmax : maxPageNo 4096 < 2 ^ 51 := by decide
  have hpages := hw.store.valid.pages_lt .relationship
  have hswap : Store.Swaps .node (Store.of hf).pages (HF.swapNodes 4096 fuel) :=
    Store.swaps_nodes (by omega)
  have hafter : Store.Inert fun _ _ => pure () := by
    intro newIds inverse s s' he
    cases he
    rfl
  have hkeys : ∀ x ∈ newIds, (Store.of hf).Live .node x := by
    intro x hx
    rw [← AList.lookup_isSome, hlookup] at hx
    split at hx
    · rename_i hmem
      exact (h.mem x).mp hmem
    · cases hx
  -- the id is the target of the node at its place in the sequence
  have htarget : g ∈ newIds.inverse := by
    refine Dict.mem_inverse (x := sequence[g.toNat]) ?_
    rw [hlookup, if_pos (List.getElem_mem hg), targetOf, if_pos (List.getElem_mem hg),
      h.nodup.idxOf_getElem, BitVec.ofNat_toNat, BitVec.setWidth_eq]
  obtain ⟨-, hstore⟩ := run_inv hw.good hrun
  obtain ⟨-, -, hvisited⟩ := Store.reorderLoop_inv hswap (Store.stays_swapNodes fuel) hafter (.inl rfl)
    (fun _ _ => rfl) fuel (i := 0) hw.store rfl (inverts_inverse newIds)
    hkeys hstore
  have hcount : (Counters.nNodes (Store.of hf).counters).toNat = sequence.length := h.count
  rw [hcount] at hvisited
  have hposition := Store.position_node hslot (by omega)
  rw [hposition]
  refine hvisited (fun j k e hj hk => position_node_inj (by omega) (by omega) e) _ (Nat.zero_le _) ?_ ?_
  · omega
  · rwa [← hposition]

/-! ### Nodes without gaps -/

theorem ListsNodes.listsFirst (h : hf.ListsNodes sequence) (hfirst : hf.FirstSlots .node) :
    ListsFirst sequence := by
  refine ⟨h.nodup, fun x => ?_⟩
  rw [h.mem, hfirst, ← h.count]
  simp [numSlotsPer, Nat.mod_one, Counters.number]

/-- The nodes that `get_nodes` lists. -/
theorem run_getNodes_labels {hf : HeapFile PhyDatabase} (hw : hf.WellFormed)
    (hfuel : maxPageNo 4096 * 256 ≤ fuel) : ∃ nodes hf₁,
      run (HF.getNodes 4096 fuel) hf = .ok (nodes, hf₁) ∧
      nodes.map (fun nd => some nd.label) = ((Store.of hf).liveIds .node).map hf.graph.labelAt := by
  have hpages := hw.store.valid.pages_lt .node
  have hturns : (Store.of hf).pages .node * 256 < fuel := by omega
  obtain ⟨hf₁, hrun, -, -⟩ := run_ok hw.good (Store.run_getNodes hw.store.valid hturns)
  refine ⟨_, hf₁, hrun, ?_⟩
  rw [List.map_map]
  refine List.map_congr_left fun x hx => ?_
  have hnode : hf.graph.node x = some ((Store.of hf).nodeAt x) :=
    Store.node_eq_some.mpr ⟨Store.mem_liveIds.mp hx, rfl⟩
  rw [Graph.labelAt, hnode]
  rfl

/-- The ids of nodes without gaps. -/
theorem liveIds_eq_firstIds {s : Store} {n : ℕ} (hv : s.Valid) (hn : n < 2 ^ 64)
    (h : ∀ x, s.Live .node x ↔ x.toNat < n) : s.liveIds .node = firstIds n := by
  refine List.Pairwise.eq_of_mem_iff (r := fun a b : Ulong => a.toNat < b.toNat)
    (Store.pairwise_liveIds hv) ?_ fun x => ?_
  · rw [firstIds, List.pairwise_map]
    refine List.Pairwise.imp_of_mem (fun {a b} ha hb hab => ?_) List.pairwise_lt_range
    rw [List.mem_range] at ha hb
    rwa [BitVec.toNat_ofNat, BitVec.toNat_ofNat, Nat.mod_eq_of_lt (ha.trans hn),
      Nat.mod_eq_of_lt (hb.trans hn)]
  · rw [Store.mem_liveIds, h, mem_firstIds hn]

section FallsShort

variable {hf₁ : HeapFile PhyDatabase} {newIds : Dict} {π τ ρ : Renaming} (h : hf.FallsShort π τ ρ)
  (hg : hf₁.graph = hf.graph.rename τ 1)
include h hg

theorem FallsShort.labelAt_eq (x : Ulong) :
    hf₁.graph.labelAt x = hf.graph.labelAt (π.symm (ρ x)) := by
  have hnode := h.node_eq hg (π.symm x)
  rw [π.apply_symm_apply] at hnode
  rw [Graph.labelAt, hnode, Option.map_map]
  rfl

theorem FallsShort.live_iff (hπ : hf.Permutes .node newIds π) (x : Ulong) :
    (Store.of hf₁).Live .node x ↔ (Store.of hf).Live .node x := by
  have hnode := h.node_eq hg (π.symm x)
  rw [π.apply_symm_apply] at hnode
  rw [← Store.isSome_node, show (Store.of hf₁).graph = hf₁.graph from rfl, hnode, Option.isSome_map,
    show hf.graph = (Store.of hf).graph from rfl, Store.isSome_node, hπ.live_symm_iff]
  by_cases hx : ρ x = x
  · rw [hx]
  · have hρ : ρ (ρ x) ≠ ρ x := fun e => hx (ρ.injective e)
    exact iff_of_true (h.moved _ hρ).2 (h.moved x hx).2

omit hg in
/-- What the remaining exchanges would change are the labels of the slots 255. -/
theorem FallsShort.labels_iff {sequence : List Ulong} (hL : ListsFirst sequence)
    (hπ : π = hL.placement) :
    (∀ x, hf.graph.labelAt (π.symm (ρ x)) = hf.graph.labelAt (π.symm x)) ↔
      hf.LastLabelsAgree sequence := by
  subst hπ
  constructor
  · intro hlabels a b k ha hb hk
    have hcycle : hL.placement.SameCycle a b := ⟨k, by rw [zpow_natCast, hL.placement_pow, hk]⟩
    exact sameCycle_induct (R := fun x y => hf.graph.labelAt (hL.placement.symm x) =
        hf.graph.labelAt (hL.placement.symm y))
      ⟨fun _ => rfl, Eq.symm, Eq.trans⟩ (fun x => (hlabels x).symm) ((h.cycle a b ha hb).mpr hcycle)
  · intro hagree x
    by_cases hx : ρ x = x
    · rw [hx]
    · have hρ : ρ (ρ x) ≠ ρ x := fun e => hx (ρ.injective e)
      have ha := (h.moved x hx).1
      have hb := (h.moved _ hρ).1
      have : Finite Ulong := Finite.of_injective BitVec.toFin fun _ _ e => BitVec.eq_of_toFin_eq e
      obtain ⟨k, hk⟩ := ((h.cycle x (ρ x) ha hb).mp ⟨1, by rw [zpow_one]⟩).exists_nat_pow_eq
      rw [hL.placement_pow] at hk
      exact (hagree x (ρ x) k ha hb hk).symm

end FallsShort

/-- **Nodes without gaps** get to their places up to the slots 255. -/
theorem bySequence_iff_of_firstSlots (hw : hf.WellFormed) (h : hf.ListsNodes sequence)
    (hfirst : hf.FirstSlots .node) (hpages : 1 ≤ nPagesOfNodes 4096 hf.counters)
    (hfuel : maxPageNo 4096 * 256 ≤ fuel) :
    hf.BySequence sequence fuel ↔ hf.LastLabelsAgree sequence := by
  have hL := h.listsFirst hfirst
  have hlen := h.length_le hw
  have hmax : maxPageNo 4096 < 2 ^ 51 := by decide
  have hrels := hw.store.valid.pages_lt .relationship
  obtain ⟨newIds, hlookup, heq⟩ := reorderNodesBySequence_eq hw h hpages hfuel
  -- the dictionary that is built from the sequence is a permutation of the ids
  have hπ : hf.Permutes .node newIds hL.placement := by
    refine ⟨fun x => ?_, fun x hx => ?_⟩
    · simp only [hlookup, h.mem]
      rfl
    · exact if_neg fun hmem => hx ((h.mem x).mp hmem)
  have hturns : hf.counters.nNodes.toNat < fuel := by
    rw [h.count]
    omega
  have hpages' : (Store.of hf).pages .relationship * 256 < fuel := by omega
  obtain ⟨hf₁, τ, ρ, hrun, hw₁, hg, hshort⟩ := run_reorderNodes hw hfirst hπ hturns hpages'
  obtain ⟨nodes, hf₂, hget, hnodes⟩ := run_getNodes_labels hw₁ hfuel
  have hids : (Store.of hf₁).liveIds .node = firstIds sequence.length :=
    liveIds_eq_firstIds hw₁.store.valid (by omega) fun x => by
      rw [hshort.live_iff hg hπ, ← h.mem, hL.2]
  rw [hids] at hnodes
  rw [← hshort.labels_iff hL rfl]
  have hsequence : sequence.map hf.graph.labelAt = (firstIds sequence.length).map
      fun x => hf.graph.labelAt (hL.placement.symm x) := by
    conv_lhs => rw [← hL.map_sourceOf, List.map_map]
    rfl
  have hlist : nodes.map (fun nd => some nd.label) = sequence.map hf.graph.labelAt ↔
      ∀ x, hf.graph.labelAt (hL.placement.symm (ρ x)) = hf.graph.labelAt (hL.placement.symm x) := by
    rw [hnodes, hsequence, List.map_inj_left]
    simp only [hshort.labelAt_eq hg]
    refine ⟨fun hin x => ?_, fun hall x _ => hall x⟩
    by_cases hx : ρ x = x
    · rw [hx]
    · refine hin x ((mem_firstIds (by omega)).mpr ?_)
      rw [← hL.2, h.mem]
      exact (hshort.moved x hx).2
  constructor
  · rintro ⟨hf₁', nodes', hf₂', hrun', hget', hlabels⟩
    rw [heq, hrun] at hrun'
    cases hrun'
    rw [hget] at hget'
    cases hget'
    exact hlist.mp hlabels
  · intro hlabels
    exact ⟨hf₁, nodes, hf₂, heq.trans hrun, hget, hlist.mpr hlabels⟩

/-- **When the nodes get into the order of the sequence.**  It needs a frame for the temporary
database, and nodes at all the slots that are visited; for nodes without gaps it is met exactly if,
besides the frame, the slots 255 agree. -/
theorem reorderNodesBySequence_iff (hw : hf.WellFormed) (h : hf.ListsNodes sequence)
    (hfuel : maxPageNo 4096 * 256 ≤ fuel) :
    (hf.BySequence sequence fuel → BeginsPage hf.counters ∧
      ∀ g : Ulong, g.toNat < sequence.length → g.toNat % 256 ≠ 255 → (Store.of hf).Live .node g) ∧
    (hf.FirstSlots .node → (hf.BySequence sequence fuel ↔
      BeginsPage hf.counters ∧ hf.LastLabelsAgree sequence)) := by
  have hframe : hf.BySequence sequence fuel → 1 ≤ nPagesOfNodes 4096 hf.counters := by
    rintro ⟨hf₁, nodes, hf₂, hrun, -, -⟩
    by_contra hno
    obtain ⟨k, rfl⟩ := Nat.exists_eq_succ_of_ne_zero
      (Nat.ne_of_gt (Nat.lt_of_lt_of_le (by decide) hfuel))
    rw [reorderNodesBySequence_no_frame (Nat.lt_one_iff.mp (Nat.lt_of_not_le hno))] at hrun
    cases hrun
  rw [← one_le_nPagesOfNodes]
  refine ⟨fun hby => ⟨hframe hby, fun g hg hslot => ?_⟩, fun hfirst => ⟨fun hby => ?_, ?_⟩⟩
  · obtain ⟨newIds, hlookup, heq⟩ := reorderNodesBySequence_eq hw h (hframe hby) hfuel
    obtain ⟨hf₁, nodes, hf₂, hrun, -, -⟩ := hby
    exact live_of_reorderNodes hw h hfuel hlookup (heq.symm.trans hrun) hg hslot
  · exact ⟨hframe hby, (bySequence_iff_of_firstSlots hw h hfirst (hframe hby) hfuel).mp hby⟩
  · rintro ⟨hpages, hagree⟩
    exact (bySequence_iff_of_firstSlots hw h hfirst hpages hfuel).mpr hagree

/-- Two nodes with a relationship change places. -/
theorem reorderNodesBySequence_iff_pair : ∃ hf : HeapFile PhyDatabase, hf.WellFormed ∧
    hf.ListsNodes [1#64, 0#64] ∧ hf.BySequence [1#64, 0#64] (maxPageNo 4096 * 256) := by
  have h : Prog.check Store.step (HF.creations 4096 1000
      [.node 7#64, .node 8#64, .relationship 0#64 1#64 0#64 5#64]) Store.empty
      (fun _ s => decide (s.counters.nNodes = 2#64 ∧ s.liveIds .node = [0#64, 1#64] ∧
        s.counters.nRels = 1#64)) = true := by
    decide +kernel
  obtain ⟨ids, s, hrun, hp⟩ := Prog.check_inv _ h
  obtain ⟨hcount, hlive, hrels⟩ := of_decide_eq_true hp
  obtain ⟨-, -, hf, -, -, -, hw, rfl⟩ := exists_created hrun
  have hmem : ∀ x, x ∈ [1#64, 0#64] ↔ (Store.of hf).Live .node x := by
    intro x
    rw [← Store.mem_liveIds, hlive, List.mem_pair, List.mem_pair, or_comm]
  have hcount' : hf.counters.nNodes = 2#64 := hcount
  have hlists : hf.ListsNodes [1#64, 0#64] := ⟨by decide, hmem, by rw [hcount']; rfl⟩
  have hfirst : hf.FirstSlots .node := by
    intro x
    rw [← hmem, Counters.number, hcount', List.mem_pair, ← BitVec.toNat_inj, ← BitVec.toNat_inj]
    show x.toNat = 1 ∨ x.toNat = 0 ↔ x.toNat % 1 = 0 ∧ x.toNat < 2 * 1
    omega
  have hrels' : hf.counters.nRels = 1#64 := hrels
  have hpages : BeginsPage hf.counters := .inr (by rw [hrels']; decide)
  -- no node is in a slot 255, so every slot 255 is left where it is
  have hagree : hf.LastLabelsAgree [1#64, 0#64] := by
    intro a b k ha hb hk
    have hfix : targetOf [1#64, 0#64] a = a := by
      refine if_neg fun hin => ?_
      rw [List.mem_pair, ← BitVec.toNat_inj, ← BitVec.toNat_inj] at hin
      rcases hin with e | e <;> rw [e] at ha <;> exact absurd ha (by decide)
    rw [Function.iterate_fixed hfix] at hk
    rw [hk]
  exact ⟨hf, hw, hlists, ((reorderNodesBySequence_iff hw hlists (Nat.le_refl _)).2 hfirst).mpr
    ⟨hpages, hagree⟩⟩

/-- One node and no relationship: the page cache of the temporary database has no frame. -/
theorem reorderNodesBySequence_one : ∃ db hf₀ hf ids, PhyDatabase.create 4096 = .ok db ∧
    create 4096 1000 (PhyDatabase.flat 4096) db = .ok hf₀ ∧
    run (HF.creations 4096 1000 [.node 7#64]) hf₀ = .ok (ids, hf) ∧ hf.WellFormed ∧
    hf.ListsNodes [0#64] ∧
    (∀ fuel, run (HF.reorderNodesBySequence 4096 (fuel + 1) [0#64]) hf = .error (.exit
      "page cache - evict: could not find a page to evict, as all pages are pinned!")) ∧
    ∀ fuel, ¬ hf.BySequence [0#64] (fuel + 1) := by
  have h : Prog.check Store.step (HF.creations 4096 1000 [.node 7#64]) Store.empty
      (fun _ s => decide (s.counters.nNodes = 1#64 ∧ s.liveIds .node = [0#64] ∧
        nPagesOfNodes 4096 s.counters = 0)) = true := by
    decide +kernel
  obtain ⟨ids, s, hrun, hp⟩ := Prog.check_inv _ h
  obtain ⟨hcount, hlive, hpages⟩ := of_decide_eq_true hp
  obtain ⟨db, hf₀, hf, hdb, hcreate, hrun', hw, rfl⟩ := exists_created hrun
  have hcount' : hf.counters.nNodes = 1#64 := hcount
  have hlists : hf.ListsNodes [0#64] := by
    refine ⟨by decide, fun x => ?_, by rw [hcount']; rfl⟩
    rw [← Store.mem_liveIds, hlive]
  refine ⟨db, hf₀, hf, ids, hdb, hcreate, hrun', hw, hlists,
    fun fuel => reorderNodesBySequence_no_frame hpages fuel, ?_⟩
  rintro fuel ⟨hf₁, nodes, hf₂, hr, -, -⟩
  rw [reorderNodesBySequence_no_frame hpages] at hr
  cases hr

end HeapFile

end Goedb
