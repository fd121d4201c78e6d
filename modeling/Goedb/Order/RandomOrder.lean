import Goedb.Order.ReorderRuns
import Goedb.Order.SlotAccounting

/-!
# Order — random orders

`random_order.c`: from the order that leaves every record at its place, the value of each record in
turn is exchanged with the value of one that `rand` chooses.  Whatever `rand` returns, the values stay
the ids of the records, each once, so the order can be given to `reorder_nodes` and
`reorder_relationships` (`HeapFile.randomOrders_permute`).
-/

namespace Goedb

open Lib

/-- The loop of `identity_node_order` and `identity_relationship_order`. -/
def identityOrder (ids : List Ulong) : Dict := ids.foldl (fun order id => order.insert id id) ∅

/-- The loop of `random_node_order` and `random_relationship_order`, from place `i` on.  `rand i` is
what `rand` returns in the turn for place `i`, and `n` the number of records that the heap file
counts. -/
def exchangeValues (ids : List Ulong) (n : Ulong) (rand : ℕ → ℕ) :
    (fuel : ℕ) → (i : ℕ) → (order : Dict) → Except Fault Dict
  | 0, _, _ => .error .diverge
  | fuel + 1, i, order =>
      if i < order.size then
        -- `%` by zero
        if n = 0 then .error .undefined
        else
          match ids[rand i % n.toNat]?, ids[i]? with
          | some randId, some curId => do
              let curVal ← order.getDirect curId
              let randVal ← order.getDirect randId
              exchangeValues ids n rand fuel (i + 1)
                ((order.insert curId randVal).insert randId curVal)
          | _, _ => .error (.exit "List - get: Buffer overflow!")
      else .ok order

namespace HF

/-- `identity_node_order`. -/
def identityNodeOrder (P fuel : ℕ) : HF Dict := do
  let nodes ← getNodes P fuel
  return identityOrder (nodes.map Node.id)

/-- `identity_relationship_order`. -/
def identityRelationshipOrder (P fuel : ℕ) : HF Dict := do
  let rels ← getRelationships P fuel
  return identityOrder (rels.map Relationship.id)

/-- `random_node_order`. -/
def randomNodeOrder (P fuel : ℕ) (rand : ℕ → ℕ) : HF Dict := do
  let order ← identityNodeOrder P fuel
  let nodes ← getNodes P fuel
  let c ← Prog.perform .getCounters
  HF.lift (exchangeValues (nodes.map Node.id) c.nNodes rand fuel 0 order)

/-- `random_relationship_order`. -/
def randomRelationshipOrder (P fuel : ℕ) (rand : ℕ → ℕ) : HF Dict := do
  let order ← identityRelationshipOrder P fuel
  let rels ← getRelationships P fuel
  let c ← Prog.perform .getCounters
  HF.lift (exchangeValues (rels.map Relationship.id) c.nRels rand fuel 0 order)

end HF

/-! ### Orders that rearrange -/

/-- The dictionary rearranges the ids. -/
structure Rearranges (ids : List Ulong) (order : Dict) (π : Renaming) : Prop where
  lookup : ∀ x, order.lookup x = if x ∈ ids then some (π x) else none
  fixed : ∀ x, x ∉ ids → π x = x

theorem rearranges_identityOrder (ids : List Ulong) :
    Rearranges ids (identityOrder ids) (Equiv.refl _) :=
  ⟨fun x => by rw [identityOrder, Dict.lookup_foldl_insert, AList.lookup_empty]; rfl,
    fun _ _ => rfl⟩

namespace Rearranges

variable {ids : List Ulong} {order : Dict} {π : Renaming}

theorem size (h : Rearranges ids order π) (hd : ids.Nodup) : order.size = ids.length := by
  rw [Dict.size_eq_card (D := ids.toFinset), List.toFinset_card_of_nodup hd]
  intro k
  rw [h.lookup, List.mem_toFinset]
  split <;> simp [*]

/-- The values of two ids exchanged. -/
theorem exchange (h : Rearranges ids order π) {x y : Ulong} (hx : x ∈ ids) (hy : y ∈ ids) :
    Rearranges ids ((order.insert x (π y)).insert y (π x)) ((Equiv.swap x y).trans π) := by
  refine ⟨fun z => ?_, fun z hz => ?_⟩
  · by_cases hzy : z = y
    · subst hzy
      rw [AList.lookup_insert, if_pos hy, Equiv.trans_apply, Equiv.swap_apply_right]
    · rw [AList.lookup_insert_ne hzy]
      by_cases hzx : z = x
      · subst hzx
        rw [AList.lookup_insert, if_pos hx, Equiv.trans_apply, Equiv.swap_apply_left]
      · rw [AList.lookup_insert_ne hzx, h.lookup, Equiv.trans_apply,
          Equiv.swap_apply_of_ne_of_ne hzx hzy]
  · have hzx : z ≠ x := fun e => hz (e ▸ hx)
    have hzy : z ≠ y := fun e => hz (e ▸ hy)
    rw [Equiv.trans_apply, Equiv.swap_apply_of_ne_of_ne hzx hzy, h.fixed z hz]

/-- **Exchanging values rearranges**, whatever `rand` returns. -/
theorem exchangeValues (hd : ids.Nodup) (hpos : 0 < ids.length) {n : Ulong}
    (hn : n.toNat = ids.length) (rand : ℕ → ℕ) (m : ℕ) : ∀ {fuel i : ℕ} {order : Dict} {π : Renaming},
    Rearranges ids order π → i + m = ids.length → m < fuel →
    ∃ order' π', exchangeValues ids n rand fuel i order = .ok order' ∧
      Rearranges ids order' π' := by
  have hn0 : n ≠ 0 := by
    rintro rfl
    rw [← hn] at hpos
    exact absurd hpos (by decide)
  induction m with
  | zero =>
      intro fuel i order π h hi hf
      obtain ⟨fuel, rfl⟩ := Nat.exists_eq_succ_of_ne_zero (Nat.ne_of_gt hf)
      refine ⟨order, π, ?_, h⟩
      rw [Goedb.exchangeValues, h.size hd, if_neg (by omega)]
  | succ m ih =>
      intro fuel i order π h hi hf
      obtain ⟨fuel, rfl⟩ := Nat.exists_eq_succ_of_ne_zero (Nat.ne_of_gt (Nat.zero_lt_of_lt hf))
      have hr : rand i % n.toNat < ids.length := by
        rw [hn]
        exact Nat.mod_lt _ hpos
      have hlt : i < ids.length := by omega
      have hcur := h.lookup ids[i]
      have hrand := h.lookup ids[rand i % n.toNat]
      rw [if_pos (List.getElem_mem _)] at hcur hrand
      obtain ⟨order', π', hok, h'⟩ :=
        ih (h.exchange (List.getElem_mem hlt) (List.getElem_mem hr)) (show i + 1 + m = _ by omega)
          (Nat.lt_of_succ_lt_succ hf)
      refine ⟨order', π', ?_, h'⟩
      rw [Goedb.exchangeValues, h.size hd, if_pos hlt, if_neg hn0, List.getElem?_eq_getElem hr,
        List.getElem?_eq_getElem hlt]
      simp only [Dict.getDirect_ok hcur, Dict.getDirect_ok hrand]
      exact hok

end Rearranges

/-! ### The random orders -/

namespace Store

variable {s : Store} {fuel : ℕ}

/-- The exchanges rearrange the ids of the records. -/
theorem exchangeValues_liveIds (hv : s.Valid) {ft : FileType} {n : Ulong}
    (hn : n.toNat = (s.liveIds ft).length) (hpos : 0 < n.toNat)
    (hfuel : maxPageNo 4096 * 256 ≤ fuel) (rand : ℕ → ℕ) : ∃ order π,
      exchangeValues (s.liveIds ft) n rand fuel 0 (identityOrder (s.liveIds ft)) = .ok order ∧
      Rearranges (s.liveIds ft) order π := by
  have hpages := hv.pages_lt ft
  have hlen := s.length_liveIds_le ft
  exact Rearranges.exchangeValues (nodup_liveIds hv) (hn ▸ hpos) hn rand (s.liveIds ft).length
    (rearranges_identityOrder _) (Nat.zero_add _) (by omega)

/-- `random_node_order` returns a rearrangement of the ids of the nodes. -/
theorem run_randomNodeOrder (hc : s.Counted) (hpos : 0 < s.counters.nNodes.toNat)
    (hfuel : maxPageNo 4096 * 256 ≤ fuel) (rand : ℕ → ℕ) : ∃ order π,
      run (HF.randomNodeOrder 4096 fuel rand) s = .ok (order, s) ∧
      Rearranges (s.liveIds .node) order π := by
  have hpages := hc.valid.pages_lt .node
  have hnodes := run_getNodes hc.valid (show s.pages .node * 256 < fuel by omega)
  obtain ⟨order, π, hok, h⟩ :=
    exchangeValues_liveIds hc.valid (hc.toNat_number .node) hpos hfuel rand
  refine ⟨order, π, ?_, h⟩
  have hget : run (Prog.perform .getCounters) s = .ok (s.counters, s) := rfl
  have hidentity : run (HF.identityNodeOrder 4096 fuel) s =
      .ok (identityOrder (s.liveIds .node), s) := by
    rw [run, HF.identityNodeOrder, Prog.run_bind_ok _ hnodes, map_id_nodeAt]
    rfl
  rw [run, HF.randomNodeOrder, Prog.run_bind_ok _ hidentity, Prog.run_bind_ok _ hnodes,
    Prog.run_bind_ok _ hget, map_id_nodeAt]
  exact run_lift hok s

/-- `random_relationship_order` returns a rearrangement of the ids of the relationships. -/
theorem run_randomRelationshipOrder (hc : s.Counted) (hpos : 0 < s.counters.nRels.toNat)
    (hfuel : maxPageNo 4096 * 256 ≤ fuel) (rand : ℕ → ℕ) : ∃ order π,
      run (HF.randomRelationshipOrder 4096 fuel rand) s = .ok (order, s) ∧
      Rearranges (s.liveIds .relationship) order π := by
  have hpages := hc.valid.pages_lt .relationship
  have hrels := run_getRelationships hc.valid (show s.pages .relationship * 256 < fuel by omega)
  obtain ⟨order, π, hok, h⟩ :=
    exchangeValues_liveIds hc.valid (hc.toNat_number .relationship) hpos hfuel rand
  refine ⟨order, π, ?_, h⟩
  have hget : run (Prog.perform .getCounters) s = .ok (s.counters, s) := rfl
  have hidentity : run (HF.identityRelationshipOrder 4096 fuel) s =
      .ok (identityOrder (s.liveIds .relationship), s) := by
    rw [run, HF.identityRelationshipOrder, Prog.run_bind_ok _ hrels, map_id_relAt]
    rfl
  rw [run, HF.randomRelationshipOrder, Prog.run_bind_ok _ hidentity, Prog.run_bind_ok _ hrels,
    Prog.run_bind_ok _ hget, map_id_relAt]
  exact run_lift hok s

end Store

namespace HeapFile

variable {hf : HeapFile PhyDatabase} {fuel : ℕ}

/-- **A random order is a bijection of the ids that exist**, whatever `rand` returns. -/
theorem randomOrders_permute (hg : hf.Good) (hc : (Store.of hf).Counted)
    (hnodes : 0 < hf.counters.nNodes.toNat) (hrels : 0 < hf.counters.nRels.toNat)
    (hfuel : maxPageNo 4096 * 256 ≤ fuel) (rand : ℕ → ℕ) :
    (∃ order hf' π, run (HF.randomNodeOrder 4096 fuel rand) hf = .ok (order, hf') ∧
      hf.Permutes .node order π) ∧
    ∃ order hf' π, run (HF.randomRelationshipOrder 4096 fuel rand) hf = .ok (order, hf') ∧
      hf.Permutes .relationship order π := by
  have hpermutes : ∀ {ft : FileType} {order : Dict} {π : Renaming},
      Rearranges ((Store.of hf).liveIds ft) order π → hf.Permutes ft order π := fun h =>
    ⟨fun x => by simp only [h.lookup, Store.mem_liveIds],
      fun x hx => h.fixed x (fun hmem => hx (Store.mem_liveIds.mp hmem))⟩
  constructor
  · obtain ⟨order, π, hrun, h⟩ := Store.run_randomNodeOrder hc hnodes hfuel rand
    obtain ⟨hf', hrun', -, -⟩ := run_ok hg hrun
    exact ⟨order, hf', π, hrun', hpermutes h⟩
  · obtain ⟨order, π, hrun, h⟩ := Store.run_randomRelationshipOrder hc hrels hfuel rand
    obtain ⟨hf', hrun', -, -⟩ := run_ok hg hrun
    exact ⟨order, hf', π, hrun', hpermutes h⟩

/-- Two nodes and two relationships, with a partner that is the element itself. -/
theorem randomOrders_permute_two : ∃ hf : HeapFile PhyDatabase,
    (∃ order hf' π,
      run (HF.randomNodeOrder 4096 (maxPageNo 4096 * 256) fun _ => 1) hf = .ok (order, hf') ∧
      hf.Permutes .node order π) ∧
    ∃ order hf' π, run (HF.randomRelationshipOrder 4096 (maxPageNo 4096 * 256) fun _ => 1) hf =
        .ok (order, hf') ∧ hf.Permutes .relationship order π := by
  have h : Prog.check Store.step (HF.creations 4096 1000
      [.node 7#64, .node 8#64, .relationship 1#64 0#64 0#64 5#64,
        .relationship 0#64 1#64 0#64 6#64]) Store.empty
      (fun _ s => decide (s.counters.nNodes = 2#64 ∧ s.counters.nRels = 2#64)) = true := by
    decide +kernel
  obtain ⟨ids, s, hrun, hp⟩ := Prog.check_inv _ h
  obtain ⟨hnNodes, hnRels⟩ := of_decide_eq_true hp
  have hc := Store.counted_of_creations hrun
  obtain ⟨-, -, hf, -, -, -, hw, rfl⟩ := exists_created hrun
  have hn : hf.counters.nNodes = 2#64 := hnNodes
  have hr : hf.counters.nRels = 2#64 := hnRels
  exact ⟨hf, randomOrders_permute hw.good hc (by rw [hn]; decide) (by rw [hr]; decide) le_rfl _⟩

end HeapFile

end Goedb
