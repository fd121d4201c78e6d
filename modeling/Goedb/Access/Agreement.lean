import Goedb.Access.InMemoryGraph
import Goedb.Access.Renaming
import Mathlib.Logic.Equiv.Fintype

/-!
# Access — the heap file and the in-memory graph agree

The same calls of creation on a fresh heap file and on a fresh in-memory graph make the same graph,
up to the ids of the relationships: the `k`-th one is `k` in memory and `4 * k` in the heap file,
where it takes four slots.

* `Store.Dense`: as long as nothing is deleted the records lie in the first slots, without gaps.
* `Corresponds.creation`: one call, on both sides.
* `creations_agree`: every sequence of calls, the records that come out and their expansion.
-/

namespace Goedb

open Lib

/-! ### Ids and records of both sides -/

/-- The id in the heap file of the relationship `k` of the in-memory graph. -/
def heapId (k : Ulong) : Ulong := if k = uninitializedLong then uninitializedLong else 4 * k

/-- The node of the heap file for a node of the in-memory graph. -/
def Node.toHeap (nd : Node) : Node := { nd with firstRelationship := heapId nd.firstRelationship }

/-- The relationship of the heap file for a relationship of the in-memory graph. -/
def Relationship.toHeap (r : Relationship) : Relationship :=
  { r with
    id := heapId r.id
    prevRelSource := heapId r.prevRelSource
    nextRelSource := heapId r.nextRelSource
    prevRelTarget := heapId r.prevRelTarget
    nextRelTarget := heapId r.nextRelTarget }

/-- The ids that calls of creation return after `nodes` nodes and `rels` relationships, where a
relationship takes `slots` slots. -/
def idsOf (slots : ℕ) : (nodes rels : ℕ) → List Creation → List Ulong
  | _, _, [] => []
  | nodes, rels, .node _ :: cs => BitVec.ofNat 64 nodes :: idsOf slots (nodes + 1) rels cs
  | nodes, rels, .relationship .. :: cs =>
      BitVec.ofNat 64 (slots * rels) :: idsOf slots nodes (rels + 1) cs

namespace Mem

/-- The call, with the id it returns. -/
def creation : Creation → Mem Ulong
  | .node label => createNode label
  | .relationship fromId toId weight label => createRelationshipWeighted fromId toId weight label

/-- One call after the other. -/
def creations : List Creation → Mem (List Ulong)
  | [] => pure []
  | c :: cs => do
      let id ← creation c
      let ids ← creations cs
      return id :: ids

end Mem

/-- The ids that `heapId` renames: those of relationships that fit into a heap file, and null. -/
def Fits (k : Ulong) : Prop := k.toNat < 2 ^ 62 ∨ k = uninitializedLong

theorem toNat_heapId {k : Ulong} (h : k.toNat < 2 ^ 62) : (heapId k).toNat = 4 * k.toNat := by
  have hU : k ≠ uninitializedLong := by
    rintro rfl
    exact absurd h (by decide)
  rw [heapId, if_neg hU, BitVec.toNat_mul]
  exact Nat.mod_eq_of_lt (show 4 * k.toNat < 2 ^ 64 by omega)

theorem heapId_injOn {j k : Ulong} (hj : Fits j) (hk : Fits k) (h : heapId j = heapId k) :
    j = k := by
  have hnull : ∀ {k : Ulong}, k.toNat < 2 ^ 62 → heapId k ≠ uninitializedLong := by
    intro k hk e
    have := toNat_heapId hk
    rw [e] at this
    have hU : uninitializedLong.toNat % 4 = 2 := by decide
    omega
  rcases hj with hj | rfl <;> rcases hk with hk | rfl
  · have := congrArg BitVec.toNat h
    rw [toNat_heapId hj, toNat_heapId hk] at this
    exact BitVec.eq_of_toNat_eq (by omega)
  · exact absurd h (hnull hj)
  · exact absurd h.symm (hnull hk)
  · rfl

/-- A renaming of all ids that is `heapId` where it matters. -/
theorem exists_heapRenaming : ∃ σ : Renaming, ∀ k, Fits k → σ k = heapId k := by
  classical
  have : Finite Ulong := Finite.of_injective BitVec.toFin fun _ _ h => BitVec.eq_of_toFin_eq h
  let f : {k // Fits k} → Ulong := fun k => heapId k
  have hf : Function.Injective f := fun j k h => Subtype.ext (heapId_injOn j.2 k.2 h)
  let e : {k // Fits k} ≃ {k // k ∈ Set.range f} := Equiv.ofInjective f hf
  exact ⟨e.extendSubtype, fun k hk => e.extendSubtype_apply_of_mem k hk⟩

/-! ### Slots without gaps -/

namespace Store

/-- The records of a type are the first `n` ones, and the search for a free slot starts at one of
them or right after them. -/
structure Dense (s : Store) (ft : FileType) (n : ℕ) : Prop where
  live : ∀ x, s.Live ft x ↔ x.toNat % numSlotsPer ft = 0 ∧ x.toNat < n * numSlotsPer ft
  last : (s.counters.lastAlloc ft).toNat ≤ n * numSlotsPer ft
  fits : n * numSlotsPer ft ≤ s.pages ft * 256

variable {s s' : Store} {ft gt : FileType} {id : Ulong} {n : ℕ} {count : Counters → Counters}

/-- The next record comes right after the others. -/
theorem Dense.toNat_new (hd : s.Dense ft n) (hv : s.Valid) (hC : Created s ft id count s') :
    id.toNat = n * numSlotsPer ft := by
  have hn := numSlotsPer_cases ft
  have hpages := hv.pages_lt ft
  have hmax : maxPageNo 4096 < 2 ^ 51 := by decide
  have hfits := hd.fits
  have hend : (BitVec.ofNat 64 (n * numSlotsPer ft)).toNat = n * numSlotsPer ft := by
    rw [BitVec.toNat_ofNat]
    exact Nat.mod_eq_of_lt (by omega)
  -- the slot after the last record is free
  have hfree : ¬ s.Live ft (BitVec.ofNat 64 (n * numSlotsPer ft)) := by
    rw [hd.live, hend]
    exact fun h => absurd h.2 (Nat.lt_irrefl _)
  obtain ⟨o, ho, rfl⟩ := hC.first
  cases o with
  | some id =>
      obtain ⟨ha, -, hl, -, hbelow⟩ := ho
      have hge : n * numSlotsPer ft ≤ id.toNat := by
        by_contra hlt
        exact hl ((hd.live id).mpr ⟨ha, Nat.lt_of_not_le hlt⟩)
      rcases Nat.eq_or_lt_of_le hge with he | hlt
      · exact he.symm
      · exact absurd (hbelow _ hd.last hlt (Nat.mul_mod_left ..)) hfree
  | none =>
      rw [Option.getD_none, hv.toNat_endId]
      rcases Nat.eq_or_lt_of_le hfits with he | hlt
      · exact he.symm
      · exact absurd (ho _ hd.last (Nat.mul_mod_left ..) (by omega)) hfree

/-- The records are without gaps once one is created. -/
theorem Dense.created (hd : s.Dense ft n) (hv : s.Valid) (hC : Created s ft id count s')
    (hcount : ∀ c : Counters, (count c).lastAlloc ft = c.lastAlloc ft) : s'.Dense ft (n + 1) := by
  have hid := hd.toNat_new hv hC
  have hn := numSlotsPer_cases ft
  obtain ⟨s₁, hA, hp, -, hc⟩ := hC.allocated
  have hself : s'.Live ft id := (hC.live ft id).mpr (.inr ⟨rfl, rfl⟩)
  have hlast : (s'.counters.lastAlloc ft) = id := by
    rw [hc, hcount, hA.counters]
    cases ft <;> rfl
  refine ⟨fun x => ?_, ?_, ?_⟩
  · rw [hC.live, hd.live, ← BitVec.toNat_inj, hid, Nat.add_mul, Nat.one_mul]
    have hmul : n * numSlotsPer ft % numSlotsPer ft = 0 := Nat.mul_mod_left ..
    simp only [true_and]
    rcases hn with hn | hn <;> rw [hn] at hmul ⊢ <;> omega
  · rw [hlast, hid]
    exact Nat.mul_le_mul_right _ (Nat.le_succ n)
  · have h₁ := hself.2.1
    rw [hid] at h₁
    rw [Nat.add_mul, Nat.one_mul]
    rcases hn with hn | hn <;> rw [hn] at h₁ ⊢ <;> omega

/-- The records of the other type stay where they are. -/
theorem Dense.other (hd : s.Dense gt n) (hne : gt ≠ ft) (hC : Created s ft id count s')
    (hcount : ∀ c : Counters, (count c).lastAlloc gt = c.lastAlloc gt) : s'.Dense gt n := by
  obtain ⟨s₁, hA, hp, -, hc⟩ := hC.allocated
  have hlast : s'.counters.lastAlloc gt = s.counters.lastAlloc gt := by
    rw [hc, hcount, hA.counters]
    cases ft <;> cases gt <;> first | rfl | exact absurd rfl hne
  refine ⟨fun x => ?_, hlast ▸ hd.last, ?_⟩
  · rw [hC.live, ← hd.live]
    simp [hne]
  · rw [hp]
    exact hd.fits.trans (Nat.mul_le_mul_right _ (hA.pages_le gt).1)

theorem dense_empty (ft : FileType) : empty.Dense ft 0 where
  live x := by
    rw [Nat.zero_mul]
    exact ⟨fun h => absurd h (not_live_empty ft x), fun h => absurd h.2 (Nat.not_lt_zero _)⟩
  last := by cases ft <;> exact Nat.le_of_eq rfl
  fits := by
    rw [Nat.zero_mul]
    exact Nat.zero_le _

/-- A slot is found as long as not all of them are taken. -/
theorem Dense.not_noSlot (hd : s.Dense ft n) (hv : s.Valid) {fuel : ℕ}
    (hn : n * numSlotsPer ft < 256 * (maxPageNo 4096 - 1)) (hfuel : maxPageNo 4096 * 256 ≤ fuel) :
    ¬ s.NoSlot ft fuel := by
  have hlt := hv.pages_lt ft
  rintro (h | ⟨hmax, hfree⟩)
  · omega
  · have hto : (BitVec.ofNat 64 (n * numSlotsPer ft)).toNat = n * numSlotsPer ft := by
      have : maxPageNo 4096 < 2 ^ 51 := by decide
      rw [BitVec.toNat_ofNat]
      exact Nat.mod_eq_of_lt (by omega)
    have hl := hfree (n * numSlotsPer ft) hd.last (Nat.mul_mod_left ..) (by omega)
    rw [hd.live, hto] at hl
    exact Nat.lt_irrefl _ hl.2

theorem Dense.lt (hd : s.Dense ft n) (hv : s.Valid) : n < 2 ^ 59 := by
  have hpages := hv.pages_lt ft
  have hmax : maxPageNo 4096 < 2 ^ 51 := by decide
  have hfits := hd.fits
  rcases numSlotsPer_cases ft with hn | hn <;> rw [hn] at hfits <;> omega

/-- Nodes are created one after the other. -/
theorem run_createNodes (fuel : ℕ) (labels : List Ulong) : ∀ {s : Store} {n : ℕ}, s.WellFormed →
    s.Dense .node n → (∀ ft, s.pages ft ≤ n) → n + labels.length < maxPageNo 4096 →
    (n + labels.length) * 256 ≤ fuel →
    ∃ ids s', run (HF.creations 4096 fuel (labels.map .node)) s = .ok (ids, s') ∧
      s'.Dense .node (n + labels.length) ∧ (∀ ft, s'.pages ft ≤ n + labels.length) ∧
      s'.counters.nNodes = s.counters.nNodes + BitVec.ofNat 64 labels.length ∧
      (∀ x : Ulong, x.toNat < n → s'.graph.node x = s.graph.node x) ∧
      ∀ k label, labels[k]? = some label → s'.graph.node (BitVec.ofNat 64 (n + k)) =
        some { newNode with id := BitVec.ofNat 64 (n + k), label := label } := by
  induction labels with
  | nil =>
      intro s n hw hd hp _ _
      exact ⟨[], s, rfl, hd, hp, (BitVec.add_zero _).symm, fun _ _ => rfl,
        fun k label hk => by (cases hk)⟩
  | cons label labels ih =>
      intro s n hw hd hp hroom hfuel
      rw [List.length_cons, Nat.add_comm labels.length, ← Nat.add_assoc] at hroom hfuel ⊢
      have hmax : n + 1 < maxPageNo 4096 := Nat.lt_of_le_of_lt (Nat.le_add_right _ _) hroom
      rcases run_createNode hw.valid fuel label with ⟨e, -, hE⟩ | ⟨id, s₁, h₁, hC, hg⟩
      · have := hp .node
        -- there is room for all labels, so for this one
        rcases hE.exhausted with hE | hE <;> omega
      · have hlt : n < 2 ^ 59 := hd.lt hw.valid
        have hid : id = BitVec.ofNat 64 n := by
          apply BitVec.eq_of_toNat_eq
          rw [hd.toNat_new hw.valid hC, BitVec.toNat_ofNat, Nat.mod_eq_of_lt (by omega)]
          exact Nat.mul_one n
        obtain ⟨s₂, hA, hpages, -, hc⟩ := hC.allocated
        obtain ⟨ids, s', hrun, hd', hp', hn', hbelow, habove⟩ := ih (n := n + 1)
          (createNode_wellFormed hw h₁) (hd.created hw.valid hC fun _ => rfl)
          (fun ft => by rw [hpages]; exact (hA.pages_le ft).2.trans (Nat.succ_le_succ (hp ft)))
          hroom hfuel
        refine ⟨id :: ids, s', ?_, hd', hp', ?_, fun x hx => ?_, fun k label' hk => ?_⟩
        · rw [run, List.map_cons, HF.creations, HF.creation, Prog.run_bind_ok _ h₁,
            Prog.run_bind_ok _ hrun]
          rfl
        · rw [hn', hc, hA.counters, countNode, BitVec.ofNat_add, ← BitVec.add_assoc]
          rfl
        · rw [hbelow x (Nat.lt_succ_of_lt hx), hg]
          refine Function.update_of_ne ?_ _ _
          rintro rfl
          rw [hid, BitVec.toNat_ofNat] at hx
          exact absurd hx (by omega)
        · cases k with
          | zero =>
              cases hk
              rw [hbelow _ (by rw [BitVec.toNat_ofNat]; omega), hg, Nat.add_zero, ← hid]
              exact Function.update_self ..
          | succ k =>
              have := habove k label' hk
              rwa [Nat.add_assoc, Nat.add_comm 1 k] at this

end Store

/-! ### Corresponding states -/

/-- The heap file has the records of the in-memory graph under the renaming `σ` of relationships:
`nodes` nodes and `rels` relationships. -/
structure Corresponds (σ : Renaming) (s : Store) (m : InMemoryGraph) (nodes rels : ℕ) : Prop where
  store : s.WellFormed
  memory : m.WellFormed
  nNodes : m.nNodes = BitVec.ofNat 64 nodes
  nRels : m.nRels = BitVec.ofNat 64 rels
  denseNodes : s.Dense .node nodes
  denseRels : s.Dense .relationship rels
  graph : s.graph = m.graph.rename 1 σ
  pages : ∀ ft, s.pages ft ≤ nodes + rels

namespace Corresponds

variable {σ : Renaming} {s : Store} {m : InMemoryGraph} {nodes rels : ℕ}

section

variable (h : Corresponds σ s m nodes rels)
include h

theorem toNat_nNodes : m.nNodes.toNat = nodes := by
  have := h.denseNodes.lt h.store.valid
  rw [h.nNodes, BitVec.toNat_ofNat]
  exact Nat.mod_eq_of_lt (by omega)

theorem toNat_nRels : m.nRels.toNat = rels := by
  have := h.denseRels.lt h.store.valid
  rw [h.nRels, BitVec.toNat_ofNat]
  exact Nat.mod_eq_of_lt (by omega)

theorem node_eq (n : Ulong) : s.graph.node n = (m.cacheNodes n).map (Node.rename 1 σ) := by
  rw [h.graph]
  rfl

end

theorem empty (σ : Renaming) : Corresponds σ Store.empty InMemoryGraph.create 0 0 where
  store := Store.empty_wellFormed
  memory := InMemoryGraph.create_wellFormed
  nNodes := rfl
  nRels := rfl
  denseNodes := Store.dense_empty _
  denseRels := Store.dense_empty _
  graph := by
    rw [Store.graph_empty]
    rfl
  pages _ := Nat.le_refl _

section Step

variable (hσ : ∀ k, Fits k → σ k = heapId k)
include hσ

theorem renaming_null : σ uninitializedLong = uninitializedLong := by
  rw [hσ _ (.inr rfl), heapId, if_pos rfl]

/-- `create_node` on both sides. -/
theorem createNode (h : Corresponds σ s m nodes rels) {fuel : ℕ} {label id : Ulong} {s' : Store}
    (hr : Store.run (HF.createNode 4096 fuel label) s = .ok (id, s')) :
    id = BitVec.ofNat 64 nodes ∧
      InMemoryGraph.run (Mem.createNode label) m = .ok (id, m.addNode label) ∧
      Corresponds σ s' (m.addNode label) (nodes + 1) rels := by
  rcases Store.run_createNode h.store.valid fuel label with ⟨e, he, -⟩ | ⟨id', s₁, h₁, hC, hg⟩
  · rw [he] at hr
    cases hr
  · rw [h₁] at hr
    cases hr
    have hid : id = m.nNodes := by
      rw [← BitVec.toNat_inj, h.denseNodes.toNat_new h.store.valid hC, h.toNat_nNodes]
      exact Nat.mul_one nodes
    have hlt : m.nNodes.toNat < uninitializedLong.toNat := by
      have := h.denseNodes.lt h.store.valid
      have hU : 2 ^ 59 < uninitializedLong.toNat := by decide
      rw [h.toNat_nNodes]
      omega
    obtain ⟨s₂, hA, hp, -, -⟩ := hC.allocated
    refine ⟨hid.trans h.nNodes, hid ▸ rfl, ?_, h.memory.addNode hlt label, ?_, h.nRels,
      h.denseNodes.created h.store.valid hC fun _ => rfl,
      h.denseRels.other (by decide) hC fun _ => rfl, ?_, fun ft => ?_⟩
    · exact Store.createNode_wellFormed h.store h₁
    · rw [InMemoryGraph.addNode, h.nNodes]
      simp [BitVec.ofNat_add]
    · rw [hg, h.graph, InMemoryGraph.addNode_graph, Graph.setNode_rename, hid]
      congr 1
      simp only [Node.rename, newNode, renaming_null hσ]
      rfl
    · have h₁ := (hA.pages_le ft).2
      have h₂ := h.pages ft
      rw [hp]
      omega

/-- `create_relationship` on both sides. -/
theorem createRelationship (h : Corresponds σ s m nodes rels) {fuel : ℕ}
    {fromId toId weight label id : Ulong} {s' : Store}
    (hr : Store.run (HF.createRelationship 4096 fuel fromId toId weight label) s = .ok (id, s')) :
    id = BitVec.ofNat 64 (4 * rels) ∧ ∃ m',
      InMemoryGraph.run (Mem.createRelationshipWeighted fromId toId weight label) m =
        .ok (BitVec.ofNat 64 rels, m') ∧
      Corresponds σ s' m' nodes (rels + 1) := by
  obtain ⟨⟨nf, hnf⟩, ⟨nt, hnt⟩, hwt⟩ := Store.createRelationship_inv h.store.valid hr
  rcases Store.run_createRelationship h.store hnf hnt hwt fuel label with
    ⟨e, he, -⟩ | ⟨id', s₁, h₁, hC, hg⟩
  · rw [he] at hr
    cases hr
  · rw [h₁] at hr
    cases hr
    have hrels := h.denseRels.lt h.store.valid
    have hfits : m.nRels.toNat < 2 ^ 62 := by
      rw [h.toNat_nRels]
      omega
    have hid : id = σ m.nRels := by
      rw [hσ _ (.inl hfits), ← BitVec.toNat_inj, toNat_heapId hfits,
        h.denseRels.toNat_new h.store.valid hC, h.toNat_nRels]
      exact Nat.mul_comm rels 4
    have hlt : m.nRels.toNat < uninitializedLong.toNat :=
      hfits.trans (by decide)
    rw [h.node_eq] at hnf hnt
    obtain ⟨nf', hnf', rfl⟩ := Option.map_eq_some_iff.mp hnf
    obtain ⟨nt', hnt', rfl⟩ := Option.map_eq_some_iff.mp hnt
    obtain ⟨m', hm', hg', hnn, hnr⟩ := InMemoryGraph.run_createRelationshipWeighted h.memory hnf'
      hnt' hwt hlt label
    obtain ⟨s₂, hA, hp, -, -⟩ := hC.allocated
    refine ⟨?_, m', h.nRels ▸ hm', ?_, h.memory.link hlt hnf' hnt' hg' hnn hnr, hnn.trans h.nNodes,
      ?_, h.denseNodes.other (by decide) hC fun _ => rfl,
      h.denseRels.created h.store.valid hC fun _ => rfl, ?_, fun ft => ?_⟩
    · rw [← BitVec.toNat_inj, h.denseRels.toNat_new h.store.valid hC, BitVec.toNat_ofNat,
        Nat.mod_eq_of_lt (by omega)]
      exact Nat.mul_comm rels 4
    · rw [← h.node_eq] at hnf hnt
      exact (Store.createRelationship_wellFormed h.store hnf hnt hwt h₁).1
    · rw [hnr, h.nRels]
      simp [BitVec.ofNat_add]
    · rw [hg, hg', h.graph, Graph.link_rename (renaming_null hσ), hid]
      congr 1
      simp only [Store.relOf, Relationship.rename, newRelationship, renaming_null hσ]
      rfl
    · have h₁ := (hA.pages_le ft).2
      have h₂ := h.pages ft
      rw [hp]
      omega

/-- One call that returns on the heap file, on both sides. -/
theorem creation (h : Corresponds σ s m nodes rels) {fuel : ℕ} {c : Creation} {id : Ulong}
    {s' : Store} (hr : Store.run (HF.creation 4096 fuel c) s = .ok (id, s')) (cs : List Creation) :
    ∃ k m' nodes' rels', InMemoryGraph.run (Mem.creation c) m = .ok (k, m') ∧
      Corresponds σ s' m' nodes' rels' ∧ nodes' + rels' = nodes + rels + 1 ∧
      idsOf 4 nodes rels (c :: cs) = id :: idsOf 4 nodes' rels' cs ∧
      idsOf 1 nodes rels (c :: cs) = k :: idsOf 1 nodes' rels' cs := by
  cases c with
  | node label =>
      obtain ⟨hid, hm, h'⟩ := h.createNode hσ hr
      refine ⟨id, _, nodes + 1, rels, hm, h', by omega, ?_, ?_⟩
      · rw [idsOf, hid]
      · rw [idsOf, hid]
  | relationship fromId toId weight label =>
      obtain ⟨hid, m', hm, h'⟩ := h.createRelationship hσ hr
      refine ⟨_, m', nodes, rels + 1, hm, h', by omega, ?_, ?_⟩
      · rw [idsOf, hid]
      · rw [idsOf, Nat.one_mul]

/-- **Every sequence of calls** that returns on the heap file returns on the in-memory graph. -/
theorem creations {fuel : ℕ} (cs : List Creation) : ∀ {s : Store} {m : InMemoryGraph}
    {nodes rels : ℕ}, Corresponds σ s m nodes rels → ∀ {ids s'},
    Store.run (HF.creations 4096 fuel cs) s = .ok (ids, s') →
    ids = idsOf 4 nodes rels cs ∧ ∃ m' nodes' rels',
      InMemoryGraph.run (Mem.creations cs) m = .ok (idsOf 1 nodes rels cs, m') ∧
      Corresponds σ s' m' nodes' rels' := by
  induction cs with
  | nil =>
      intro s m nodes rels h ids s' hr
      cases hr
      exact ⟨rfl, m, nodes, rels, rfl, h⟩
  | cons c cs ih =>
      intro s m nodes rels h ids s' hr
      obtain ⟨id, s₁, h₁, hr⟩ := Prog.run_bind_inv _ hr
      obtain ⟨ids', s₂, h₂, hr⟩ := Prog.run_bind_inv _ hr
      cases hr
      obtain ⟨k, m₁, nodes₁, rels₁, hm₁, hC₁, -, e₁, e₂⟩ := h.creation hσ h₁ cs
      obtain ⟨rfl, m₂, nodes₂, rels₂, hm₂, hC₂⟩ := ih hC₁ h₂
      refine ⟨e₁.symm, m₂, nodes₂, rels₂, ?_, hC₂⟩
      rw [InMemoryGraph.run, Mem.creations, Prog.run_bind_ok _ hm₁, Prog.run_bind_ok _ hm₂, e₂]
      rfl

omit hσ in
/-- There is room on the heap file for one more record. -/
theorem not_exhausted (h : Corresponds σ s m nodes rels) {fuel : ℕ} (ft : FileType)
    (hroom : nodes + rels + 1 < maxPageNo 4096) (hfuel : (nodes + rels) * 256 < fuel) :
    ¬ s.Exhausted ft fuel := by
  have hp := h.pages ft
  rintro (h' | h')
  · have := Nat.mul_le_mul_right 256 hp
    omega
  · omega

omit hσ in
/-- One call that returns on the in-memory graph returns on the heap file, if there is room. -/
theorem exists_creation (h : Corresponds σ s m nodes rels) {fuel : ℕ} {c : Creation} {k : Ulong}
    {m' : InMemoryGraph} (hm : InMemoryGraph.run (Mem.creation c) m = .ok (k, m'))
    (hroom : nodes + rels + 1 < maxPageNo 4096) (hfuel : (nodes + rels) * 256 < fuel) :
    ∃ id s', Store.run (HF.creation 4096 fuel c) s = .ok (id, s') := by
  cases c with
  | node label =>
      rcases Store.run_createNode h.store.valid fuel label with ⟨e, -, hE⟩ | ⟨id, s', hr, -⟩
      · exact absurd hE.exhausted (h.not_exhausted _ hroom hfuel)
      · exact ⟨id, s', hr⟩
  | relationship fromId toId weight label =>
      obtain ⟨⟨nf, hnf⟩, ⟨nt, hnt⟩, hwt⟩ := InMemoryGraph.createRelationshipWeighted_inv hm
      have hnode : ∀ {n nd}, m.cacheNodes n = some nd →
          s.graph.node n = some (nd.rename 1 σ) := by
        intro n nd hn
        rw [h.node_eq, hn]
        rfl
      rcases Store.run_createRelationship h.store (hnode hnf) (hnode hnt) hwt fuel label with
        ⟨e, -, hE⟩ | ⟨id, s', hr, -⟩
      · exact absurd hE.exhausted (h.not_exhausted _ hroom hfuel)
      · exact ⟨id, s', hr⟩

/-- **And every sequence of calls** that returns on the in-memory graph returns on the heap file, as
long as there is room. -/
theorem exists_creations {fuel : ℕ} (cs : List Creation) : ∀ {s : Store} {m : InMemoryGraph}
    {nodes rels : ℕ}, Corresponds σ s m nodes rels → nodes + rels + cs.length < maxPageNo 4096 →
    (nodes + rels + cs.length) * 256 ≤ fuel →
    ∀ {ks m'}, InMemoryGraph.run (Mem.creations cs) m = .ok (ks, m') →
    ∃ ids s', Store.run (HF.creations 4096 fuel cs) s = .ok (ids, s') := by
  induction cs with
  | nil =>
      intro s m nodes rels h _ _ ks m' _
      exact ⟨[], s, rfl⟩
  | cons c cs ih =>
      intro s m nodes rels h hroom hfuel ks m' hm
      rw [List.length_cons] at hroom hfuel
      obtain ⟨k, m₁, hm₁, hm⟩ := Prog.run_bind_inv _ hm
      obtain ⟨ks', m₂, hm₂, -⟩ := Prog.run_bind_inv _ hm
      have hroom' : nodes + rels + 1 < maxPageNo 4096 :=
        Nat.lt_of_le_of_lt (Nat.add_le_add_left (Nat.le_add_left 1 _) _) hroom
      have hfuel' : (nodes + rels) * 256 < fuel := by
        clear hroom hroom'
        omega
      obtain ⟨id, s₁, h₁⟩ := h.exists_creation hm₁ hroom' hfuel'
      obtain ⟨k', m₁', nodes₁, rels₁, hm₁', hC₁, hsum, -⟩ := h.creation hσ h₁ cs
      rw [InMemoryGraph.run, hm₁] at hm₁'
      cases hm₁'
      rw [Nat.add_comm cs.length, ← Nat.add_assoc, ← hsum] at hroom hfuel
      obtain ⟨ids, s₂, h₂⟩ := ih hC₁ hroom hfuel hm₂
      refine ⟨id :: ids, s₂, ?_⟩
      rw [Store.run, HF.creations, Prog.run_bind_ok _ h₁, Prog.run_bind_ok _ h₂]
      rfl

/-! ### Corresponding records -/

omit hσ in
theorem fits_of_rel (h : Corresponds σ s m nodes rels) {k : Ulong} {r : Relationship}
    (hk : m.cacheRels k = some r) : Fits k := by
  have hlt := (h.memory.rels k).mp (Option.isSome_of_eq_some hk)
  have hrels := h.denseRels.lt h.store.valid
  rw [h.toNat_nRels] at hlt
  exact .inl (by omega)

theorem rename_node (h : Corresponds σ s m nodes rels) {n : Ulong} {nd : Node}
    (hn : m.cacheNodes n = some nd) : nd.rename 1 σ = nd.toHeap := by
  have hfits : Fits nd.firstRelationship := by
    rcases h.memory.graph.first_null_or hn with hU | ⟨r, hr⟩
    · exact .inr hU
    · exact h.fits_of_rel hr
  simp only [Node.rename, Node.toHeap, hσ _ hfits]
  rfl

theorem rename_rel (h : Corresponds σ s m nodes rels) {k : Ulong} {r : Relationship}
    (hk : m.cacheRels k = some r) : r.rename 1 σ = r.toHeap := by
  have hid : σ r.id = heapId r.id := hσ _ (h.memory.keyed k r hk ▸ h.fits_of_rel hk)
  have hptr : ∀ y ∈ [r.prevRelSource, r.nextRelSource, r.prevRelTarget, r.nextRelTarget],
      σ y = heapId y := by
    intro y hy
    obtain ⟨r', hr'⟩ := h.memory.graph.pointers hk y hy
    exact hσ y (h.fits_of_rel hr')
  simp only [List.mem_cons, List.not_mem_nil, or_false, forall_eq_or_imp, forall_eq] at hptr
  obtain ⟨h₁, h₂, h₃, h₄⟩ := hptr
  simp only [Relationship.rename, Relationship.toHeap, hid, h₁, h₂, h₃, h₄]
  rfl

omit hσ in
/-- A chain has no more relationships than there are. -/
theorem length_le (h : Corresponds σ s m nodes rels) {n first : Ulong} {l : List Ulong}
    (hc : m.graph.Chain n first l) : l.length ≤ m.nRels.toNat := by
  have hd : (l.map BitVec.toNat).Nodup :=
    hc.nodup.map fun _ _ e => BitVec.eq_of_toNat_eq e
  have hsub : l.map BitVec.toNat ⊆ List.range m.nRels.toNat := by
    intro j hj
    obtain ⟨x, hx, rfl⟩ := List.mem_map.mp hj
    obtain ⟨r, hr, -⟩ := (hc.mem x).mp hx
    exact List.mem_range.mpr ((h.memory.rels x).mp (Option.isSome_of_eq_some hr))
  simpa using (hd.subperm hsub).length_le

/-- The expansions of a node correspond. -/
theorem expand (h : Corresponds σ s m nodes rels) (n : Ulong) (l : List Ulong)
    (direction : Direction) :
    s.graph.expand n direction (l.map σ) =
      (m.graph.expand n direction l).map Relationship.toHeap := by
  have hgoes : ∀ r : Relationship, (r.rename 1 σ).Goes n direction ↔ r.Goes n direction :=
    fun _ => Iff.rfl
  have hmap : (l.map σ).filterMap s.graph.rel =
      (l.filterMap m.cacheRels).map (Relationship.rename 1 σ) := by
    rw [h.graph, List.filterMap_map, List.map_filterMap]
    refine List.filterMap_congr fun x _ => ?_
    rw [Function.comp, Graph.rename_rel]
    rfl
  rw [Graph.expand, Graph.expand, hmap, List.filter_map]
  simp only [Function.comp_def, hgoes]
  refine List.map_congr_left fun r hr => ?_
  obtain ⟨x, -, hx⟩ := List.mem_filterMap.mp (List.mem_of_mem_filter hr)
  exact h.rename_rel hσ hx

end Step

end Corresponds

/-! ### The agreement -/

/-- The heap file has the records of the in-memory graph, with the ids of relationships times
four. -/
structure SameRecords (hf : HeapFile PhyDatabase) (m : InMemoryGraph) : Prop where
  nodes : ∀ n, hf.graph.node n = (m.cacheNodes n).map Node.toHeap
  rels : ∀ k r, m.cacheRels k = some r → hf.graph.rel (4 * k) = some r.toHeap
  only : ∀ x r, hf.graph.rel x = some r → ∃ k, x = 4 * k ∧ (m.cacheRels k).isSome

/-- For every node and every direction, `expand` and `in_memory_expand` return corresponding
relationships in the same order. -/
def SameExpansions (hf : HeapFile PhyDatabase) (m : InMemoryGraph) : Prop :=
  ∀ n direction, (m.cacheNodes n).isSome → ∃ rels, ∀ fuel, m.nRels.toNat < fuel →
    (∃ hf', HeapFile.run (HF.expand fuel n direction) hf =
      .ok (rels.map Relationship.toHeap, hf')) ∧
    InMemoryGraph.run (Mem.expand fuel n direction) m = .ok (rels, m)

namespace Corresponds

variable {σ : Renaming} {hf : HeapFile PhyDatabase} {m : InMemoryGraph} {nodes rels : ℕ}
  (hσ : ∀ k, Fits k → σ k = heapId k) (h : Corresponds σ (Store.of hf) m nodes rels)
include hσ h

theorem sameRecords : SameRecords hf m where
  nodes n := by
    rw [HeapFile.graph, h.node_eq]
    cases hn : m.cacheNodes n with
    | none => rfl
    | some nd => exact congrArg some (h.rename_node hσ hn)
  rels k r hk := by
    have hU : k ≠ uninitializedLong := h.memory.rel_ne_null hk
    have hheap : σ k = 4 * k := by rw [hσ _ (h.fits_of_rel hk), heapId, if_neg hU]
    rw [HeapFile.graph, h.graph, ← hheap, Graph.rename_rel]
    exact (congrArg _ hk).trans (congrArg some (h.rename_rel hσ hk))
  only x r hr := by
    rw [HeapFile.graph, h.graph] at hr
    obtain ⟨k, r', rfl, -, hk⟩ := Graph.rename_rel_eq_some hr
    have hU : k ≠ uninitializedLong := h.memory.rel_ne_null hk
    exact ⟨k, by rw [hσ _ (h.fits_of_rel hk), heapId, if_neg hU], Option.isSome_of_eq_some hk⟩

theorem sameExpansions (hg : hf.Good) : SameExpansions hf m := by
  intro n direction hn
  obtain ⟨nd, hnd⟩ := Option.isSome_iff_exists.mp hn
  obtain ⟨l, hc⟩ := h.memory.graph.chain n nd hnd
  have hnode : (Store.of hf).graph.node n = some (nd.rename 1 σ) := by
    rw [h.node_eq, hnd]
    rfl
  have hc' : (Store.of hf).graph.Chain n (nd.rename 1 σ).firstRelationship (l.map σ) := by
    rw [h.graph]
    exact hc.rename (renaming_null hσ)
  refine ⟨m.graph.expand n direction l, fun fuel hf' => ?_⟩
  have hlen : l.length < fuel := Nat.lt_of_le_of_lt (h.length_le hc) hf'
  have hrun := Store.run_expand h.store.valid hnode hc'.walk direction (by rwa [List.length_map])
  rw [h.expand hσ n l] at hrun
  obtain ⟨hf'', hrun', -⟩ := HeapFile.run_ok hg hrun
  exact ⟨⟨hf'', hrun'⟩, InMemoryGraph.run_expand h.memory hnd hc.walk direction hlen⟩

end Corresponds

/-- **The heap file and the in-memory graph agree.**  Calls of creation that return on a fresh heap
file return on a fresh in-memory graph, with the ids `k` for the `k`-th node on both sides and `4 * k`
and `k` for the `k`-th relationship; the records are the same up to these ids, and so is every
expansion.  And calls that return on the in-memory graph return on the heap file, as long as the
files are not full. -/
theorem creations_agree :
    (∀ (fuel : ℕ) (cs : List Creation) (db : PhyDatabase) (hf₀ hf : HeapFile PhyDatabase)
        (ids : List Ulong), PhyDatabase.create 4096 = .ok db →
      HeapFile.create 4096 fuel (PhyDatabase.flat 4096) db = .ok hf₀ →
      HeapFile.run (HF.creations 4096 fuel cs) hf₀ = .ok (ids, hf) →
      ids = idsOf 4 0 0 cs ∧ ∃ m,
        InMemoryGraph.run (Mem.creations cs) InMemoryGraph.create = .ok (idsOf 1 0 0 cs, m) ∧
        SameRecords hf m ∧ SameExpansions hf m) ∧
    ∀ (fuel : ℕ) (cs : List Creation) (db : PhyDatabase) (hf₀ : HeapFile PhyDatabase)
        (ks : List Ulong) (m : InMemoryGraph), PhyDatabase.create 4096 = .ok db →
      HeapFile.create 4096 fuel (PhyDatabase.flat 4096) db = .ok hf₀ →
      InMemoryGraph.run (Mem.creations cs) InMemoryGraph.create = .ok (ks, m) →
      cs.length < maxPageNo 4096 → cs.length * 256 ≤ fuel →
      ∃ ids hf, HeapFile.run (HF.creations 4096 fuel cs) hf₀ = .ok (ids, hf) := by
  obtain ⟨σ, hσ⟩ := exists_heapRenaming
  have h₀ := Corresponds.empty σ
  constructor
  · intro fuel cs db hf₀ hf ids hdb hcreate hrun
    obtain ⟨hg₀, hs₀⟩ := HeapFile.create_inv hdb hcreate
    obtain ⟨hg, hrun'⟩ := HeapFile.run_inv hg₀ hrun
    rw [hs₀] at hrun'
    obtain ⟨hids, m, nodes, rels, hm, hC⟩ := Corresponds.creations hσ cs h₀ hrun'
    exact ⟨hids, m, hm, hC.sameRecords hσ, hC.sameExpansions hσ hg⟩
  · intro fuel cs db hf₀ ks m hdb hcreate hm hroom hfuel
    obtain ⟨hg₀, hs₀⟩ := HeapFile.create_inv hdb hcreate
    rw [← Nat.zero_add cs.length] at hroom hfuel
    obtain ⟨ids, s', hrun⟩ := Corresponds.exists_creations hσ cs h₀ hroom hfuel hm
    rw [← hs₀] at hrun
    obtain ⟨hf, hrun', -⟩ := HeapFile.run_ok hg₀ hrun
    exact ⟨ids, hf, hrun'⟩

/-- Two nodes, a relationship between them, a self-loop, and a parallel relationship. -/
theorem creations_agree_parallel : ∃ db hf₀ hf m, PhyDatabase.create 4096 = .ok db ∧
    HeapFile.create 4096 1000 (PhyDatabase.flat 4096) db = .ok hf₀ ∧
    HeapFile.run (HF.creations 4096 1000 [.node 3#64, .node 5#64, .relationship 0#64 1#64 0#64 7#64,
      .relationship 1#64 1#64 0#64 8#64, .relationship 0#64 1#64 0#64 9#64]) hf₀ =
        .ok ([0#64, 1#64, 0#64, 4#64, 8#64], hf) ∧ SameRecords hf m ∧ SameExpansions hf m := by
  obtain ⟨ids, s', hrun, -⟩ := Prog.check_inv Store.step (x := HF.creations 4096 1000
    [.node 3#64, .node 5#64, .relationship 0#64 1#64 0#64 7#64,
      .relationship 1#64 1#64 0#64 8#64, .relationship 0#64 1#64 0#64 9#64])
    (s := Store.empty) (p := fun _ _ => true) (by decide +kernel)
  obtain ⟨db, hf₀, hf, hdb, hcreate, hrun', -, -⟩ := HeapFile.exists_created hrun
  obtain ⟨rfl, m, -, hrec, hexp⟩ := creations_agree.1 1000 _ db hf₀ hf ids hdb hcreate hrun'
  exact ⟨db, hf₀, hf, m, hdb, hcreate, hrun', hrec, hexp⟩

end Goedb
