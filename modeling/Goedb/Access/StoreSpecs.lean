import Goedb.Access.Graph
import Goedb.Access.Store

/-!
# Access — the store as a graph

`Store.graph` decodes the records whose bits are set.  One lemma for each function of the heap file
that reaches a record says what it does to the graph of a valid store; the proofs about whole
functions use these and never look at bits and words again.

`Store.Valid` is what a store needs for that: no bit is set beyond the end of the record file, the
record files are below `MAX_PAGE_NO`, and the last id handed out for a relationship is aligned.
-/

namespace Goedb

open Lib

namespace Store

variable {s : Store} {ft : FileType} {id : Ulong}

/-- A record lives at `id`. -/
def Live (s : Store) (ft : FileType) (id : Ulong) : Prop :=
  id.toNat % numSlotsPer ft = 0 ∧ id.toNat / 256 < s.pages ft ∧ s.isUsed ft id = true

instance (s : Store) (ft : FileType) (id : Ulong) : Decidable (s.Live ft id) :=
  inferInstanceAs (Decidable (_ ∧ _))

/-- The records that live in the store. -/
def graph (s : Store) : Graph where
  node id := if s.Live .node id then some (s.nodeAt id) else none
  rel id := if s.Live .relationship id then some (s.relAt id) else none

/-- What the functions of the heap file rely on, beside the graph. -/
structure Valid (s : Store) : Prop where
  pages_lt : ∀ ft, s.pages ft < maxPageNo 4096
  bit_beyond : ∀ ft n, s.pages ft * 256 ≤ n → s.bit ft n = false
  aligned : s.counters.lastAllocRelId.toNat % 4 = 0

/-! ### Ids -/

theorem isUsed_iff : s.isUsed ft id = true ↔ ∀ i < numSlotsPer ft, s.bit ft (id.toNat + i) = true := by
  simp only [isUsed, List.all_eq_true, List.mem_range]

theorem hasBit_of_lt (h : id.toNat / 256 < s.pages ft) : s.HasBit ft id.toNat := by
  rw [HasBit, headerPages]
  omega

theorem node_eq_some {nd : Node} : s.graph.node id = some nd ↔ s.Live .node id ∧ s.nodeAt id = nd := by
  simp only [graph]
  split <;> simp_all

theorem rel_eq_some {r : Relationship} :
    s.graph.rel id = some r ↔ s.Live .relationship id ∧ s.relAt id = r := by
  simp only [graph]
  split <;> simp_all

theorem node_eq_none : s.graph.node id = none ↔ ¬ s.Live .node id := by
  simp [graph]

theorem rel_eq_none : s.graph.rel id = none ↔ ¬ s.Live .relationship id := by
  simp [graph]

theorem node_id {nd : Node} (h : s.graph.node id = some nd) : nd.id = id := by
  rw [← (node_eq_some.mp h).2]
  rfl

theorem rel_id {r : Relationship} (h : s.graph.rel id = some r) : r.id = id := by
  rw [← (rel_eq_some.mp h).2]
  rfl

/-- The null id is far beyond every record file. -/
theorem Valid.ne_uninitialized (hv : s.Valid) (h : id.toNat / 256 < s.pages ft) :
    id ≠ uninitializedLong := by
  rintro rfl
  have := hv.pages_lt ft
  have hm : maxPageNo 4096 = 2251799813685247 := by decide
  have hu : uninitializedLong.toNat = 18446744073709549158 := by decide
  omega

theorem Valid.not_live_uninitialized (hv : s.Valid) (ft : FileType) :
    ¬ s.Live ft uninitializedLong := fun h => hv.ne_uninitialized h.2.1 rfl

/-- Bits are found set only where a record lives. -/
theorem Valid.live_of_isUsed (hv : s.Valid) (ha : id.toNat % numSlotsPer ft = 0)
    (h : s.isUsed ft id = true) : s.Live ft id := by
  refine ⟨ha, ?_, h⟩
  by_contra hp
  have hn : 0 < numSlotsPer ft := by cases ft <;> decide
  have := isUsed_iff.mp h 0 hn
  rw [hv.bit_beyond ft _ (by omega)] at this
  cases this

/-- A function of the heap file, on the store. -/
abbrev run {α : Type} (x : HF α) (s : Store) : Except Fault (α × Store) := Prog.run step x s

/-! ### The existence check -/

theorem run_checkRecordExists (hv : s.Valid) (h : id.toNat / 256 < s.pages ft) :
    run (HF.checkRecordExists ft id) s = .ok (decide (s.Live ft id), s) := by
  rw [HF.checkRecordExists, run, Prog.run_perform, step]
  by_cases ha : id.toNat % numSlotsPer ft = 0
  · rw [if_neg (by omega), if_pos (hasBit_of_lt h)]
    have : s.isUsed ft id = decide (s.Live ft id) := by
      rw [Bool.eq_iff_iff, decide_eq_true_iff]
      exact ⟨hv.live_of_isUsed ha, fun hl => hl.2.2⟩
    rw [this]
  · rw [if_pos ha, decide_eq_false fun hl => ha hl.1]

theorem run_checkRecordExists_live (hv : s.Valid) (h : s.Live ft id) :
    run (HF.checkRecordExists ft id) s = .ok (true, s) := by
  rw [run_checkRecordExists hv h.2.1, decide_eq_true h]

/-- The check finds what lives, wherever it is asked. -/
theorem checkRecordExists_inv (hv : s.Valid) {b : Bool} {s' : Store}
    (h : run (HF.checkRecordExists ft id) s = .ok (b, s')) :
    b = decide (s.Live ft id) ∧ s' = s := by
  rw [HF.checkRecordExists, run, Prog.run_perform, step] at h
  split at h
  · rename_i ha
    cases h
    exact ⟨(decide_eq_false fun hl => ha hl.1).symm, rfl⟩
  · rename_i ha
    split at h
    · cases h
      refine ⟨?_, rfl⟩
      rw [Bool.eq_iff_iff, decide_eq_true_iff]
      exact ⟨hv.live_of_isUsed (by omega), fun hl => hl.2.2⟩
    · cases h

theorem run_checkIf (hv : s.Valid) (h : s.Live ft id) (check : Bool) :
    run (HF.checkIf check ft id) s = .ok (true, s) := by
  cases check
  · rfl
  · exact run_checkRecordExists_live hv h

/-! ### Reading records -/

theorem run_readNode (hv : s.Valid) {nd : Node} (h : s.graph.node id = some nd) :
    run (HF.readNode id) s = .ok (nd, s) := by
  obtain ⟨hl, rfl⟩ := node_eq_some.mp h
  have hread : run (Prog.perform (.readNode id)) s = .ok (s.nodeAt id, s) := by
    rw [run, Prog.run_perform, step, if_pos hl.2.1]
  rw [HF.readNode, HF.readNodeInternal, if_neg (hv.ne_uninitialized hl.2.1), run,
    Prog.run_bind_ok _ (run_checkIf hv hl true)]
  exact hread

theorem run_readRelationship (hv : s.Valid) {r : Relationship} (h : s.graph.rel id = some r) :
    run (HF.readRelationship id) s = .ok (r, s) := by
  obtain ⟨hl, rfl⟩ := rel_eq_some.mp h
  have hread : run (Prog.perform (.readRelationship id)) s = .ok (s.relAt id, s) := by
    have ha : id.toNat % 4 = 0 := hl.1
    rw [run, Prog.run_perform, step, if_pos ⟨hl.2.1, by omega⟩]
  rw [HF.readRelationship, HF.readRelationshipInternal, if_neg (hv.ne_uninitialized hl.2.1), run,
    Prog.run_bind_ok _ (run_checkIf hv hl true)]
  exact hread

/-- A record that does not live cannot be read. -/
theorem readNode_inv (hv : s.Valid) {nd : Node} {s' : Store}
    (h : run (HF.readNode id) s = .ok (nd, s')) : s.graph.node id = some nd ∧ s' = s := by
  by_cases hl : s.Live .node id
  · have hn : s.graph.node id = some (s.nodeAt id) := node_eq_some.mpr ⟨hl, rfl⟩
    rw [run_readNode hv hn] at h
    cases h
    exact ⟨hn, rfl⟩
  · rw [HF.readNode, HF.readNodeInternal] at h
    split at h
    · cases h
    · obtain ⟨b, s₁, hb, h⟩ := Prog.run_bind_inv _ h
      obtain ⟨rfl, rfl⟩ := checkRecordExists_inv hv hb
      simp only [decide_eq_false hl, if_true] at h
      cases h

theorem readRelationship_inv (hv : s.Valid) {r : Relationship} {s' : Store}
    (h : run (HF.readRelationship id) s = .ok (r, s')) : s.graph.rel id = some r ∧ s' = s := by
  by_cases hl : s.Live .relationship id
  · have hn : s.graph.rel id = some (s.relAt id) := rel_eq_some.mpr ⟨hl, rfl⟩
    rw [run_readRelationship hv hn] at h
    cases h
    exact ⟨hn, rfl⟩
  · rw [HF.readRelationship, HF.readRelationshipInternal] at h
    split at h
    · cases h
    · obtain ⟨b, s₁, hb, h⟩ := Prog.run_bind_inv _ h
      obtain ⟨rfl, rfl⟩ := checkRecordExists_inv hv hb
      simp only [decide_eq_false hl, if_true] at h
      cases h

/-! ### Writing records -/

theorem run_updateNodeInternal (hv : s.Valid) {nd : Node} (h : s.Live .node nd.id) (check : Bool) :
    run (HF.updateNodeInternal nd check) s = .ok ((), s.setNode nd) := by
  have hwrite : run (Prog.perform (.writeNode nd)) s = .ok ((), s.setNode nd) := by
    rw [run, Prog.run_perform, step, if_pos h.2.1]
  rw [HF.updateNodeInternal, if_neg (hv.ne_uninitialized h.2.1), run,
    Prog.run_bind_ok _ (run_checkIf hv h check)]
  exact hwrite

/-- What `update_relationship_internal` demands of a relationship. -/
def Writable (r : Relationship) : Prop :=
  r.sourceNode ≠ uninitializedLong ∧ r.targetNode ≠ uninitializedLong ∧
    r.weight ≠ uninitializedWeight

theorem run_updateRelationshipInternal (hv : s.Valid) {r : Relationship}
    (h : s.Live .relationship r.id) (hw : Writable r) (check : Bool) :
    run (HF.updateRelationshipInternal r check) s = .ok ((), s.setRel r) := by
  have hwrite : run (Prog.perform (.writeRelationship r)) s = .ok ((), s.setRel r) := by
    have ha : r.id.toNat % 4 = 0 := h.1
    rw [run, Prog.run_perform, step, if_pos ⟨h.2.1, by omega⟩]
  have hne : ¬ (r.id = uninitializedLong ∨ r.sourceNode = uninitializedLong ∨
      r.targetNode = uninitializedLong ∨ r.weight = uninitializedWeight) := by
    rintro (h' | h' | h' | h')
    · exact hv.ne_uninitialized h.2.1 h'
    · exact hw.1 h'
    · exact hw.2.1 h'
    · exact hw.2.2 h'
  rw [HF.updateRelationshipInternal, if_neg hne, run, Prog.run_bind_ok _ (run_checkIf hv h check)]
  exact hwrite

@[simp] theorem setNode_live (nd : Node) : (s.setNode nd).Live ft id ↔ s.Live ft id := Iff.rfl

@[simp] theorem setRel_live (r : Relationship) : (s.setRel r).Live ft id ↔ s.Live ft id := Iff.rfl

/-- A record read back. -/
theorem graph_setNode {nd : Node} (h : s.Live .node nd.id) :
    (s.setNode nd).graph = s.graph.setNode nd := by
  refine Graph.ext (funext fun x => ?_) rfl
  simp only [graph, Graph.setNode, setNode_live, Function.update_apply]
  by_cases hx : x = nd.id
  · subst hx
    rw [if_pos h, if_pos rfl]
    simp [nodeAt, setNode, setWords]
  · have hne : x.toNat ≠ nd.id.toNat := fun e => hx (BitVec.eq_of_toNat_eq e)
    rw [if_neg hx]
    split
    · simp only [nodeAt, setNode, setWords, List.length_cons, List.length_nil, true_and]
      rw [if_neg (by omega), if_neg (by omega)]
    · rfl

theorem graph_setRel {r : Relationship} (h : s.Live .relationship r.id) :
    (s.setRel r).graph = s.graph.setRel r := by
  refine Graph.ext rfl (funext fun x => ?_)
  simp only [graph, Graph.setRel, setRel_live, Function.update_apply]
  by_cases hx : x = r.id
  · subst hx
    rw [if_pos h, if_pos rfl]
    simp [relAt, setRel, setWords]
  · have hne : x.toNat ≠ r.id.toNat := fun e => hx (BitVec.eq_of_toNat_eq e)
    rw [if_neg hx]
    split
    · rename_i hl
      -- both are aligned, so their eight words are apart
      have h₁ : x.toNat % 4 = 0 := hl.1
      have h₂ : r.id.toNat % 4 = 0 := h.1
      simp only [relAt, setRel, setWords, List.length_cons, List.length_nil, true_and]
      rw [if_neg (by omega), if_neg (by omega), if_neg (by omega), if_neg (by omega),
        if_neg (by omega), if_neg (by omega), if_neg (by omega), if_neg (by omega)]
    · rfl

theorem Valid.setNode (hv : s.Valid) (nd : Node) : (s.setNode nd).Valid :=
  ⟨hv.pages_lt, hv.bit_beyond, hv.aligned⟩

theorem Valid.setRel (hv : s.Valid) (r : Relationship) : (s.setRel r).Valid :=
  ⟨hv.pages_lt, hv.bit_beyond, hv.aligned⟩

/-! ### Handing out slots -/

theorem numSlotsPer_cases (ft : FileType) : numSlotsPer ft = 1 ∨ numSlotsPer ft = 4 := by
  cases ft
  · exact .inl rfl
  · exact .inr rfl

/-- The scan goes from an aligned slot to the next one. -/
theorem nextSlot_eq {n k : ℕ} (hn : n = 1 ∨ n = 4) (hk : k % n = 0) :
    HF.nextSlot 4096 n (k / 256) (k % 256) = ((k + n) / 256, (k + n) % 256) := by
  rw [HF.nextSlot, show slotsPerPage 4096 = 256 from rfl, charBit]
  have hk4 : n = 4 → k % 4 = 0 := fun h => by rw [← h, hk]
  split
  · exact Prod.ext (by simp only; omega) (by simp only; omega)
  · exact Prod.ext (by simp only; omega) (by simp only; omega)

theorem recordId_eq {k : ℕ} (hk : k < 2 ^ 63) :
    HF.recordId (k / 256) (k % 256) = BitVec.ofNat 64 k := by
  apply BitVec.eq_of_toNat_eq
  have h₁ : (BitVec.ofNat 64 (k / 256) <<< charBit).toNat = k / 256 * 2 ^ 8 := by
    rw [BitVec.toNat_shiftLeft, BitVec.toNat_ofNat, charBit, Nat.shiftLeft_eq]
    omega
  rw [HF.recordId, BitVec.toNat_or, h₁, BitVec.toNat_ofNat, BitVec.toNat_ofNat,
    Nat.mod_eq_of_lt (show k % 256 < 2 ^ 64 by omega), Nat.mod_eq_of_lt (show k < 2 ^ 64 by omega),
    Nat.mul_comm, ← Nat.two_pow_add_eq_or_of_lt (by omega)]
  omega

/-- What the search from slot `k` on has found: the first slots that are free, or that there are
none. -/
def FirstFree (s : Store) (ft : FileType) (k : ℕ) : Option Ulong → Prop
  | some id => id.toNat % numSlotsPer ft = 0 ∧ id.toNat / 256 < s.pages ft ∧ ¬ s.Live ft id ∧
      k ≤ id.toNat ∧ ∀ j, k ≤ j → j < id.toNat → j % numSlotsPer ft = 0 →
        s.Live ft (BitVec.ofNat 64 j)
  | none => ∀ j, k ≤ j → j % numSlotsPer ft = 0 → j / 256 < s.pages ft →
      s.Live ft (BitVec.ofNat 64 j)

theorem FirstFree.cons {k : ℕ} {o : Option Ulong} (hk : k % numSlotsPer ft = 0)
    (hl : s.Live ft (BitVec.ofNat 64 k)) (h : s.FirstFree ft (k + numSlotsPer ft) o) :
    s.FirstFree ft k o := by
  have hn := numSlotsPer_cases ft
  have hstep : ∀ j, k ≤ j → j % numSlotsPer ft = 0 → j = k ∨ k + numSlotsPer ft ≤ j := by
    intro j hj hm
    rcases hn with hn | hn <;> rw [hn] at hk hm ⊢ <;> omega
  cases o with
  | some id =>
      obtain ⟨h₁, h₂, h₃, h₄, h₅⟩ := h
      refine ⟨h₁, h₂, h₃, by omega, fun j hj hlt hm => ?_⟩
      rcases hstep j hj hm with rfl | hj'
      · exact hl
      · exact h₅ j hj' hlt hm
  | none =>
      intro j hj hm hp
      rcases hstep j hj hm with rfl | hj'
      · exact hl
      · exact h j hj' hm hp

/-- The search from slot `k` on: either it runs out of turns, which it does only if they are fewer
than the slots that are left, or it returns what is there to be found. -/
theorem run_findFreeSlot (hv : s.Valid) (fuel : ℕ) : ∀ k, k % numSlotsPer ft = 0 → k < 2 ^ 62 →
    (run (HF.findFreeSlot 4096 ft fuel (BitVec.ofNat 64 k) (k / 256) (k % 256)) s =
        .error .diverge ∧ fuel ≤ s.pages ft * 256 - k) ∨
      ∃ o, run (HF.findFreeSlot 4096 ft fuel (BitVec.ofNat 64 k) (k / 256) (k % 256)) s =
        .ok (o, s) ∧ s.FirstFree ft k o := by
  have hn := numSlotsPer_cases ft
  have hmax : s.pages ft < 2251799813685247 := by
    have := hv.pages_lt ft
    rwa [show maxPageNo 4096 = 2251799813685247 by decide] at this
  induction fuel with
  | zero =>
      intro k _ _
      exact .inl ⟨rfl, Nat.zero_le _⟩
  | succ fuel ih =>
      intro k hk hlt
      have hid : (BitVec.ofNat 64 k).toNat = k := by
        rw [BitVec.toNat_ofNat, Nat.mod_eq_of_lt (by omega)]
      have hpages : run (Prog.perform (.numPages ft)) s = .ok (s.pages ft, s) := rfl
      simp only [run, HF.findFreeSlot]
      rw [Prog.run_bind_ok _ hpages]
      by_cases hp : k / 256 < s.pages ft
      · rw [if_pos hp]
        have hcheck := run_checkRecordExists hv
          (show (BitVec.ofNat 64 k).toNat / 256 < s.pages ft by rw [hid]; exact hp)
        rw [Prog.run_bind_ok _ hcheck]
        by_cases hl : s.Live ft (BitVec.ofNat 64 k)
        · rw [if_neg (by simp [hl]), nextSlot_eq hn hk, recordId_eq (by omega)]
          have hk' : (k + numSlotsPer ft) % numSlotsPer ft = 0 := by rw [Nat.add_mod_right, hk]
          rcases ih (k + numSlotsPer ft) hk' (by omega) with ⟨hr, hf⟩ | ⟨o, hr, ho⟩
          · exact .inl ⟨hr, by omega⟩
          · exact .inr ⟨o, hr, ho.cons hk hl⟩
        · have hfits : k % 256 % slotsPerPage 4096 ≤
              (k % 256 + (numSlotsPer ft - 1)) % slotsPerPage 4096 := by
            rw [show slotsPerPage 4096 = 256 from rfl]
            rcases hn with hn | hn <;> rw [hn] at hk ⊢ <;> omega
          rw [if_pos ⟨decide_eq_false hl, hfits⟩]
          refine .inr ⟨some (BitVec.ofNat 64 k), rfl, ?_⟩
          simp only [FirstFree, hid]
          exact ⟨hk, hp, hl, le_rfl, fun j h₁ h₂ => by omega⟩
      · rw [if_neg hp]
        exact .inr ⟨none, rfl, fun j hj _ hjp => by omega⟩

/-- The search from the last id handed out. -/
theorem run_findFreeSlot_last (hv : s.Valid) (fuel : ℕ) (ha : id.toNat % numSlotsPer ft = 0) :
    (run (HF.findFreeSlot 4096 ft fuel id (pageOf id) (slotOf id)) s = .error .diverge ∧
        fuel ≤ s.pages ft * 256) ∨
      ∃ o, run (HF.findFreeSlot 4096 ft fuel id (pageOf id) (slotOf id)) s = .ok (o, s) ∧
        s.FirstFree ft id.toNat o := by
  have hid : BitVec.ofNat 64 id.toNat = id := by simp
  rw [pageOf_eq, slotOf_eq]
  by_cases hlt : id.toNat < 2 ^ 62
  · have h := run_findFreeSlot hv fuel id.toNat ha hlt
    rw [hid] at h
    rcases h with ⟨hr, hf⟩ | h
    · exact .inl ⟨hr, by omega⟩
    · exact .inr h
  · have hmax := hv.pages_lt ft
    rw [show maxPageNo 4096 = 2251799813685247 by decide] at hmax
    cases fuel with
    | zero => exact .inl ⟨rfl, Nat.zero_le _⟩
    | succ fuel =>
        refine .inr ⟨none, ?_, fun j hj _ hp => by omega⟩
        have hpages : run (Prog.perform (.numPages ft)) s = .ok (s.pages ft, s) := rfl
        rw [run, HF.findFreeSlot, Prog.run_bind_ok _ hpages, if_neg (by omega)]
        rfl

/-- The record at `id` has been handed out: it lives in `s'`, and nothing else has changed but the
last id, and perhaps the number of pages. -/
structure Allocated (s : Store) (ft : FileType) (id : Ulong) (s' : Store) : Prop where
  fresh : ¬ s.Live ft id
  live : ∀ gt x, s'.Live gt x ↔ s.Live gt x ∨ gt = ft ∧ x = id
  word : s'.word = s.word
  counters : s'.counters = s.counters.setLastAlloc ft id
  valid : s'.Valid
  pages_le : ∀ gt, s.pages gt ≤ s'.pages gt ∧ s'.pages gt ≤ s.pages gt + 1

theorem Allocated.live_self {s' : Store} (h : Allocated s ft id s') : s'.Live ft id :=
  (h.live ft id).mpr (.inr ⟨rfl, rfl⟩)

/-- Setting the bits of an aligned record changes no other aligned record. -/
theorem isUsed_setBits (used : Bool) (ha : id.toNat % numSlotsPer ft = 0) {gt : FileType}
    {x : Ulong} (hx : x.toNat % numSlotsPer gt = 0) :
    (s.setBits ft id used).isUsed gt x = if gt = ft ∧ x = id then used else s.isUsed gt x := by
  have hn := numSlotsPer_cases ft
  have hcl : ∀ m, ¬ Clobbered (numSlotsPer ft) id.toNat m := by
    rintro m ⟨h, -⟩
    rcases hn with hn | hn <;> rw [hn] at ha h <;> omega
  rw [Bool.eq_iff_iff, isUsed_iff]
  simp only [setBits, hcl, and_false, if_false]
  by_cases hg : gt = ft
  · subst hg
    simp only [true_and]
    by_cases he : x = id
    · subst he
      rw [if_pos rfl]
      constructor
      · intro h
        have := h 0 (by omega)
        rwa [if_pos (by omega)] at this
      · intro h i hi
        rwa [if_pos (by omega)]
    · have hne : x.toNat ≠ id.toNat := fun e => he (BitVec.eq_of_toNat_eq e)
      rw [if_neg he, isUsed_iff]
      refine forall₂_congr fun i hi => ?_
      rw [if_neg]
      rcases hn with hn | hn <;> rw [hn] at ha hx hi ⊢ <;> omega
  · simp only [hg, false_and, if_false, isUsed_iff]

theorem bit_setBits_of_not_clobbered (used : Bool) (ha : id.toNat % numSlotsPer ft = 0)
    (gt : FileType) (m : ℕ) :
    (s.setBits ft id used).bit gt m =
      if gt = ft ∧ id.toNat ≤ m ∧ m < id.toNat + numSlotsPer ft then used else s.bit gt m := by
  have hcl : ¬ Clobbered (numSlotsPer ft) id.toNat m := by
    rintro ⟨h, -⟩
    rcases numSlotsPer_cases ft with hn | hn <;> rw [hn] at ha h <;> omega
  simp only [setBits, hcl, and_false, if_false]

/-- An aligned record ends on its page. -/
theorem end_lt_of_page_lt {n : ℕ} (ha : id.toNat % numSlotsPer ft = 0) (hp : id.toNat / 256 < n) :
    id.toNat + numSlotsPer ft ≤ n * 256 := by
  rcases numSlotsPer_cases ft with hn | hn <;> rw [hn] at ha ⊢ <;> omega

theorem run_setBits (ha : id.toNat % numSlotsPer ft = 0) (hp : id.toNat / 256 < s.pages ft)
    (used : Bool) :
    run (Prog.perform (.setBits ft id used)) s = .ok ((), s.setBits ft id used) := by
  have hend := end_lt_of_page_lt ha hp
  have hn := numSlotsPer_cases ft
  rw [run, Prog.run_perform, step, if_pos]
  refine ⟨hasBit_of_lt hp, ?_⟩
  rw [HasBit, headerPages]
  omega

theorem Valid.setBits (hv : s.Valid) (ha : id.toNat % numSlotsPer ft = 0)
    (hp : id.toNat / 256 < s.pages ft) (used : Bool) : (s.setBits ft id used).Valid where
  pages_lt := hv.pages_lt
  aligned := hv.aligned
  bit_beyond gt m hm := by
    have hend := end_lt_of_page_lt ha hp
    rw [bit_setBits_of_not_clobbered used ha, if_neg]
    · exact hv.bit_beyond gt m hm
    · rintro ⟨rfl, h₁, h₂⟩
      have hm' : s.pages gt * 256 ≤ m := hm
      omega

theorem live_setBits (used : Bool) (ha : id.toNat % numSlotsPer ft = 0)
    (hp : id.toNat / 256 < s.pages ft) (gt : FileType) (x : Ulong) :
    (s.setBits ft id used).Live gt x ↔
      if gt = ft ∧ x = id then used = true else s.Live gt x := by
  by_cases hx : x.toNat % numSlotsPer gt = 0
  · simp only [Live, isUsed_setBits used ha hx]
    split
    · rename_i h
      obtain ⟨rfl, rfl⟩ := h
      exact ⟨fun h => h.2.2, fun h => ⟨hx, hp, h⟩⟩
    · exact Iff.rfl
  · have hne : ¬ (gt = ft ∧ x = id) := by
      rintro ⟨rfl, rfl⟩
      exact hx ha
    rw [if_neg hne]
    exact ⟨fun h => absurd h.1 hx, fun h => absurd h.1 hx⟩

theorem run_modifyCounters (f : Counters → Counters) (s : Store) :
    run (HF.modifyCounters f) s = .ok ((), s.setCounters (f s.counters)) := rfl

@[simp] theorem setCounters_live (c : Counters) : (s.setCounters c).Live ft id ↔ s.Live ft id :=
  Iff.rfl

@[simp] theorem graph_setCounters (s : Store) (c : Counters) : (s.setCounters c).graph = s.graph :=
  rfl

theorem Valid.setCounters (hv : s.Valid) {c : Counters} (h : c.lastAllocRelId.toNat % 4 = 0) :
    (s.setCounters c).Valid := ⟨hv.pages_lt, hv.bit_beyond, h⟩

/-- The id of the first slot of the page that would be added next. -/
def endId (s : Store) (ft : FileType) : Ulong := BitVec.ofNat 64 (s.pages ft * 256)

theorem Valid.toNat_endId (hv : s.Valid) (ft : FileType) :
    (s.endId ft).toNat = s.pages ft * 256 := by
  have hmax := hv.pages_lt ft
  rw [show maxPageNo 4096 = 2251799813685247 by decide] at hmax
  rw [endId, BitVec.toNat_ofNat, Nat.mod_eq_of_lt (by omega)]

theorem run_orNewPage_none (hv : s.Valid) (hroom : s.pages ft + 1 < maxPageNo 4096) :
    run (HF.orNewPage ft none) s = .ok (s.endId ft, s.addPage ft) := by
  have hnew : run (Prog.perform (.newPage ft)) s = .ok (s.pages ft, s.addPage ft) := by
    rw [run, Prog.run_perform, step, if_pos hroom]
  have hmax := hv.pages_lt ft
  rw [show maxPageNo 4096 = 2251799813685247 by decide] at hmax
  rw [run, HF.orNewPage, Prog.run_bind_ok _ hnew, Prog.run_pure]
  refine congrArg Except.ok (Prod.ext (BitVec.eq_of_toNat_eq ?_) rfl)
  simp only [endId, BitVec.toNat_shiftLeft, BitVec.toNat_ofNat, charBit, Nat.shiftLeft_eq]
  omega

theorem Valid.addPage (hv : s.Valid) (hroom : s.pages ft + 1 < maxPageNo 4096) :
    (s.addPage ft).Valid where
  pages_lt gt := by
    by_cases h : gt = ft
    · subst h
      simpa [Store.addPage] using hroom
    · simpa [Store.addPage, Function.update_of_ne h] using hv.pages_lt gt
  bit_beyond gt m hm := by
    refine hv.bit_beyond gt m (le_trans (Nat.mul_le_mul_right _ ?_) hm)
    by_cases h : gt = ft
    · subst h
      simp [Store.addPage]
    · simp [Store.addPage, Function.update_of_ne h]
  aligned := hv.aligned

/-- A new page holds no record. -/
theorem live_addPage (hv : s.Valid) (gt : FileType) (x : Ulong) :
    (s.addPage ft).Live gt x ↔ s.Live gt x := by
  constructor
  · rintro ⟨ha, -, hu⟩
    exact hv.live_of_isUsed ha hu
  · rintro ⟨ha, hp, hu⟩
    refine ⟨ha, lt_of_lt_of_le hp ?_, hu⟩
    by_cases h : gt = ft
    · subst h
      simp [addPage]
    · simp [addPage, Function.update_of_ne h]

/-- The slot of `id`, free and in the file, marked as used. -/
theorem allocated_of_free {s₁ : Store} (hv : s₁.Valid) (hs : ∀ gt x, s₁.Live gt x ↔ s.Live gt x)
    (hw : s₁.word = s.word) (hc : s₁.counters = s.counters)
    (hp : ∀ gt, s.pages gt ≤ s₁.pages gt ∧ s₁.pages gt ≤ s.pages gt + 1)
    (ha : id.toNat % numSlotsPer ft = 0) (hin : id.toNat / 256 < s₁.pages ft)
    (hfree : ¬ s.Live ft id) :
    Allocated s ft id
      ((s₁.setCounters (s₁.counters.setLastAlloc ft id)).setBits ft id true) where
  fresh := hfree
  live gt x := by
    rw [live_setBits (s := s₁.setCounters (s₁.counters.setLastAlloc ft id)) true ha hin]
    split
    · rename_i h
      simp [h]
    · rename_i h
      simp only [h, or_false]
      exact hs gt x
  word := hw
  counters := by rw [← hc]; rfl
  pages_le := hp
  valid := by
    have hc' : (s₁.counters.setLastAlloc ft id).lastAllocRelId.toNat % 4 = 0 := by
      cases ft with
      | node => exact hv.aligned
      | relationship => exact ha
    exact Valid.setBits (hv.setCounters hc') ha hin true

/-- No slot is found: for want of turns, or because no slot is free and no page can be added. -/
def NoSlot (s : Store) (ft : FileType) (fuel : ℕ) : Prop :=
  fuel ≤ s.pages ft * 256 ∨
    maxPageNo 4096 ≤ s.pages ft + 1 ∧ s.FirstFree ft (s.counters.lastAlloc ft).toNat none

/-- **`next_free_slots`** hands out the first free slots from the last ones handed out, or the first
of a new page.  It fails only for want of turns or of slots. -/
theorem run_nextFreeSlots (hv : s.Valid) (fuel : ℕ) (ft : FileType) :
    (∃ e, run (HF.nextFreeSlots 4096 fuel ft) s = .error e ∧ s.NoSlot ft fuel) ∨
      ∃ o s', run (HF.nextFreeSlots 4096 fuel ft) s = .ok ((), s') ∧
        s.FirstFree ft (s.counters.lastAlloc ft).toNat o ∧
        Allocated s ft (o.getD (s.endId ft)) s' := by
  have hprev : (s.counters.lastAlloc ft).toNat % numSlotsPer ft = 0 := by
    cases ft with
    | node => exact Nat.mod_one _
    | relationship => exact hv.aligned
  have hget : run (Prog.perform .getCounters) s = .ok (s.counters, s) := rfl
  rw [run, HF.nextFreeSlots, Prog.run_bind_ok _ hget]
  rcases run_findFreeSlot_last hv fuel hprev with ⟨hr, hf⟩ | ⟨o, hr, ho⟩
  · exact .inl ⟨_, Prog.run_bind_error _ hr _, .inl hf⟩
  · rw [Prog.run_bind_ok _ hr]
    -- either a free slot is found, or a page is added if there is room for one
    cases o with
    | some id =>
        have ⟨ha, hp, hl, _⟩ := ho
        refine .inr ⟨some id,
          (s.setCounters (s.counters.setLastAlloc ft id)).setBits ft id true, ?_, ho, ?_⟩
        · rw [Prog.run_bind_ok _ (show run (HF.orNewPage ft (some id)) s = .ok (id, s) from rfl),
            Prog.run_bind_ok _ (run_modifyCounters _ s)]
          exact run_setBits (s := s.setCounters (s.counters.setLastAlloc ft id)) ha hp true
        · exact allocated_of_free hv (fun _ _ => Iff.rfl) rfl rfl
            (fun _ => ⟨le_rfl, Nat.le_succ _⟩) ha hp hl
    | none =>
        by_cases hroom : s.pages ft + 1 < maxPageNo 4096
        · have hend := hv.toNat_endId ft
          have ha : (s.endId ft).toNat % numSlotsPer ft = 0 := by
            rw [hend]
            rcases numSlotsPer_cases ft with hn | hn <;> rw [hn] <;> omega
          have hin : (s.endId ft).toNat / 256 < (s.addPage ft).pages ft := by
            simp only [hend, addPage, Function.update_self]
            omega
          have hpages : ∀ gt, s.pages gt ≤ (s.addPage ft).pages gt ∧
              (s.addPage ft).pages gt ≤ s.pages gt + 1 := by
            intro gt
            by_cases h : gt = ft
            · subst h
              simp [addPage]
            · simp [addPage, Function.update_of_ne h]
          refine .inr ⟨none, ((s.addPage ft).setCounters (s.counters.setLastAlloc ft
            (s.endId ft))).setBits ft (s.endId ft) true, ?_, ho, ?_⟩
          · rw [Prog.run_bind_ok _ (run_orNewPage_none hv hroom),
              Prog.run_bind_ok _ (run_modifyCounters _ _)]
            exact run_setBits (s := (s.addPage ft).setCounters
              (s.counters.setLastAlloc ft (s.endId ft))) ha hin true
          · refine allocated_of_free (hv.addPage hroom) (live_addPage hv) rfl rfl hpages ha hin ?_
            rintro ⟨-, hp, -⟩
            rw [Option.getD_none, hend] at hp
            omega
        · have hnew : run (Prog.perform (.newPage ft)) s = outOfBounds := by
            rw [run, Prog.run_perform, step, if_neg hroom]
          exact .inl ⟨_, Prog.run_bind_error _ (Prog.run_bind_error _ hnew _) _,
            .inr ⟨by omega, ho⟩⟩

end Store

end Goedb
