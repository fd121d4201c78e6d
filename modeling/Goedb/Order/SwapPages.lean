import Goedb.Order.Reorder

/-!
# Order — `swap_record_pages`

`swap_record_pages` exchanges two pages of a record file slot by slot, with `swap_nodes` or
`swap_relationships`.  The slots do not get into each other's way: the whole loop is one renaming, which
exchanges the two pages and leaves every other id alone (`HeapFile.swapRecordPages_renames`).

For relationships that holds of any two pages.  For nodes no slot may strand its relationships, and that
can be told before the loop begins, since an exchange moves no other slot's node.
-/

namespace Goedb

open Lib

namespace HF

/-- `(page << CHAR_BIT) | i`. -/
def slotId (page : Ulong) (i : ℕ) : Ulong := (page <<< charBit) ||| BitVec.ofNat 64 i

/-- `swap_nodes` or `swap_relationships`. -/
def swapRecords (P fuel : ℕ) (ft : FileType) (fst snd : Ulong) : HF Unit :=
  match ft with
  | .node => swapNodes P fuel fst snd
  | .relationship => swapRelationships P fst snd

/-- The loop over the slots of the two pages, from `i` on. -/
def swapSlots (P fuel : ℕ) (ft : FileType) (fst snd : Ulong) : (turns i : ℕ) → HF Unit
  | 0, _ => abort .diverge
  | turns + 1, i =>
      if i < slotsPerPage P then do
        swapRecords P fuel ft (slotId fst i) (slotId snd i)
        swapSlots P fuel ft fst snd turns (i + numSlotsPer ft)
      else pure ()

/-- `swap_record_pages`, without the line it logs at the end. -/
def swapRecordPages (P fuel : ℕ) (fst snd : Ulong) (ft : FileType) : HF Unit :=
  if maxPageNo P ≤ fst.toNat ∨ maxPageNo P < snd.toNat then
    exit "heap file - swap_pages: Invalid Arguments"
  else if fst = snd then pure ()
  else swapSlots P fuel ft fst snd fuel 0

end HF

open HF (slotId)

/-! ### Slots of a page -/

theorem toNat_slotId {page : Ulong} {i : ℕ} (hp : page.toNat < 2 ^ 56) (hi : i < 256) :
    (slotId page i).toNat = page.toNat * 256 + i := by
  have hshift : (page <<< charBit).toNat = page.toNat <<< 8 := by
    rw [BitVec.toNat_shiftLeft, charBit, Nat.shiftLeft_eq]
    exact Nat.mod_eq_of_lt (by omega)
  rw [slotId, BitVec.toNat_or, hshift, BitVec.toNat_ofNat, Nat.mod_eq_of_lt (by omega),
    ← Nat.shiftLeft_add_eq_or_of_lt hi, Nat.shiftLeft_eq]

/-- The page and the slot of a record. -/
theorem slotId_inj {page page' : Ulong} {i j : ℕ} (hp : page.toNat < 2 ^ 56) (hp' : page'.toNat < 2 ^ 56)
    (hi : i < 256) (hj : j < 256) (h : slotId page i = slotId page' j) : page = page' ∧ i = j := by
  have hnat := congrArg BitVec.toNat h
  rw [toNat_slotId hp hi, toNat_slotId hp' hj] at hnat
  exact ⟨BitVec.eq_of_toNat_eq (by omega), by omega⟩

/-- The renaming exchanges the records of two pages, from a slot on, and leaves the others alone. -/
structure ExchangesPages (ft : FileType) (fst snd : Ulong) (i : ℕ) (τ : Renaming) : Prop where
  left : ∀ j, i ≤ j → j < 256 → j % numSlotsPer ft = 0 → τ (slotId fst j) = slotId snd j
  right : ∀ j, i ≤ j → j < 256 → j % numSlotsPer ft = 0 → τ (slotId snd j) = slotId fst j
  others : ∀ x, (∀ j, i ≤ j → j < 256 → x ≠ slotId fst j ∧ x ≠ slotId snd j) → τ x = x

theorem exchangesPages_one (ft : FileType) (fst snd : Ulong) {i : ℕ} (hi : 256 ≤ i) :
    ExchangesPages ft fst snd i 1 where
  left j h₁ h₂ := absurd h₂ (by omega)
  right j h₁ h₂ := absurd h₂ (by omega)
  others _ _ := rfl

/-- The slots from the next one on, and the slot itself. -/
theorem ExchangesPages.cons {ft : FileType} {fst snd : Ulong} {i : ℕ} {τ : Renaming}
    (h : ExchangesPages ft fst snd (i + numSlotsPer ft) τ)
    (hp : fst.toNat < 2 ^ 56) (hq : snd.toNat < 2 ^ 56) (hi : i < 256) (hstep : i % numSlotsPer ft = 0) :
    ExchangesPages ft fst snd i (τ * Equiv.swap (slotId fst i) (slotId snd i)) := by
  have hpos : 0 < numSlotsPer ft := by cases ft <;> decide
  -- an aligned slot behind the first is not before the next one
  have hnext : ∀ j, i ≤ j → j % numSlotsPer ft = 0 → j ≠ i → i + numSlotsPer ft ≤ j := by
    intro j hij hj hji
    cases ft with
    | node =>
        show i + 1 ≤ j
        omega
    | relationship =>
        have hi4 : i % 4 = 0 := hstep
        have hj4 : j % 4 = 0 := hj
        show i + 4 ≤ j
        omega
  have hfix : ∀ {page : Ulong}, page.toNat < 2 ^ 56 → page = fst ∨ page = snd →
      τ (slotId page i) = slotId page i := by
    intro page hpage _
    refine h.others _ fun j hj hj' => ⟨fun he => ?_, fun he => ?_⟩
    · have := (slotId_inj hpage hp hi hj' he).2
      omega
    · have := (slotId_inj hpage hq hi hj' he).2
      omega
  have hapart : ∀ {page : Ulong} {j : ℕ}, page.toNat < 2 ^ 56 → j < 256 → j ≠ i →
      Equiv.swap (slotId fst i) (slotId snd i) (slotId page j) = slotId page j := by
    intro page j hpage hj hji
    exact Equiv.swap_apply_of_ne_of_ne (fun he => hji (slotId_inj hpage hp hj hi he).2)
      fun he => hji (slotId_inj hpage hq hj hi he).2
  refine ⟨fun j hij hj hstep' => ?_, fun j hij hj hstep' => ?_, fun x hx => ?_⟩
  · rw [Equiv.Perm.mul_apply]
    by_cases hji : j = i
    · subst hji
      rw [Equiv.swap_apply_left, hfix hq (.inr rfl)]
    · rw [hapart hp hj hji, h.left j (hnext j hij hstep' hji) hj hstep']
  · rw [Equiv.Perm.mul_apply]
    by_cases hji : j = i
    · subst hji
      rw [Equiv.swap_apply_right, hfix hp (.inl rfl)]
    · rw [hapart hq hj hji, h.right j (hnext j hij hstep' hji) hj hstep']
  · rw [Equiv.Perm.mul_apply, Equiv.swap_apply_of_ne_of_ne (hx i (Nat.le_refl i) hi).1
      (hx i (Nat.le_refl i) hi).2]
    exact h.others x fun j hj hj' => hx j (Nat.le_trans (Nat.le_add_right _ _) hj) hj'

namespace Store

variable {s s' : Store} {ft : FileType} {fst snd : Ulong}

/-- The first slot holds a node with relationships and the second one is empty. -/
def Strands (s : Store) (fst snd : Ulong) : Prop :=
  s.graph.node snd = none ∧
    ∃ nd, s.graph.node fst = some nd ∧ nd.firstRelationship ≠ uninitializedLong

/-- An exchange of nodes that strands no relationships is a renaming. -/
theorem run_swapNodes_spares (hw : s.WellFormed) {fuel : ℕ}
    (hfuel : s.pages .relationship * 256 < fuel) (hp : fst.toNat / 256 < s.pages .node)
    (hq : snd.toNat / 256 < s.pages .node) (hs : ¬ s.Strands fst snd) :
    ∃ s', run (HF.swapNodes 4096 fuel fst snd) s = .ok ((), s') ∧
      s.Renamed .node (Equiv.swap fst snd) s' := by
  obtain ⟨s', hrun, hE, hn, hr⟩ := run_swapNodes hw hp hq hfuel
  have hg : s'.graph = s.graph.rename (Equiv.swap fst snd) 1 := by
    refine Graph.ext hn ?_
    rw [hr]
    split
    · rename_i hl
      obtain ⟨nd, hnd⟩ := Option.isSome_iff_exists.mp (isSome_node.mpr hl.1)
      refine (rename_rel_of_not_at fun x r hx => ⟨fun ha => hs ?_, ?_⟩).symm
      · exact ⟨node_eq_none.mpr hl.2, nd, hnd, (hw.exists_at hnd).mpr ⟨x, r, hx, ha⟩⟩
      · exact hw.not_at_of_not_live hl.2 hx
    · rfl
  exact ⟨s', hrun, .of_exchanged hE (hw.rename hE.valid rfl hg) hg⟩

/-- A renaming of other nodes strands no relationships more. -/
theorem Renamed.strands (h : s.Renamed .node (Equiv.swap fst snd) s') {a b : Ulong}
    (ha : Equiv.swap fst snd a = a) (hb : Equiv.swap fst snd b = b) (hs : s'.Strands a b) :
    s.Strands a b := by
  have hnode : ∀ x, Equiv.swap fst snd x = x →
      s'.graph.node x = (s.graph.node x).map (Node.rename (Equiv.swap fst snd) 1) := by
    intro x hx
    have := Graph.rename_node (τ := Equiv.swap fst snd) (σ := 1) (g := s.graph) (n := x)
    rw [hx] at this
    rw [h.graph]
    exact this
  obtain ⟨hnone, nd, hnd, hfirst⟩ := hs
  rw [hnode b hb] at hnone
  rw [hnode a ha] at hnd
  obtain ⟨nd', hnd', rfl⟩ := Option.map_eq_some_iff.mp hnd
  exact ⟨Option.map_eq_none_iff.mp hnone, nd', hnd', hfirst⟩

/-- One slot of the two pages. -/
theorem run_swapRecords_renamed (hw : s.WellFormed) {fuel : ℕ}
    (hfuel : s.pages .relationship * 256 < fuel) (hfst : fst.toNat < s.pages ft)
    (hsnd : snd.toNat < s.pages ft) {i : ℕ} (hi : i < 256) (hstep : i % numSlotsPer ft = 0)
    (hs : ft = .node → ¬ s.Strands (slotId fst i) (slotId snd i)) :
    ∃ s', run (HF.swapRecords 4096 fuel ft (slotId fst i) (slotId snd i)) s = .ok ((), s') ∧
      s.Renamed ft (Equiv.swap (slotId fst i) (slotId snd i)) s' := by
  have hmax := hw.valid.pages_lt ft
  rw [show maxPageNo 4096 = 2251799813685247 by decide] at hmax
  have hp : (slotId fst i).toNat = _ := toNat_slotId (by omega) hi
  have hq : (slotId snd i).toNat = _ := toNat_slotId (by omega) hi
  cases ft with
  | node => exact run_swapNodes_spares hw hfuel (by omega) (by omega) (hs rfl)
  | relationship =>
      have hi4 : i % 4 = 0 := hstep
      exact run_swapRelationships_renamed hw (by omega) (by omega) (by omega) (by omega)

/-- **The loop** of `swap_record_pages` is one renaming. -/
theorem run_swapSlots {fuel : ℕ} (turns : ℕ) : ∀ {s : Store} {i : ℕ}, s.WellFormed →
    s.pages .relationship * 256 < fuel → fst.toNat < s.pages ft → snd.toNat < s.pages ft →
    i % numSlotsPer ft = 0 → 256 - i < turns →
    (ft = .node → ∀ j, i ≤ j → j < 256 → ¬ s.Strands (slotId fst j) (slotId snd j)) →
    ∃ s' τ, run (HF.swapSlots 4096 fuel ft fst snd turns i) s = .ok ((), s') ∧ s.Renamed ft τ s' ∧
      ExchangesPages ft fst snd i τ := by
  induction turns with
  | zero =>
      intro s i _ _ _ _ _ hturns
      exact absurd hturns (Nat.not_lt_zero _)
  | succ turns ih =>
      intro s i hw hfuel hfst hsnd hstep hturns hs
      rw [HF.swapSlots]
      by_cases hi : i < 256
      · have hmax := hw.valid.pages_lt ft
        rw [show maxPageNo 4096 = 2251799813685247 by decide] at hmax
        have hp : fst.toNat < 2 ^ 56 := by omega
        have hq : snd.toNat < 2 ^ 56 := by omega
        have hpos : 0 < numSlotsPer ft := by cases ft <;> decide
        obtain ⟨s₁, h₁, hR₁⟩ := run_swapRecords_renamed hw hfuel hfst hsnd hi hstep
          fun hft => hs hft i (Nat.le_refl i) hi
        obtain ⟨s₂, τ, h₂, hR₂, hτ⟩ := ih (s := s₁) (i := i + numSlotsPer ft) hR₁.wellFormed
          (by rw [hR₁.pages]; exact hfuel) (by rw [hR₁.pages]; exact hfst)
          (by rw [hR₁.pages]; exact hsnd) (by rw [Nat.add_mod_right]; exact hstep) (by omega)
          fun hft j hij hj hst => by
            -- the slots that follow are other ones than those just exchanged
            subst hft
            have hji : j ≠ i := by
              have : i + 1 ≤ j := hij
              omega
            have hapart : ∀ page : Ulong, page.toNat < 2 ^ 56 →
                Equiv.swap (slotId fst i) (slotId snd i) (slotId page j) = slotId page j :=
              fun page hpage => Equiv.swap_apply_of_ne_of_ne
                (fun he => hji (slotId_inj hpage hp hj hi he).2)
                fun he => hji (slotId_inj hpage hq hj hi he).2
            exact hs rfl j (by omega) hj (hR₁.strands (hapart fst hp) (hapart snd hq) hst)
        refine ⟨s₂, _, ?_, hR₁.trans hR₂, hτ.cons hp hq hi hstep⟩
        rw [if_pos (show i < slotsPerPage 4096 from hi), run, Prog.run_bind_ok _ h₁]
        exact h₂
      · rw [if_neg (show ¬ i < slotsPerPage 4096 from hi)]
        exact ⟨s, 1, rfl, .refl hw, exchangesPages_one ft fst snd (by omega)⟩

/-- **`swap_record_pages`**, on the store. -/
theorem run_swapRecordPages (hw : s.WellFormed) {fuel : ℕ} (hfuel : s.pages .relationship * 256 < fuel)
    (hturns : 256 < fuel) (hfst : fst.toNat < s.pages ft) (hsnd : snd.toNat < s.pages ft)
    (hs : ft = .node → ∀ j < 256, ¬ s.Strands (slotId fst j) (slotId snd j)) :
    ∃ s' τ, run (HF.swapRecordPages 4096 fuel fst snd ft) s = .ok ((), s') ∧ s.Renamed ft τ s' ∧
      ExchangesPages ft fst snd 0 τ := by
  have hmax := hw.valid.pages_lt ft
  rw [HF.swapRecordPages, if_neg (by omega)]
  by_cases he : fst = snd
  · subst he
    rw [if_pos rfl]
    exact ⟨s, 1, rfl, .refl hw, fun _ _ _ _ => rfl, fun _ _ _ _ => rfl, fun _ _ => rfl⟩
  · rw [if_neg he]
    exact run_swapSlots fuel hw hfuel hfst hsnd (Nat.zero_mod _) (by omega)
      fun hft j _ hj => hs hft j hj

end Store

/-! ### The heap file -/

namespace HeapFile

/-- **`swap_record_pages` exchanges two pages.**  Every record moves to the same slot of the other page
and keeps its place in the graph: relationships always, nodes if no slot of the first page strands the
relationships of its node. -/
theorem swapRecordPages_renames {hf : HeapFile PhyDatabase} (hw : hf.WellFormed) {fuel : ℕ}
    (hfuel : (hf.cache.records .relationship).numPages * 256 < fuel) (hturns : 256 < fuel)
    {ft : FileType} {fst snd : Ulong} (hfst : fst.toNat < (hf.cache.records ft).numPages)
    (hsnd : snd.toNat < (hf.cache.records ft).numPages)
    (hs : ft = .node → ∀ j < 256, ¬ hf.Strands (slotId fst j) (slotId snd j)) :
    ∃ hf' τ, run (HF.swapRecordPages 4096 fuel fst snd ft) hf = .ok ((), hf') ∧ hf'.WellFormed ∧
      hf'.graph = hf.graph.renameAt ft τ ∧ ExchangesPages ft fst snd 0 τ ∧
      (∀ gt x, (Store.of hf').Live gt x ↔ (Store.of hf).Live gt (if gt = ft then τ.symm x else x)) ∧
      ((Store.of hf).Counted → (Store.of hf').Counted) := by
  obtain ⟨s', τ, hrun, hR, hτ⟩ := Store.run_swapRecordPages hw.store hfuel hturns hfst hsnd hs
  obtain ⟨hf', hrun', hg, rfl⟩ := run_ok hw.good hrun
  exact ⟨hf', τ, hrun', ⟨hg, hR.wellFormed⟩, hR.graph, hτ, hR.live, hR.counted⟩

/-- 512 nodes and a relationship from node 3 to node 4: when the nodes of the pages 0 and 1 have changed
places, it leads from node 259 to node 260. -/
theorem swapRecordPages_renames_nodes : ∃ hf hf' id rel rel', hf.WellFormed ∧
    hf.graph.rel id = some rel ∧ rel.sourceNode = 3#64 ∧ rel.targetNode = 4#64 ∧
    run (HF.swapRecordPages 4096 200000 0#64 1#64 .node) hf = .ok ((), hf') ∧ hf'.WellFormed ∧
    hf'.graph.rel id = some rel' ∧ rel'.sourceNode = 259#64 ∧ rel'.targetNode = 260#64 := by
  obtain ⟨-, -, hf₀, -, -, -, -, hw₀, -, -, hlive, hp, hnode⟩ := exists_nodes (n := 512) (by decide)
  -- the relationship
  have hrels := hp .relationship
  have h₃ : (Store.of hf₀).graph.node 3#64 = some _ := hnode 3 (by decide)
  have h₄ : (Store.of hf₀).graph.node 4#64 = some _ := hnode 4 (by decide)
  rcases Store.run_createRelationship hw₀.store h₃ h₄ (show 0#64 ≠ _ by decide) 200000 5#64 with
    ⟨e, -, he⟩ | ⟨id, s, h, hC, -⟩
  · exfalso
    have hroom : hf₀.HasRoom .relationship 200000 :=
      ⟨by omega, Nat.lt_of_le_of_lt (Nat.succ_le_succ hrels) (by decide)⟩
    exact hroom.not_exhausted he.exhausted
  obtain ⟨hf, -, hg, rfl⟩ := run_ok hw₀.good h
  obtain ⟨hw', hE⟩ := Store.createRelationship_wellFormed hw₀.store h₃ h₄ (by decide) h
  have hw : hf.WellFormed := ⟨hg, hw'⟩
  obtain ⟨rel, hrel, hpay⟩ := Option.map_eq_some_iff.mp hE.new
  simp only [Relationship.payload, Prod.mk.injEq] at hpay
  -- the exchange
  have hl : ∀ x : Ulong, x.toNat < 512 → (Store.of hf).Live .node x :=
    fun x hx => (hC.live _ _).mpr (.inl ((hlive x).mp ((mem_firstIds (by decide)).mpr hx)))
  have hpage : 1 < (hf.cache.records .node).numPages := (hl 256#64 (by decide)).2.1
  have hs : ∀ j < 256, ¬ hf.Strands (slotId 0#64 j) (slotId 1#64 j) := by
    rintro j hj ⟨hnone, -⟩
    refine Store.node_eq_none.mp hnone (hl _ ?_)
    rw [toNat_slotId (by decide) hj, show (1#64).toNat = 1 from rfl]
    omega
  have hfst : (0#64 : Ulong).toNat < (hf.cache.records .node).numPages := Nat.zero_lt_of_lt hpage
  have hsnd : (1#64 : Ulong).toNat < (hf.cache.records .node).numPages := hpage
  have hfuel : (hf.cache.records .relationship).numPages * 256 < 200000 := by
    obtain ⟨s₁, hA, hpages, -⟩ := hC.allocated
    have hle := (hA.pages_le .relationship).2
    rw [← hpages] at hle
    have hle' : (hf.cache.records .relationship).numPages ≤
      (hf₀.cache.records .relationship).numPages + 1 := hle
    omega
  obtain ⟨hf', τ, hrun, hw'', hgraph, hτ, -⟩ := swapRecordPages_renames hw hfuel (by decide) hfst hsnd
    fun _ => hs
  have hmove₃ : τ 3#64 = 259#64 := hτ.left 3 (Nat.zero_le 3) (by decide) rfl
  have hmove₄ : τ 4#64 = 260#64 := hτ.left 4 (Nat.zero_le 4) (by decide) rfl
  have hrel' : hf'.graph.rel id = some (rel.rename τ 1) := by
    rw [hgraph]
    exact (Graph.rename_rel (σ := 1)).trans (congrArg _ hrel)
  exact ⟨hf, hf', id, rel, _, hw, hrel, hpay.1, hpay.2.1, hrun, hw'', hrel',
    (congrArg τ hpay.1).trans hmove₃, (congrArg τ hpay.2.1).trans hmove₄⟩

end HeapFile

end Goedb
