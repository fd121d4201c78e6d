import Goedb.Access.Agreement
import Goedb.DataStruct.Dict
import Goedb.Lib.Cycles
import Goedb.Order.SlotAccounting
import Goedb.Order.SwapNodes

/-!
# Order — permuting the records

`reorder_nodes` and `reorder_relationships` of `reorder_records.c`: a dictionary says for every id
where its record shall go.  The positions are visited one after the other; each visit exchanges the
record that belongs there with the one that is there, and the dictionary and its inverse are
corrected for the latter.

* `Store.run_place`: a visit renames two ids and takes the position out of its cycle (`Lib.bypass`).
* `Store.run_reorderLoop`: what the visits leave to do is a permutation of the positions that were
  not visited, with the cycles of the one that was asked for.
* `HeapFile.reorderRelationships_renames`: every relationship gets to its place.
* `HeapFile.reorderNodes_iff`: every node does, exactly if no two positions with slot 255, which are
  never visited, get in each other's way.
-/

namespace Goedb

open Lib

/-! ### The functions -/

namespace HF

/-- A computation that may stop the run. -/
def lift {α : Type} : Except Fault α → HF α
  | .ok a => pure a
  | .error f => abort f

/-- The page and the slot visited after these ones, for records of `n` slots. -/
def nextPosition (n page slot : ℕ) : ℕ × ℕ :=
  if ucharMax.toNat ≤ slot + n then (page + 1, 0) else (page, slot + n)

/-- The dictionaries once the record of `oldId` is at `newId` and the one from there at `oldId`. -/
def settle (after : Dict → Dict → HF Unit) (oldId newId : Ulong) (newIds inverse : Dict) :
    HF (Dict × Dict) := do
  let newIds ← lift (newIds.remove oldId)
  let inverse ← lift (inverse.remove newId)
  if oldId = newId then return (newIds, inverse)
  else
    let tempNew ← lift (newIds.getDirect newId)
    let newIds ← lift (newIds.remove newId)
    let inverse ← lift (inverse.remove tempNew)
    let newIds : Dict := newIds.insert oldId tempNew
    let inverse : Dict := inverse.insert tempNew oldId
    after newIds inverse
    return (newIds, inverse)

/-- One visit: the record that belongs at `newId`, if one does, is exchanged with the one there. -/
def place (swap : Ulong → Ulong → HF Unit) (after : Dict → Dict → HF Unit) (newId : Ulong)
    (newIds inverse : Dict) : HF (Dict × Dict) :=
  match inverse.lookup newId with
  | none => pure (newIds, inverse)
  | some oldId => do
      swap oldId newId
      settle after oldId newId newIds inverse

/-- The loop of the two functions; `count` is the field with the number of records. -/
def reorderLoop (swap : Ulong → Ulong → HF Unit) (after : Dict → Dict → HF Unit) (n : ℕ)
    (count : Counters → Ulong) : (fuel : ℕ) → (i page slot : ℕ) → (newIds inverse : Dict) → HF Unit
  | 0, _, _, _, _, _ => abort .diverge
  | fuel + 1, i, page, slot, newIds, inverse => do
      let c ← Prog.perform .getCounters
      if i < (count c).toNat then
        let (newIds, inverse) ← place swap after (recordId page slot) newIds inverse
        if newIds.size = 0 then pure ()
        else
          let (page, slot) := nextPosition n page slot
          reorderLoop swap after n count fuel (i + 1) page slot newIds inverse
      else pure ()

/-- `reorder_nodes`. -/
def reorderNodes (P fuel : ℕ) (newIds : Dict) : HF Unit :=
  reorderLoop (swapNodes P fuel) (fun _ _ => pure ()) (numSlotsPer .node) Counters.nNodes fuel 0 0 0
    newIds newIds.inverse

/-- The assertion of `reorder_relationships`. -/
def assertSameSize (newIds inverse : Dict) : HF Unit :=
  if newIds.size = inverse.size then pure ()
  else exit "Assertion dict_ul_ul_size(new_ids) == dict_ul_ul_size(inverse_new_ids) failed."

/-- `reorder_relationships`. -/
def reorderRelationships (P fuel : ℕ) (newIds : Dict) : HF Unit :=
  reorderLoop (swapRelationships P) assertSameSize (numSlotsPer .relationship) Counters.nRels fuel
    0 0 0 newIds newIds.inverse

end HF

/-! ### Renamed records of one type -/

namespace Graph

/-- The records of one type renamed. -/
def renameAt (ft : FileType) (τ : Renaming) (g : Graph) : Graph :=
  match ft with
  | .node => g.rename τ 1
  | .relationship => g.rename 1 τ

theorem rename_rename (τ σ τ' σ' : Renaming) (g : Graph) :
    (g.rename τ σ).rename τ' σ' = g.rename (τ' * τ) (σ' * σ) := by
  simp only [Graph.rename, Option.map_map]
  rfl

theorem rename_one (g : Graph) : g.rename 1 1 = g := by
  refine Graph.ext (funext fun n => ?_) (funext fun x => ?_)
  · show (g.node n).map _ = _
    cases g.node n <;> rfl
  · show (g.rel x).map _ = _
    cases g.rel x <;> rfl

theorem renameAt_renameAt (ft : FileType) (τ τ' : Renaming) (g : Graph) :
    (g.renameAt ft τ).renameAt ft τ' = g.renameAt ft (τ' * τ) := by
  cases ft with
  | node => exact rename_rename τ 1 τ' 1 g
  | relationship => exact rename_rename 1 τ 1 τ' g

theorem renameAt_one (ft : FileType) (g : Graph) : g.renameAt ft 1 = g := by
  cases ft <;> exact rename_one g

end Graph

namespace Store

/-- The well-formed store `s'` is `s` with the records of one type renamed. -/
structure Renamed (s : Store) (ft : FileType) (τ : Renaming) (s' : Store) : Prop where
  wellFormed : s'.WellFormed
  pages : s'.pages = s.pages
  live : ∀ gt x, s'.Live gt x ↔ s.Live gt (if gt = ft then τ.symm x else x)
  counters : s'.counters = { s.counters with log := s'.counters.log }
  graph : s'.graph = s.graph.renameAt ft τ

variable {s s' s'' : Store} {ft : FileType} {τ τ' ρ : Renaming}

theorem Renamed.refl (hw : s.WellFormed) : s.Renamed ft 1 s :=
  ⟨hw, rfl, fun gt x => by split <;> rfl, rfl, (Graph.renameAt_one ft _).symm⟩

theorem Renamed.trans (h : s.Renamed ft τ s') (h' : s'.Renamed ft τ' s'') :
    s.Renamed ft (τ' * τ) s'' where
  wellFormed := h'.wellFormed
  pages := h'.pages.trans h.pages
  live gt x := by
    rw [h'.live, h.live]
    split <;> rfl
  counters := by
    rw [h'.counters, h.counters]
  graph := by rw [h'.graph, h.graph, Graph.renameAt_renameAt]

theorem Renamed.of_exchanged {fst snd : Ulong} (hE : s.Exchanged ft fst snd s')
    (hw : s'.WellFormed) (hg : s'.graph = s.graph.renameAt ft (Equiv.swap fst snd)) :
    s.Renamed ft (Equiv.swap fst snd) s' :=
  ⟨hw, hE.pages, fun gt x => by rw [hE.live, exchange_eq_swap, Equiv.symm_swap], hE.counters, hg⟩

theorem Renamed.counted (h : s.Renamed ft τ s') (hc : s.Counted) : s'.Counted :=
  hc.permuted h.wellFormed.valid h.live fun gt => by
    rw [h.counters]
    cases gt <;> rfl

theorem run_swapNodes_renamed (hw : s.WellFormed) {fst snd : Ulong} {fuel : ℕ}
    (hfuel : s.pages .relationship * 256 < fuel) (h₁ : s.Live .node fst) (h₂ : s.Live .node snd) :
    ∃ s', run (HF.swapNodes 4096 fuel fst snd) s = .ok ((), s') ∧
      s.Renamed .node (Equiv.swap fst snd) s' := by
  obtain ⟨s', hrun, hE, hn, hr⟩ := run_swapNodes hw h₁.2.1 h₂.2.1 hfuel
  rw [if_neg fun h => h.2 h₂] at hr
  have hg : s'.graph = s.graph.rename (Equiv.swap fst snd) 1 := Graph.ext hn hr
  exact ⟨s', hrun, .of_exchanged hE (hw.rename hE.valid rfl hg) hg⟩

theorem run_swapRelationships_renamed (hw : s.WellFormed) {fst snd : Ulong}
    (ha : fst.toNat % 4 = 0) (hb : snd.toNat % 4 = 0) (hp : fst.toNat / 256 < s.pages .relationship)
    (hq : snd.toNat / 256 < s.pages .relationship) :
    ∃ s', run (HF.swapRelationships 4096 fst snd) s = .ok ((), s') ∧
      s.Renamed .relationship (Equiv.swap fst snd) s' := by
  obtain ⟨s', hrun, hE, hg⟩ := run_swapRelationships hw ha hb hp hq
  have hnull : Equiv.swap fst snd uninitializedLong = uninitializedLong :=
    Equiv.swap_apply_of_ne_of_ne (hw.valid.ne_uninitialized hp).symm
      (hw.valid.ne_uninitialized hq).symm
  exact ⟨s', hrun, .of_exchanged hE (hw.rename hE.valid hnull hg) hg⟩

end Store

/-! ### One visit -/

/-- The dictionaries say where the records at `D` shall go, and what shall come there; everything
else is in its place. -/
structure Tracks (newIds inverse : Dict) (ρ : Renaming) (D : Finset Ulong) : Prop where
  newIds : ∀ x, newIds.lookup x = if x ∈ D then some (ρ x) else none
  inverse : ∀ x, inverse.lookup x = if x ∈ D then some (ρ.symm x) else none
  fixed : ∀ x, x ∉ D → ρ x = x

namespace Tracks

variable {newIds inverse : Dict} {ρ : Renaming} {D : Finset Ulong} {x p : Ulong}

theorem mem_iff (h : Tracks newIds inverse ρ D) : ρ x ∈ D ↔ x ∈ D := by
  constructor
  · intro hx
    by_contra hn
    rw [h.fixed x hn] at hx
    exact hn hx
  · intro hx
    by_contra hn
    have := ρ.injective (h.fixed _ hn)
    rw [this] at hn
    exact hn hx

theorem symm_mem_iff (h : Tracks newIds inverse ρ D) : ρ.symm x ∈ D ↔ x ∈ D := by
  rw [← h.mem_iff, ρ.apply_symm_apply]

theorem size_eq (h : Tracks newIds inverse ρ D) :
    newIds.size = D.card ∧ inverse.size = D.card := by
  constructor
  · refine Dict.size_eq_card fun k => ?_
    rw [h.newIds]
    split <;> simp_all
  · refine Dict.size_eq_card fun k => ?_
    rw [h.inverse]
    split <;> simp_all

/-- The dictionary and its inverse, at the start. -/
theorem start (h : ∀ x, newIds.lookup x = if x ∈ D then some (ρ x) else none)
    (hfixed : ∀ x, x ∉ D → ρ x = x) : Tracks newIds newIds.inverse ρ D where
  newIds := h
  inverse x := by
    have hinj : ∀ k k' v, newIds.lookup k = some v → newIds.lookup k' = some v → k = k' := by
      intro k k' v hk hk'
      rw [h] at hk hk'
      split at hk
      · split at hk'
        · exact ρ.injective ((Option.some.inj hk).trans (Option.some.inj hk').symm)
        · cases hk'
      · cases hk
    split
    · rename_i hx
      rw [Dict.lookup_inverse hinj, h, ρ.apply_symm_apply, if_pos]
      by_contra hn
      have := hfixed _ hn
      rw [ρ.apply_symm_apply] at this
      rw [← this] at hn
      exact hn hx
    · rename_i hx
      cases hy : newIds.inverse.lookup x with
      | none => rfl
      | some y =>
          have hl := (Dict.lookup_inverse hinj).mp hy
          rw [h] at hl
          split at hl
          · rename_i hyD
            cases hl
            exact absurd ((by
              by_contra hn
              have := ρ.injective (hfixed _ hn)
              rw [this] at hn
              exact hn hyD : ρ y ∈ D)) hx
          · cases hl
  fixed := hfixed

/-- A position that holds its record is taken out. -/
theorem erase_self (h : Tracks newIds inverse ρ D) (hp : ρ.symm p = p) :
    Tracks (newIds.erase p) (inverse.erase p) (bypass ρ p) (D.erase p) := by
  rw [bypass_of_fixed hp]
  refine ⟨fun x => ?_, fun x => ?_, fun x hx => ?_⟩
  · by_cases hx : x = p
    · subst hx
      simp
    · rw [AList.lookup_erase_ne hx, h.newIds]
      simp [hx]
  · by_cases hx : x = p
    · subst hx
      simp
    · rw [AList.lookup_erase_ne hx, h.inverse]
      simp [hx]
  · by_cases hxp : x = p
    · rw [hxp]
      exact ((Equiv.symm_apply_eq ρ).mp hp).symm
    · exact h.fixed x fun hD => hx (Finset.mem_erase.mpr ⟨hxp, hD⟩)

/-- A position is taken out whose record came from elsewhere: the one that was there is now there. -/
theorem exchange (h : Tracks newIds inverse ρ D) (hD : p ∈ D) (hp : ρ.symm p ≠ p) :
    Tracks (((newIds.erase (ρ.symm p)).erase p).insert (ρ.symm p) (ρ p))
      (((inverse.erase p).erase (ρ p)).insert (ρ p) (ρ.symm p)) (bypass ρ p) (D.erase p) := by
  have hρp : ρ p ≠ p := fun e => hp ((Equiv.symm_apply_eq ρ).mpr e.symm)
  refine ⟨fun x => ?_, fun x => ?_, fun x hx => ?_⟩
  · by_cases h₁ : x = ρ.symm p
    · subst h₁
      rw [AList.lookup_insert, bypass_pred, if_pos]
      exact Finset.mem_erase.mpr ⟨hp, h.symm_mem_iff.mpr hD⟩
    · rw [AList.lookup_insert_ne h₁]
      by_cases h₂ : x = p
      · subst h₂
        simp
      · rw [AList.lookup_erase_ne h₂, AList.lookup_erase_ne h₁, h.newIds, bypass_of_ne h₂]
        · simp [h₂]
        · intro e
          exact h₁ ((Equiv.eq_symm_apply ρ).mpr e)
  · by_cases h₁ : x = ρ p
    · subst h₁
      rw [AList.lookup_insert, if_pos]
      · rw [(Equiv.symm_apply_eq (bypass ρ p)).mpr bypass_pred.symm]
      · exact Finset.mem_erase.mpr ⟨hρp, h.mem_iff.mpr hD⟩
    · rw [AList.lookup_insert_ne h₁, AList.lookup_erase_ne h₁]
      by_cases h₂ : x = p
      · subst h₂
        simp
      · rw [AList.lookup_erase_ne h₂, h.inverse]
        have hback : bypass ρ p (ρ.symm x) = x := by
          rw [bypass_of_ne, ρ.apply_symm_apply]
          · intro e
            exact h₁ ((Equiv.symm_apply_eq ρ).mp e)
          · rwa [ρ.apply_symm_apply]
        rw [(Equiv.symm_apply_eq (bypass ρ p)).mpr hback.symm]
        simp [h₂]
  · by_cases hxp : x = p
    · rw [hxp, bypass_self]
    · have hxD : x ∉ D := fun hD => hx (Finset.mem_erase.mpr ⟨hxp, hD⟩)
      rw [bypass_of_ne hxp, h.fixed x hxD]
      rwa [h.fixed x hxD]

end Tracks

namespace Store

variable {ft : FileType} {swap : Ulong → Ulong → HF Unit} {after : Dict → Dict → HF Unit}
  {pages : FileType → ℕ}

theorem run_lift {α : Type} {x : Except Fault α} {a : α} (h : x = .ok a) (s : Store) :
    run (HF.lift x) s = .ok (a, s) := by
  rw [h]
  rfl

theorem run_lift_inv {s' : Store} {α : Type} {x : Except Fault α} {a : α}
    (h : run (HF.lift x) s = .ok (a, s')) :
    x = .ok a ∧ s' = s := by
  cases x with
  | ok b =>
      cases h
      exact ⟨rfl, rfl⟩
  | error e => cases h

/-- The exchange of two records renames them, whatever the store. -/
def Swaps (ft : FileType) (pages : FileType → ℕ) (swap : Ulong → Ulong → HF Unit) : Prop :=
  ∀ s fst snd, s.WellFormed → s.pages = pages → s.Live ft fst → s.Live ft snd →
    ∃ s', run (swap fst snd) s = .ok ((), s') ∧ s.Renamed ft (Equiv.swap fst snd) s'

theorem swaps_nodes {fuel : ℕ} (hfuel : pages .relationship * 256 < fuel) :
    Swaps .node pages (HF.swapNodes 4096 fuel) := by
  rintro s fst snd hw rfl h₁ h₂
  exact run_swapNodes_renamed hw hfuel h₁ h₂

theorem swaps_relationships (pages : FileType → ℕ) :
    Swaps .relationship pages (HF.swapRelationships 4096) :=
  fun _ _ _ hw _ h₁ h₂ => run_swapRelationships_renamed hw h₁.1 h₂.1 h₁.2.1 h₂.2.1

/-- What is done after the dictionaries were corrected does nothing. -/
def Passes (after : Dict → Dict → HF Unit) : Prop :=
  ∀ newIds inverse s, newIds.size = inverse.size → run (after newIds inverse) s = .ok ((), s)

theorem run_settle (hafter : Passes after) {newIds inverse : Dict} {ρ : Renaming}
    {D : Finset Ulong} (ht : Tracks newIds inverse ρ D) {p : Ulong} (hp : p ∈ D) (s : Store) :
    ∃ newIds' inverse',
      run (HF.settle after (ρ.symm p) p newIds inverse) s = .ok ((newIds', inverse'), s) ∧
      Tracks newIds' inverse' (bypass ρ p) (D.erase p) := by
  have hnew : newIds.lookup (ρ.symm p) = some p := by
    rw [ht.newIds, if_pos (ht.symm_mem_iff.mpr hp), ρ.apply_symm_apply]
  have hinv : inverse.lookup p = some (ρ.symm p) := by rw [ht.inverse, if_pos hp]
  rw [run, HF.settle, Prog.run_bind_ok _ (run_lift (Dict.remove_ok hnew) s),
    Prog.run_bind_ok _ (run_lift (Dict.remove_ok hinv) s)]
  by_cases hfix : ρ.symm p = p
  · rw [if_pos hfix]
    refine ⟨_, _, rfl, ?_⟩
    rw [hfix]
    exact ht.erase_self hfix
  · have hρp : ρ p ≠ p := fun e => hfix ((Equiv.symm_apply_eq ρ).mpr e.symm)
    have htemp : (newIds.erase (ρ.symm p)).lookup p = some (ρ p) := by
      rw [AList.lookup_erase_ne (Ne.symm hfix), ht.newIds, if_pos hp]
    have htinv : (inverse.erase p).lookup (ρ p) = some p := by
      rw [AList.lookup_erase_ne hρp, ht.inverse, if_pos (ht.mem_iff.mpr hp), ρ.symm_apply_apply]
    have ht' := ht.exchange hp hfix
    rw [if_neg hfix, Prog.run_bind_ok _ (run_lift (Dict.getDirect_ok htemp) s),
      Prog.run_bind_ok _ (run_lift (Dict.remove_ok htemp) s),
      Prog.run_bind_ok _ (run_lift (Dict.remove_ok htinv) s),
      Prog.run_bind_ok _ (hafter _ _ s (ht'.size_eq.1.trans ht'.size_eq.2.symm))]
    exact ⟨_, _, rfl, ht'⟩

/-- **One visit** takes the position out of its cycle. -/
theorem run_place (hswap : Swaps ft pages swap) (hafter : Passes after) {s : Store}
    (hw : s.WellFormed) (hpages : s.pages = pages) {newIds inverse : Dict} {ρ : Renaming}
    {D : Finset Ulong} (ht : Tracks newIds inverse ρ D) (hD : ∀ x ∈ D, s.Live ft x) (p : Ulong) :
    ∃ s' newIds' inverse' τ ρ',
      run (HF.place swap after p newIds inverse) s = .ok ((newIds', inverse'), s') ∧
      s.Renamed ft τ s' ∧ ρ = ρ' * τ ∧ Tracks newIds' inverse' ρ' (D.erase p) ∧
      (∀ x ∈ D, s'.Live ft x) ∧
      ∀ a b, a ≠ p → b ≠ p → (ρ'.SameCycle a b ↔ ρ.SameCycle a b) := by
  by_cases hp : p ∈ D
  · have hold : ρ.symm p ∈ D := ht.symm_mem_iff.mpr hp
    obtain ⟨s', hrun, hR⟩ := hswap s (ρ.symm p) p hw hpages (hD _ hold) (hD _ hp)
    obtain ⟨newIds', inverse', hsettle, ht'⟩ := run_settle hafter ht hp s'
    refine ⟨s', newIds', inverse', _, bypass ρ p, ?_, hR, ?_, ht', fun x hx => ?_,
      fun a b => sameCycle_bypass_iff⟩
    · rw [run, HF.place, ht.inverse, if_pos hp]
      exact (Prog.run_bind_ok _ hrun _).trans hsettle
    · rw [bypass, mul_assoc, Equiv.swap_mul_self, mul_one]
    · rw [hR.live, if_pos rfl, Equiv.symm_swap, Equiv.swap_apply_def]
      split
      · exact hD _ hp
      · split
        · exact hD _ hold
        · exact hD _ hx
  · refine ⟨s, newIds, inverse, 1, ρ, ?_, .refl hw, (mul_one ρ).symm, ?_, hD, fun a b _ _ => Iff.rfl⟩
    · rw [run, HF.place, ht.inverse, if_neg hp]
      rfl
    · rwa [Finset.erase_eq_of_notMem hp]

/-! ### The loop -/

/-- The positions of a page that the loop visits, for records of `n` slots. -/
def perPage (n : ℕ) : ℕ := (ucharMax.toNat - 1) / n + 1

/-- The position of the visit `i`. -/
def position (n i : ℕ) : Ulong := HF.recordId (i / perPage n) (n * (i % perPage n))

theorem nextPosition_eq {n : ℕ} (hn : n = 1 ∨ n = 4) (i : ℕ) :
    HF.nextPosition n (i / perPage n) (n * (i % perPage n)) =
      ((i + 1) / perPage n, n * ((i + 1) % perPage n)) := by
  have h₁ : perPage 1 = 255 := rfl
  have h₄ : perPage 4 = 64 := rfl
  have hu : ucharMax.toNat = 255 := rfl
  rw [HF.nextPosition, hu]
  rcases hn with rfl | rfl
  · rw [h₁]
    split
    · exact Prod.ext (by simp only; omega) (by simp only; omega)
    · exact Prod.ext (by simp only; omega) (by simp only; omega)
  · rw [h₄]
    split
    · exact Prod.ext (by simp only; omega) (by simp only; omega)
    · exact Prod.ext (by simp only; omega) (by simp only; omega)

/-- **The visits.**  What is left to do after them is a permutation of the positions that were not
visited, with the cycles of the one that was asked for. -/
theorem run_reorderLoop (hswap : Swaps ft pages swap) (hafter : Passes after) {n : ℕ}
    (hn : n = 1 ∨ n = 4) (count : Counters → Ulong)
    (hcount : ∀ c log, count { c with log := log } = count c) (fuel : ℕ) :
    ∀ {i : ℕ} {s : Store} {newIds inverse : Dict} {ρ : Renaming} {D : Finset Ulong},
      s.WellFormed → s.pages = pages → Tracks newIds inverse ρ D → (∀ x ∈ D, s.Live ft x) →
      (count s.counters).toNat - i < fuel →
      ∃ s' τ ρ', run (HF.reorderLoop swap after n count fuel i (i / perPage n)
          (n * (i % perPage n)) newIds inverse) s = .ok ((), s') ∧
        s.Renamed ft τ s' ∧ ρ = ρ' * τ ∧
        (∀ x, ρ' x ≠ x → x ∈ D ∧ ∀ j, i ≤ j → j < (count s.counters).toNat → x ≠ position n j) ∧
        ∀ a b, (∀ j, a ≠ position n j) → (∀ j, b ≠ position n j) →
          (ρ'.SameCycle a b ↔ ρ.SameCycle a b) := by
  induction fuel with
  | zero =>
      intro i s newIds inverse ρ D hw hp ht hD hf
      exact absurd hf (Nat.not_lt_zero _)
  | succ fuel ih =>
      intro i s newIds inverse ρ D hw hp ht hD hf
      have hget : run (Prog.perform .getCounters) s = .ok (s.counters, s) := rfl
      rw [run, HF.reorderLoop, Prog.run_bind_ok _ hget]
      -- the loop ends when all positions are visited, or as soon as the dictionary is empty
      by_cases hi : i < (count s.counters).toNat
      · obtain ⟨s₁, newIds', inverse', τ, ρ', hrun, hR, hρ, ht', hlive, hcycle⟩ :=
          run_place hswap hafter hw hp ht hD (position n i)
        have hcount' : count s₁.counters = count s.counters := by rw [hR.counters, hcount]
        have hvisit : Prog.run step (HF.place swap after
            (HF.recordId (i / perPage n) (n * (i % perPage n))) newIds inverse) s = _ := hrun
        rw [if_pos hi, Prog.run_bind_ok _ hvisit]
        by_cases hsize : newIds'.size = 0
        · have hempty : D.erase (position n i) = ∅ := by
            rw [← Finset.card_eq_zero, ← ht'.size_eq.1, hsize]
          refine ⟨s₁, τ, ρ', ?_, hR, hρ, fun x hx => ?_, fun a b ha hb => hcycle a b (ha i) (hb i)⟩
          · simp only [if_pos hsize]
            rfl
          · exact absurd (ht'.fixed x (by rw [hempty]; simp)) hx
        · obtain ⟨s₂, τ₂, ρ₂, hrun₂, hR₂, hρ₂, hfix₂, hcycle₂⟩ := ih (i := i + 1) hR.wellFormed
            (hR.pages.trans hp) ht' (fun x hx => hlive x (Finset.mem_of_mem_erase hx))
            (by rw [hcount']; omega)
          rw [hcount'] at hfix₂
          refine ⟨s₂, τ₂ * τ, ρ₂, ?_, hR.trans hR₂, ?_, fun x hx => ?_, fun a b ha hb => ?_⟩
          · simp only [if_neg hsize, nextPosition_eq hn]
            exact hrun₂
          · rw [hρ, hρ₂, mul_assoc]
          · obtain ⟨hxD, hxj⟩ := hfix₂ x hx
            rw [Finset.mem_erase] at hxD
            refine ⟨hxD.2, fun j hij hj => ?_⟩
            rcases Nat.eq_or_lt_of_le hij with rfl | hlt
            · exact hxD.1
            · exact hxj j hlt hj
          · rw [hcycle₂ a b ha hb, hcycle a b (ha i) (hb i)]
      · rw [if_neg hi]
        refine ⟨s, 1, ρ, rfl, .refl hw, (mul_one ρ).symm, fun x hx => ⟨?_, fun j hj hj' => ?_⟩,
          fun a b _ _ => Iff.rfl⟩
        · by_contra hD
          exact hx (ht.fixed x hD)
        · omega

/-- Every relationship of the first ones is visited. -/
theorem position_relationship {x : Ulong} (h : x.toNat % 4 = 0) (hx : x.toNat < 2 ^ 63) :
    x = position 4 (x.toNat / 4) := by
  have h₁ : x.toNat / 4 / 64 = x.toNat / 256 := by omega
  have h₂ : 4 * (x.toNat / 4 % 64) = x.toNat % 256 := by omega
  rw [position, show perPage 4 = 64 from rfl, h₁, h₂, recordId_eq hx, BitVec.ofNat_toNat,
    BitVec.setWidth_eq]

/-- Every node of the first ones is visited, apart from the slots 255. -/
theorem position_node {x : Ulong} (h : x.toNat % 256 ≠ 255) (hx : x.toNat < 2 ^ 63) :
    x = position 1 (255 * (x.toNat / 256) + x.toNat % 256) := by
  have hlt : x.toNat % 256 < 255 := by omega
  have h₁ : (255 * (x.toNat / 256) + x.toNat % 256) / 255 = x.toNat / 256 := by omega
  have h₂ : 1 * ((255 * (x.toNat / 256) + x.toNat % 256) % 255) = x.toNat % 256 := by omega
  rw [position, show perPage 1 = 255 from rfl, h₁, h₂, recordId_eq hx, BitVec.ofNat_toNat,
    BitVec.setWidth_eq]

/-- The slots 255 are not visited. -/
theorem ne_position {x : Ulong} (h : x.toNat % 256 = 255) (j : ℕ) : x ≠ position 1 j := by
  have hslot : j % 255 < 255 := Nat.mod_lt _ (by decide)
  rintro rfl
  have hshift : (BitVec.ofNat 64 (j / 255) <<< charBit).toNat % 2 ^ 8 = 0 := by
    rw [BitVec.toNat_shiftLeft, charBit, Nat.shiftLeft_eq]
    omega
  rw [position, show perPage 1 = 255 from rfl, HF.recordId, BitVec.toNat_or,
    show 256 = 2 ^ 8 from rfl, Nat.or_mod_two_pow, hshift, Nat.zero_or, BitVec.toNat_ofNat] at h
  omega

end Store

/-! ### The heap file -/

namespace HeapFile

/-- The records of a type are the first ones, as many as the heap file counts. -/
def FirstSlots (hf : HeapFile PhyDatabase) (ft : FileType) : Prop :=
  ∀ x, (Store.of hf).Live ft x ↔
    x.toNat % numSlotsPer ft = 0 ∧ x.toNat < (hf.counters.number ft).toNat * numSlotsPer ft

/-- The dictionary is the permutation `π` of the ids of the records of a type. -/
structure Permutes (hf : HeapFile PhyDatabase) (ft : FileType) (newIds : Dict) (π : Renaming) :
    Prop where
  lookup : ∀ x, newIds.lookup x = if (Store.of hf).Live ft x then some (π x) else none
  fixed : ∀ x, ¬ (Store.of hf).Live ft x → π x = x

variable {hf : HeapFile PhyDatabase} {ft : FileType} {newIds : Dict} {π : Renaming} {fuel : ℕ}

theorem Permutes.of {l : List Ulong} (hl : ∀ x, x ∈ l ↔ (Store.of hf).Live ft x)
    (hfix : ∀ x, x ∉ l → π x = x) : hf.Permutes ft (Dict.of l π) π := by
  refine ⟨fun x => ?_, fun x hx => hfix x ?_⟩
  · simp only [Dict.lookup_of, hl]
  · rwa [hl]

theorem Permutes.mem_keys (h : hf.Permutes ft newIds π) (x : Ulong) :
    x ∈ newIds.keys.toFinset ↔ (Store.of hf).Live ft x := by
  rw [List.mem_toFinset, ← AList.mem_keys, ← AList.lookup_isSome, h.lookup]
  split <;> simp_all

theorem Permutes.tracks (h : hf.Permutes ft newIds π) :
    Tracks newIds newIds.inverse π newIds.keys.toFinset := by
  refine .start (fun x => ?_) fun x hx => h.fixed x ?_
  · simp only [h.lookup, h.mem_keys]
  · rwa [← h.mem_keys]

theorem Permutes.live_symm_iff (h : hf.Permutes ft newIds π) {x : Ulong} :
    (Store.of hf).Live ft (π.symm x) ↔ (Store.of hf).Live ft x := by
  rw [← h.mem_keys, ← h.mem_keys]
  exact h.tracks.symm_mem_iff

theorem live_lt (hw : hf.WellFormed) {x : Ulong} (hx : (Store.of hf).Live ft x) :
    x.toNat < 2 ^ 63 := by
  have hpages := hw.store.valid.pages_lt ft
  have hmax : maxPageNo 4096 < 2 ^ 51 := by decide
  have hpage := hx.2.1
  omega

/-- What `reorder_relationships` does. -/
theorem run_reorderRelationships (hw : hf.WellFormed) (hfirst : hf.FirstSlots .relationship)
    (hπ : hf.Permutes .relationship newIds π) (hfuel : hf.counters.nRels.toNat < fuel) :
    ∃ hf', run (HF.reorderRelationships 4096 fuel newIds) hf = .ok ((), hf') ∧ hf'.Good ∧
      (Store.of hf).Renamed .relationship π (Store.of hf') := by
  have hafter : Store.Passes HF.assertSameSize := by
    intro newIds inverse s h
    rw [Store.run, HF.assertSameSize, if_pos h]
    rfl
  obtain ⟨s', τ, ρ', hrun, hR, hρ, hleft, -⟩ := Store.run_reorderLoop
    (Store.swaps_relationships _) hafter (.inr rfl) Counters.nRels (fun _ _ => rfl) fuel (i := 0)
    hw.store rfl hπ.tracks (fun x hx => (hπ.mem_keys x).mp hx) hfuel
  -- every existing relationship is visited, so nothing is left to do
  have hone : ρ' = 1 := by
    refine Equiv.ext fun x => ?_
    by_contra hx
    obtain ⟨hD, hpos⟩ := hleft x hx
    have hl := (hπ.mem_keys x).mp hD
    obtain ⟨ha, hlt⟩ := (hfirst x).mp hl
    refine hpos (x.toNat / 4) (Nat.zero_le _) ?_ (Store.position_relationship ha (live_lt hw hl))
    exact Nat.div_lt_of_lt_mul (Nat.mul_comm _ 4 ▸ hlt)
  rw [hone, one_mul] at hρ
  obtain ⟨hf', hrun', hg, rfl⟩ := run_ok hw.good hrun
  exact ⟨hf', hrun', hg, hρ ▸ hR⟩

/-- **`reorder_relationships` renames** every relationship to the id it is given. -/
theorem reorderRelationships_renames (hw : hf.WellFormed) (hfirst : hf.FirstSlots .relationship)
    (hπ : hf.Permutes .relationship newIds π) (hfuel : hf.counters.nRels.toNat < fuel) :
    ∃ hf', run (HF.reorderRelationships 4096 fuel newIds) hf = .ok ((), hf') ∧ hf'.WellFormed ∧
      hf'.graph = hf.graph.rename 1 π := by
  obtain ⟨hf', hrun, hg, hR⟩ := run_reorderRelationships hw hfirst hπ hfuel
  exact ⟨hf', hrun, ⟨hg, hR.wellFormed⟩, hR.graph⟩

/-- A self-loop and a relationship to another node change places. -/
theorem reorderRelationships_renames_loop : ∃ hf hf', hf.WellFormed ∧
    run (HF.reorderRelationships 4096 1000 (Dict.of [0#64, 4#64] (Equiv.swap 0#64 4#64))) hf =
      .ok ((), hf') ∧
    hf'.WellFormed ∧ hf'.graph = hf.graph.rename 1 (Equiv.swap 0#64 4#64) := by
  have h : Prog.check Store.step (HF.creations 4096 1000
      [.node 7#64, .node 8#64, .relationship 0#64 0#64 0#64 5#64,
        .relationship 0#64 1#64 0#64 6#64]) Store.empty
      (fun _ s => decide (s.counters.nRels = 2#64 ∧
        s.liveIds .relationship = [0#64, 4#64])) = true := by
    decide +kernel
  obtain ⟨ids, s, hrun, hp⟩ := Prog.check_inv _ h
  obtain ⟨hcount, hlive⟩ := of_decide_eq_true hp
  obtain ⟨-, -, hf, -, -, -, hw, rfl⟩ := exists_created hrun
  have hmem : ∀ x, x ∈ [0#64, 4#64] ↔ (Store.of hf).Live .relationship x := by
    intro x
    rw [← hlive, Store.mem_liveIds]
  have hcount' : hf.counters.nRels = 2#64 := hcount
  have hfirst : hf.FirstSlots .relationship := by
    intro x
    rw [← hmem, Counters.number, hcount', List.mem_pair, ← BitVec.toNat_inj, ← BitVec.toNat_inj]
    show x.toNat = 0 ∨ x.toNat = 4 ↔ x.toNat % 4 = 0 ∧ x.toNat < 2 * 4
    omega
  have hπ : hf.Permutes .relationship (Dict.of [0#64, 4#64] (Equiv.swap 0#64 4#64))
      (Equiv.swap 0#64 4#64) := by
    refine .of hmem fun x hx => ?_
    rw [List.mem_pair, not_or] at hx
    exact Equiv.swap_apply_of_ne_of_ne hx.1 hx.2
  have hfuel : hf.counters.nRels.toNat < 1000 := by
    rw [hcount']
    decide
  obtain ⟨hf', hreorder, hw', hg⟩ := reorderRelationships_renames hw hfirst hπ hfuel
  exact ⟨hf, hf', hw, hreorder, hw', hg⟩

/-- The nodes of `hf` are in `hf'` at the ids that `π` gives them, and the relationships join them
there. -/
structure NodesReordered (hf hf' : HeapFile PhyDatabase) (π : Renaming) : Prop where
  node : ∀ x nd, hf.graph.node x = some nd → ∃ nd', hf'.graph.node (π x) = some nd' ∧
    nd'.label = nd.label ∧ nd'.firstRelationship = nd.firstRelationship
  rel : ∀ y r, hf.graph.rel y = some r → ∃ r', hf'.graph.rel y = some r' ∧
    r'.sourceNode = π r.sourceNode ∧ r'.targetNode = π r.targetNode

/-- Two positions with slot 255 on one cycle of `π` shall get nodes with one label and without
relationships. -/
def LastSlotsAgree (hf : HeapFile PhyDatabase) (π : Renaming) : Prop :=
  ∀ a b nd nd', a.toNat % 256 = 255 → b.toNat % 256 = 255 → a ≠ b → π.SameCycle a b →
    hf.graph.node (π.symm a) = some nd → hf.graph.node (π.symm b) = some nd' →
    nd.firstRelationship = uninitializedLong ∧ nd.label = nd'.label

/-- A renaming `τ` that falls short of `π` by `ρ`, the latter among the positions with slot 255. -/
structure FallsShort (hf : HeapFile PhyDatabase) (π τ ρ : Renaming) : Prop where
  eq : π = ρ * τ
  moved : ∀ x, ρ x ≠ x → x.toNat % 256 = 255 ∧ (Store.of hf).Live .node x
  cycle : ∀ a b, a.toNat % 256 = 255 → b.toNat % 256 = 255 →
    (ρ.SameCycle a b ↔ π.SameCycle a b)

section FallsShort

variable {τ ρ : Renaming} (h : hf.FallsShort π τ ρ)
include h

/-- The node at `x` is where the one should be that is to get to `ρ (π x)`. -/
theorem FallsShort.symm_apply (x : Ulong) : τ.symm (π x) = π.symm (ρ (π x)) := by
  have : τ (τ.symm (π x)) = τ (π.symm (ρ (π x))) := by
    rw [τ.apply_symm_apply]
    apply ρ.injective
    have hπ : ∀ y, ρ (τ y) = π y := fun y => by rw [h.eq]; rfl
    rw [hπ, π.apply_symm_apply]
  exact τ.injective this

theorem FallsShort.apply_eq_iff (x : Ulong) : τ x = π x ↔ ρ (π x) = π x := by
  have hπ : π x = ρ (τ x) := by rw [h.eq]; rfl
  constructor
  · intro e
    rw [← e, ← hπ, e]
  · intro e
    rw [hπ] at e ⊢
    exact ρ.injective e.symm

variable {hf' : HeapFile PhyDatabase} (hg : hf'.graph = hf.graph.rename τ 1)
include hg

theorem FallsShort.node_eq (x : Ulong) :
    hf'.graph.node (π x) = (hf.graph.node (π.symm (ρ (π x)))).map (Node.rename τ 1) := by
  rw [hg, ← h.symm_apply]
  rfl

omit h in
theorem rel_of_rename (y : Ulong) :
    hf'.graph.rel y = (hf.graph.rel y).map (Relationship.rename τ 1) := by
  rw [hg]
  rfl

theorem FallsShort.lastSlotsAgree (hw : hf.WellFormed) (hπ : hf.Permutes .node newIds π)
    (hR : NodesReordered hf hf' π) : hf.LastSlotsAgree π := by
  intro a b nd nd' ha hb hne hcycle hnd hnd'
  have hcycle' := (h.cycle a b ha hb).mpr hcycle
  constructor
  · by_contra hfirst
    obtain ⟨y, r, hr, hat⟩ := (hw.store.exists_at hnd).mp hfirst
    obtain ⟨r', hr', hsource, htarget⟩ := hR.rel y r hr
    have hr₁ : hf'.graph.rel y = some (r.rename τ 1) := by
      rw [rel_of_rename hg, show hf.graph.rel y = some r from hr]
      rfl
    rw [hr₁] at hr'
    cases hr'
    -- an endpoint that `τ` sends where `π` does is a fixed point of `ρ`, but `a` is none
    have hfix : τ (π.symm a) = π (π.symm a) := by
      rcases hat with e | e
      · rw [← e]
        exact hsource
      · rw [← e]
        exact htarget
    have hρ := (h.apply_eq_iff _).mp hfix
    rw [π.apply_symm_apply] at hρ
    exact hne (hcycle'.eq_of_left hρ)
  · have hlabel : ∀ x, (hf.graph.node (π.symm x)).map Node.label =
        (hf.graph.node (π.symm (ρ x))).map Node.label := by
      intro x
      cases hx : hf.graph.node (π.symm x) with
      | none =>
          have hfix : ρ x = x := by
            by_contra hm
            exact Store.node_eq_none.mp hx (hπ.live_symm_iff.mpr (h.moved x hm).2)
          rw [hfix, hx]
      | some nd =>
          obtain ⟨nd', hn', hl, -⟩ := hR.node _ nd hx
          rw [h.node_eq hg, π.apply_symm_apply] at hn'
          obtain ⟨nd₁, h₁, rfl⟩ := Option.map_eq_some_iff.mp hn'
          rw [h₁]
          exact congrArg some hl.symm
    have := sameCycle_induct (R := fun x y => (hf.graph.node (π.symm x)).map Node.label =
      (hf.graph.node (π.symm y)).map Node.label) ⟨fun _ => rfl, Eq.symm, Eq.trans⟩ hlabel hcycle'
    rw [hnd, hnd'] at this
    exact Option.some.inj this

theorem FallsShort.nodesReordered (hw : hf.WellFormed) (hπ : hf.Permutes .node newIds π)
    (hL : hf.LastSlotsAgree π) : NodesReordered hf hf' π := by
  -- a node that does not get to its place is like the one that gets there
  have hmoved : ∀ x nd, hf.graph.node x = some nd → ρ (π x) ≠ π x →
      nd.firstRelationship = uninitializedLong ∧ ∃ nd',
        hf.graph.node (π.symm (ρ (π x))) = some nd' ∧ nd'.label = nd.label ∧
        nd'.firstRelationship = nd.firstRelationship := by
    intro x nd hx hm
    have hm' : ρ (ρ (π x)) ≠ ρ (π x) := fun e => hm (ρ.injective e)
    obtain ⟨h₁, -⟩ := h.moved _ hm
    obtain ⟨h₂, hl₂⟩ := h.moved _ hm'
    have hcycle : π.SameCycle (π x) (ρ (π x)) :=
      (h.cycle _ _ h₁ h₂).mp (Equiv.Perm.sameCycle_apply_right.mpr (.refl _ _))
    obtain ⟨nd', hn'⟩ := Option.isSome_iff_exists.mp
      (Store.isSome_node.mpr (hπ.live_symm_iff.mpr hl₂))
    have hx' : hf.graph.node (π.symm (π x)) = some nd := by rwa [π.symm_apply_apply]
    obtain ⟨hf₁, hlabel⟩ := hL _ _ nd nd' h₁ h₂ (Ne.symm hm) hcycle hx' hn'
    obtain ⟨hf₂, -⟩ := hL _ _ nd' nd h₂ h₁ hm hcycle.symm hn' hx'
    exact ⟨hf₁, nd', hn', hlabel.symm, hf₂.trans hf₁.symm⟩
  constructor
  · intro x nd hx
    rw [h.node_eq hg]
    by_cases hm : ρ (π x) = π x
    · rw [hm, π.symm_apply_apply, hx]
      exact ⟨_, rfl, rfl, rfl⟩
    · obtain ⟨-, nd', hn', hlabel, hfirst⟩ := hmoved x nd hx hm
      rw [hn']
      exact ⟨_, rfl, hlabel, hfirst⟩
  · intro y r hr
    -- an endpoint has a relationship, so it is in its place
    have hends : ∀ x, r.At x → τ x = π x := by
      intro x hat
      obtain ⟨⟨nd₁, hn₁⟩, nd₂, hn₂⟩ := hw.graph.endpoints y r hr
      obtain ⟨nd, hnd⟩ : ∃ nd, hf.graph.node x = some nd := by
        rcases hat with rfl | rfl
        · exact ⟨nd₁, hn₁⟩
        · exact ⟨nd₂, hn₂⟩
      rw [h.apply_eq_iff]
      by_contra hm
      exact (hw.store.exists_at hnd).mpr ⟨y, r, hr, hat⟩ (hmoved x nd hnd hm).1
    refine ⟨r.rename τ 1, ?_, hends _ (.inl rfl), hends _ (.inr rfl)⟩
    rw [rel_of_rename hg, hr]
    rfl

end FallsShort

/-- `reorder_nodes` returns, with the nodes renamed up to a permutation of the slots 255. -/
theorem run_reorderNodes (hw : hf.WellFormed) (hfirst : hf.FirstSlots .node)
    (hπ : hf.Permutes .node newIds π) (hfuel : hf.counters.nNodes.toNat < fuel)
    (hrels : (hf.cache.records .relationship).numPages * 256 < fuel) :
    ∃ hf' τ ρ, run (HF.reorderNodes 4096 fuel newIds) hf = .ok ((), hf') ∧ hf'.WellFormed ∧
      hf'.graph = hf.graph.rename τ 1 ∧ hf.FallsShort π τ ρ := by
  have hswap : Store.Swaps .node (Store.of hf).pages (HF.swapNodes 4096 fuel) :=
    Store.swaps_nodes hrels
  have hafter : Store.Passes fun _ _ => pure () := fun _ _ _ _ => rfl
  obtain ⟨s', τ, ρ, hrun, hR, hρ, hleft, hcycle⟩ := Store.run_reorderLoop hswap hafter (.inl rfl)
    Counters.nNodes (fun _ _ => rfl) fuel (i := 0) hw.store rfl hπ.tracks
    (fun x hx => (hπ.mem_keys x).mp hx) hfuel
  have hshort : hf.FallsShort π τ ρ := by
    refine ⟨hρ, fun x hx => ?_, fun a b ha hb => ?_⟩
    · obtain ⟨hD, hpos⟩ := hleft x hx
      have hl := (hπ.mem_keys x).mp hD
      refine ⟨?_, hl⟩
      by_contra hslot
      have hlt : x.toNat < hf.counters.nNodes.toNat := by
        have := ((hfirst x).mp hl).2
        rwa [show numSlotsPer .node = 1 from rfl, Nat.mul_one] at this
      refine hpos _ (Nat.zero_le _) ?_ (Store.position_node hslot (live_lt hw hl))
      refine Nat.lt_of_le_of_lt ?_ hlt
      omega
    · exact hcycle a b (Store.ne_position ha) (Store.ne_position hb)
  obtain ⟨hf', hrun', hg, rfl⟩ := run_ok hw.good hrun
  exact ⟨hf', τ, ρ, hrun', ⟨hg, hR.wellFormed⟩, hR.graph, hshort⟩

/-- **`reorder_nodes`** puts every node where it shall be exactly if the positions with slot 255,
which are never visited, agree where they get in each other's way. -/
theorem reorderNodes_iff (hw : hf.WellFormed) (hfirst : hf.FirstSlots .node)
    (hπ : hf.Permutes .node newIds π) (hfuel : hf.counters.nNodes.toNat < fuel)
    (hrels : (hf.cache.records .relationship).numPages * 256 < fuel) :
    ∃ hf', run (HF.reorderNodes 4096 fuel newIds) hf = .ok ((), hf') ∧ hf'.WellFormed ∧
      (NodesReordered hf hf' π ↔ hf.LastSlotsAgree π) := by
  obtain ⟨hf', τ, ρ, hrun, hw', hg, hshort⟩ := run_reorderNodes hw hfirst hπ hfuel hrels
  exact ⟨hf', hrun, hw', hshort.lastSlotsAgree hg hw hπ, hshort.nodesReordered hg hw hπ⟩

/-! ### Heap files of nodes -/

/-- The first `n` ids of nodes. -/
def firstIds (n : ℕ) : List Ulong := (List.range n).map (BitVec.ofNat 64)

theorem mem_firstIds {n : ℕ} (hn : n < 2 ^ 64) {x : Ulong} : x ∈ firstIds n ↔ x.toNat < n := by
  rw [firstIds, List.mem_map]
  constructor
  · rintro ⟨k, hk, rfl⟩
    rw [List.mem_range] at hk
    rwa [BitVec.toNat_ofNat, Nat.mod_eq_of_lt (hk.trans hn)]
  · intro hx
    exact ⟨x.toNat, List.mem_range.mpr hx, BitVec.ofNat_toNat .. |>.trans (BitVec.setWidth_eq x)⟩

/-- Nodes are created on a fresh database, each with its number as its label. -/
theorem exists_nodes {n : ℕ} (hn : n < maxPageNo 4096) : ∃ db hf₀ hf ids,
    PhyDatabase.create 4096 = .ok db ∧
    create 4096 (n * 256 + 1) (PhyDatabase.flat 4096) db = .ok hf₀ ∧
    run (HF.creations 4096 (n * 256 + 1) ((firstIds n).map .node)) hf₀ = .ok (ids, hf) ∧
    hf.WellFormed ∧ hf.FirstSlots .node ∧ hf.counters.nNodes.toNat = n ∧
    (∀ x, x ∈ firstIds n ↔ (Store.of hf).Live .node x) ∧
    (∀ ft, (hf.cache.records ft).numPages ≤ n) ∧
    ∀ k < n, hf.graph.node (BitVec.ofNat 64 k) =
      some { newNode with id := BitVec.ofNat 64 k, label := BitVec.ofNat 64 k } := by
  have hlen : (firstIds n).length = n := by rw [firstIds, List.length_map, List.length_range]
  have hlt : n < 2 ^ 64 := hn.trans (by decide)
  obtain ⟨ids, s, hrun, hd, hp, hc, -, hnode⟩ := Store.run_createNodes (n * 256 + 1)
    (firstIds n) Store.empty_wellFormed (Store.dense_empty .node) (fun _ => Nat.le_refl _)
    (by rwa [hlen, Nat.zero_add]) (by rw [hlen, Nat.zero_add]; exact Nat.le_succ _)
  obtain ⟨db, hf₀, hf, hdb, hcreate, hrun', hw, rfl⟩ := exists_created hrun
  rw [hlen, Nat.zero_add] at hd hp
  have hcount : hf.counters.nNodes.toNat = n := by
    have : hf.counters.nNodes = 0#64 + BitVec.ofNat 64 (firstIds n).length := hc
    rw [this, hlen, BitVec.zero_add, BitVec.toNat_ofNat, Nat.mod_eq_of_lt hlt]
  refine ⟨db, hf₀, hf, ids, hdb, hcreate, hrun', hw, fun x => ?_, hcount, fun x => ?_, hp,
    fun k hk => ?_⟩
  · rw [hd.live, Counters.number, hcount]
  · rw [mem_firstIds hlt, hd.live]
    simp [numSlotsPer, Nat.mod_one]
  · have := hnode k (BitVec.ofNat 64 k) (by simp [firstIds, hk])
    rwa [Nat.zero_add] at this

/-- 512 nodes, each with its number as its label: those at the ids 255 and 511 shall change places,
and do not. -/
theorem reorderNodes_lastSlots : ∃ db hf₀ hf ids hf', PhyDatabase.create 4096 = .ok db ∧
    create 4096 (512 * 256 + 1) (PhyDatabase.flat 4096) db = .ok hf₀ ∧
    run (HF.creations 4096 (512 * 256 + 1) ((firstIds 512).map .node)) hf₀ = .ok (ids, hf) ∧
    hf.WellFormed ∧ hf.FirstSlots .node ∧
    hf.Permutes .node (Dict.of (firstIds 512) (Equiv.swap 255#64 511#64))
      (Equiv.swap 255#64 511#64) ∧
    run (HF.reorderNodes 4096 200000 (Dict.of (firstIds 512) (Equiv.swap 255#64 511#64))) hf =
      .ok ((), hf') ∧
    ¬ NodesReordered hf hf' (Equiv.swap 255#64 511#64) := by
  obtain ⟨db, hf₀, hf, ids, hdb, hcreate, hrun, hw, hfirst, hcount, hlive, hp, hnode⟩ :=
    exists_nodes (n := 512) (by decide)
  have hπ : hf.Permutes .node (Dict.of (firstIds 512) (Equiv.swap 255#64 511#64))
      (Equiv.swap 255#64 511#64) := by
    refine .of hlive fun x hx => Equiv.swap_apply_of_ne_of_ne ?_ ?_
    · rintro rfl
      exact hx ((mem_firstIds (by decide)).mpr (by decide))
    · rintro rfl
      exact hx ((mem_firstIds (by decide)).mpr (by decide))
  have hfuel : hf.counters.nNodes.toNat < 200000 := by
    rw [hcount]
    decide
  have hrels := Nat.mul_le_mul_right 256 (hp .relationship)
  obtain ⟨hf', τ, ρ, hreorder, -, hg, hshort⟩ := run_reorderNodes hw hfirst hπ hfuel
    (Nat.lt_of_le_of_lt hrels (by decide))
  refine ⟨db, hf₀, hf, ids, hf', hdb, hcreate, hrun, hw, hfirst, hπ, hreorder, fun hR => ?_⟩
  have hcycle : (Equiv.swap 255#64 511#64).SameCycle 255#64 511#64 :=
    ⟨1, by rw [zpow_one, Equiv.swap_apply_left]⟩
  obtain ⟨-, hlabel⟩ := hshort.lastSlotsAgree hg hw hπ hR 255#64 511#64 _ _ (by decide)
    (by decide) (by decide) hcycle
    (by rw [Equiv.symm_swap, Equiv.swap_apply_left]; exact hnode 511 (by decide))
    (by rw [Equiv.symm_swap, Equiv.swap_apply_right]; exact hnode 255 (by decide))
  exact absurd hlabel (by decide)

/-- Node 0 to the place of node 1, node 1 to that of node 2, node 2 to that of node 0. -/
def threeCycle : Renaming := Equiv.swap 0#64 1#64 * Equiv.swap 1#64 2#64

/-- Three nodes change places in a cycle, and the relationship from node 0 to node 1 then leads from node
1 to node 2. -/
theorem reorderNodes_iff_cycle : ∃ hf hf', hf.WellFormed ∧
    run (HF.reorderNodes 4096 1000 (Dict.of [0#64, 1#64, 2#64] threeCycle)) hf = .ok ((), hf') ∧
    NodesReordered hf hf' threeCycle ∧
    ∃ r, hf'.graph.rel 0#64 = some r ∧ r.sourceNode = 1#64 ∧ r.targetNode = 2#64 := by
  have h : Prog.check Store.step (HF.creations 4096 1000
      [.node 7#64, .node 8#64, .node 9#64, .relationship 0#64 1#64 0#64 5#64,
        .relationship 1#64 2#64 0#64 6#64]) Store.empty
      (fun _ s => decide (s.counters.nNodes = 3#64 ∧ s.liveIds .node = [0#64, 1#64, 2#64] ∧
        s.pages .relationship = 1 ∧ s.Live .relationship 0#64 ∧
        (s.relAt 0#64).sourceNode = 0#64 ∧ (s.relAt 0#64).targetNode = 1#64)) = true := by
    decide +kernel
  obtain ⟨ids, s, hrun, hp⟩ := Prog.check_inv _ h
  obtain ⟨hcount, hlive, hpages, hrel, hsource, htarget⟩ := of_decide_eq_true hp
  obtain ⟨-, -, hf, -, -, -, hw, rfl⟩ := exists_created hrun
  have hcount' : hf.counters.nNodes = 3#64 := hcount
  have hpages' : (hf.cache.records .relationship).numPages = 1 := hpages
  have hmem : ∀ x, x ∈ [0#64, 1#64, 2#64] ↔ (Store.of hf).Live .node x := by
    intro x
    rw [← hlive, Store.mem_liveIds]
  have hfirst : hf.FirstSlots .node := by
    intro x
    rw [← hmem, Counters.number, hcount']
    simp only [List.mem_cons, List.not_mem_nil, or_false, ← BitVec.toNat_inj]
    show x.toNat = 0 ∨ x.toNat = 1 ∨ x.toNat = 2 ↔ x.toNat % 1 = 0 ∧ x.toNat < 3 * 1
    omega
  have hfix : ∀ x, x ∉ [0#64, 1#64, 2#64] → threeCycle x = x := by
    intro x hx
    simp only [List.mem_cons, List.not_mem_nil, or_false, not_or] at hx
    rw [threeCycle, Equiv.Perm.mul_apply, Equiv.swap_apply_of_ne_of_ne hx.2.1 hx.2.2,
      Equiv.swap_apply_of_ne_of_ne hx.1 hx.2.1]
  have hfuel : hf.counters.nNodes.toNat < 1000 := by
    rw [hcount']
    decide
  obtain ⟨hf', hreorder, -, hiff⟩ := reorderNodes_iff hw hfirst (.of hmem hfix) hfuel
    (by rw [hpages']; decide)
  -- none of the three is in a slot 255, so every slot 255 is a cycle of its own
  have hR := hiff.mpr fun a b nd nd' ha hb hne hcycle =>
    absurd (hcycle.eq_of_left (hfix a fun hm => by
      simp only [List.mem_cons, List.not_mem_nil, or_false] at hm
      rcases hm with rfl | rfl | rfl <;> exact absurd ha (by decide))) hne
  obtain ⟨r, hr, hs, ht⟩ := hR.rel 0#64 _ (Store.rel_eq_some.mpr ⟨hrel, rfl⟩)
  refine ⟨hf, hf', hw, hreorder, hR, r, hr, ?_, ?_⟩
  · rw [hs, hsource]
    decide
  · rw [ht, htarget]
    decide

end HeapFile

end Goedb
