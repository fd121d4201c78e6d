import Goedb.Lib.Shuffle
import Goedb.Order.RandomOrder
import Mathlib.Data.List.NodupEquivFin
import Mathlib.Data.Set.Card

/-!
# Order — how often a random order comes up

`random_node_order` and `random_relationship_order` draw a place among all places in every turn, not only
among those that are left.  If `rand` draws every place equally often, every order of the records can come
up, but from three records on some orders come up more often than others
(`HeapFile.randomOrders_frequency`).
-/

namespace Goedb

open Lib Equiv

/-- `random_node_order`, `random_relationship_order`. -/
def HF.randomOrder (ft : FileType) (P fuel : ℕ) (rand : ℕ → ℕ) : HF Dict :=
  match ft with
  | .node => randomNodeOrder P fuel rand
  | .relationship => randomRelationshipOrder P fuel rand

/-- What `rand` returns, for the places that are drawn. -/
def randOf {n : ℕ} (r : Fin n → Fin n) (i : ℕ) : ℕ := if h : i < n then r ⟨i, h⟩ else 0

theorem randOf_mod {n : ℕ} (r : Fin n → Fin n) (i : Fin n) : randOf r i % n = r i := by
  rw [randOf, dif_pos i.isLt]
  exact Nat.mod_eq_of_lt (r i).isLt

/-! ### Orders of places and orders of ids -/

variable {ids : List Ulong} (hd : ids.Nodup)

/-- The renaming of the ids that a permutation of their places makes. -/
def atPlaces (σ : Perm (Fin ids.length)) : Renaming := σ.extendDomain (List.Nodup.getEquiv ids hd)

theorem atPlaces_mul (σ τ : Perm (Fin ids.length)) :
    atPlaces hd (σ * τ) = atPlaces hd σ * atPlaces hd τ :=
  (Perm.extendDomain_mul _ σ τ).symm

theorem atPlaces_getElem (σ : Perm (Fin ids.length)) (i : Fin ids.length) :
    atPlaces hd σ ids[i] = ids[σ i] :=
  Perm.extendDomain_apply_image σ (List.Nodup.getEquiv ids hd) i

theorem atPlaces_of_notMem (σ : Perm (Fin ids.length)) {x : Ulong} (hx : x ∉ ids) :
    atPlaces hd σ x = x :=
  Perm.extendDomain_apply_not_subtype σ _ hx

theorem atPlaces_injective : Function.Injective (atPlaces hd) :=
  Perm.extendDomainHom_injective (List.Nodup.getEquiv ids hd)

/-- The exchange of two places. -/
theorem atPlaces_swap (i j : Fin ids.length) : atPlaces hd (swap i j) = swap ids[i] ids[j] := by
  ext1 x
  by_cases hx : x ∈ ids
  · obtain ⟨k, rfl⟩ := List.get_of_mem hx
    rw [List.get_eq_getElem]
    exact (atPlaces_getElem hd _ k).trans
      ((List.nodup_iff_injective_get.mp hd).map_swap i j k)
  · rw [atPlaces_of_notMem hd _ hx, swap_apply_of_ne_of_ne]
    · rintro rfl
      exact hx (List.getElem_mem _)
    · rintro rfl
      exact hx (List.getElem_mem _)

/-- Every renaming that only moves the ids is made so. -/
theorem exists_atPlaces {π : Renaming} (h : ∀ x, x ∉ ids → π x = x) : ∃ σ, atPlaces hd σ = π := by
  have hmem : ∀ x, π x ∈ ids ↔ x ∈ ids := by
    intro x
    constructor
    · intro hx
      by_contra hne
      exact hne (h x hne ▸ hx)
    · intro hx
      by_contra hne
      exact hne ((π.injective (h _ hne)).symm ▸ hx)
  refine ⟨(List.Nodup.getEquiv ids hd).symm.permCongr (π.subtypePerm hmem), ?_⟩
  ext1 x
  by_cases hx : x ∈ ids
  · rw [atPlaces, Perm.extendDomain_apply_subtype _ _ hx]
    simp
  · rw [atPlaces_of_notMem hd _ hx, h x hx]

/-! ### The order that is made of the draws -/

/-- **The exchanges of the values** are those of the places drawn, from place `i` on. -/
theorem Rearranges.exchangeValues_draws {n : Ulong} (hn : n.toNat = ids.length) {rand : ℕ → ℕ}
    {r : Fin ids.length → Fin ids.length} (hr : ∀ i : Fin ids.length, rand i % ids.length = r i)
    (m : ℕ) : ∀ {fuel i : ℕ} {order : Dict} {π : Renaming}, Rearranges ids order π →
    i + m = ids.length → m < fuel →
    ∃ order', Goedb.exchangeValues ids n rand fuel i order = .ok order' ∧
      Rearranges ids order' (π * atPlaces hd (exchanges r ((List.finRange ids.length).drop i))) := by
  induction m with
  | zero =>
      intro fuel i order π h hi hf
      obtain ⟨fuel, rfl⟩ := Nat.exists_eq_succ_of_ne_zero (Nat.ne_of_gt hf)
      have hdrop : (List.finRange ids.length).drop i = [] :=
        List.drop_eq_nil_of_le (by rw [List.length_finRange]; omega)
      refine ⟨order, ?_, ?_⟩
      · rw [Goedb.exchangeValues, h.size hd, if_neg (by omega)]
      · rwa [hdrop, exchanges_nil, atPlaces, Perm.extendDomain_one, mul_one]
  | succ m ih =>
      intro fuel i order π h hi hf
      obtain ⟨fuel, rfl⟩ := Nat.exists_eq_succ_of_ne_zero (Nat.ne_of_gt (Nat.zero_lt_of_lt hf))
      have hlt : i < ids.length := by omega
      have hn0 : n ≠ 0 := by
        rintro rfl
        have hzero : 0 = ids.length := hn
        omega
      have hri : rand i % n.toNat = r ⟨i, hlt⟩ := by rw [hn]; exact hr ⟨i, hlt⟩
      have hcur := h.lookup ids[i]
      have hrand := h.lookup ids[(r ⟨i, hlt⟩).val]
      have hmem : ids[(r ⟨i, hlt⟩).val] ∈ ids := List.getElem_mem _
      rw [if_pos (List.getElem_mem _)] at hcur
      rw [if_pos hmem] at hrand
      have hdrop : (List.finRange ids.length).drop i =
          ⟨i, hlt⟩ :: (List.finRange ids.length).drop (i + 1) := by
        rw [List.drop_eq_getElem_cons (by rwa [List.length_finRange]), List.getElem_finRange]
        rfl
      -- exchanging two values is exchanging the places first
      have hstep : (swap ids[i] ids[(r ⟨i, hlt⟩).val]).trans π =
          π * atPlaces hd (swap ⟨i, hlt⟩ (r ⟨i, hlt⟩)) :=
        congrArg (π * ·) (atPlaces_swap hd ⟨i, hlt⟩ (r ⟨i, hlt⟩)).symm
      obtain ⟨order', hok, h'⟩ := ih (h.exchange (List.getElem_mem hlt) hmem)
        (show i + 1 + m = _ by omega) (Nat.lt_of_succ_lt_succ hf)
      refine ⟨order', ?_, ?_⟩
      · rw [Goedb.exchangeValues, h.size hd, if_pos hlt, if_neg hn0, hri,
          List.getElem?_eq_getElem (r ⟨i, hlt⟩).isLt, List.getElem?_eq_getElem hlt]
        simp only [Dict.getDirect_ok hcur, Dict.getDirect_ok hrand]
        exact hok
      · rw [hstep] at h'
        rwa [hdrop, exchanges_cons, atPlaces_mul, ← mul_assoc]

namespace Store

variable {s : Store} {ft : FileType} {fuel : ℕ} {rand : ℕ → ℕ} {order : Dict}

theorem run_randomOrder_of (hc : s.Counted) (hfuel : maxPageNo 4096 * 256 ≤ fuel)
    (hok : exchangeValues (s.liveIds ft) (s.counters.number ft) rand fuel 0
      (identityOrder (s.liveIds ft)) = .ok order) :
    run (HF.randomOrder ft 4096 fuel rand) s = .ok (order, s) := by
  have hpages := hc.valid.pages_lt ft
  have hget : run (Prog.perform .getCounters) s = .ok (s.counters, s) := rfl
  cases ft with
  | node =>
      have hnodes := run_getNodes hc.valid (show s.pages .node * 256 < fuel by omega)
      have hidentity : run (HF.identityNodeOrder 4096 fuel) s =
          .ok (identityOrder (s.liveIds .node), s) := by
        rw [run, HF.identityNodeOrder, Prog.run_bind_ok _ hnodes, map_id_nodeAt]
        rfl
      rw [run, HF.randomOrder, HF.randomNodeOrder, Prog.run_bind_ok _ hidentity,
        Prog.run_bind_ok _ hnodes, Prog.run_bind_ok _ hget, map_id_nodeAt]
      exact run_lift hok s
  | relationship =>
      have hrels := run_getRelationships hc.valid (show s.pages .relationship * 256 < fuel by omega)
      have hidentity : run (HF.identityRelationshipOrder 4096 fuel) s =
          .ok (identityOrder (s.liveIds .relationship), s) := by
        rw [run, HF.identityRelationshipOrder, Prog.run_bind_ok _ hrels, map_id_relAt]
        rfl
      rw [run, HF.randomOrder, HF.randomRelationshipOrder, Prog.run_bind_ok _ hidentity,
        Prog.run_bind_ok _ hrels, Prog.run_bind_ok _ hget, map_id_relAt]
      exact run_lift hok s

/-- The random order for the places drawn. -/
theorem run_randomOrder (hc : s.Counted) (hfuel : maxPageNo 4096 * 256 ≤ fuel)
    (r : Fin (s.liveIds ft).length → Fin (s.liveIds ft).length) :
    ∃ order, run (HF.randomOrder ft 4096 fuel (randOf r)) s = .ok (order, s) ∧
      Rearranges (s.liveIds ft) order (atPlaces (nodup_liveIds hc.valid) (shuffle r)) := by
  have hpages := hc.valid.pages_lt ft
  have hlen := s.length_liveIds_le ft
  obtain ⟨order, hok, h⟩ := Rearranges.exchangeValues_draws (nodup_liveIds hc.valid)
    (hc.toNat_number ft) (randOf_mod r) _ (rearranges_identityOrder _) (Nat.zero_add _)
    (show (s.liveIds ft).length < fuel by omega)
  rw [List.drop_zero, ← Perm.one_def, one_mul] at h
  exact ⟨order, run_randomOrder_of hc hfuel hok, h⟩

end Store

/-! ### Frequencies -/

namespace HeapFile

variable {hf : HeapFile PhyDatabase} {ft : FileType} {fuel : ℕ}

/-- The draws of `n` places out of `n` for which the random order is `π`. -/
def drawsFor (hf : HeapFile PhyDatabase) (fuel : ℕ) (ft : FileType) (n : ℕ) (π : Renaming) :
    Set (Fin n → Fin n) :=
  {r | ∃ order hf', run (HF.randomOrder ft 4096 fuel (randOf r)) hf = .ok (order, hf') ∧
    hf.Permutes ft order π}

/-- A dictionary is the permutation of one renaming. -/
theorem Permutes.eq {order : Dict} {π ρ : Renaming} (h : hf.Permutes ft order π)
    (h' : hf.Permutes ft order ρ) : π = ρ := by
  ext1 x
  by_cases hx : (Store.of hf).Live ft x
  · have he := (h.lookup x).symm.trans (h'.lookup x)
    rw [if_pos hx, if_pos hx] at he
    exact Option.some.inj he
  · rw [h.fixed x hx, h'.fixed x hx]

/-- **How often the random orders come up**, if `rand` draws every place equally often: every order of the
records for some draws, and all of them equally often only up to two records. -/
theorem randomOrders_frequency (hg : hf.Good) (hc : (Store.of hf).Counted)
    (hpos : 0 < (hf.counters.number ft).toNat) (hfuel : maxPageNo 4096 * 256 ≤ fuel) :
    (∀ π : Renaming, (∀ x, ¬ (Store.of hf).Live ft x → π x = x) →
      (hf.drawsFor fuel ft (hf.counters.number ft).toNat π).Nonempty) ∧
    ((∀ π ρ : Renaming, (∀ x, ¬ (Store.of hf).Live ft x → π x = x) →
      (∀ x, ¬ (Store.of hf).Live ft x → ρ x = x) →
      (hf.drawsFor fuel ft (hf.counters.number ft).toNat π).ncard =
        (hf.drawsFor fuel ft (hf.counters.number ft).toNat ρ).ncard) ↔
      (hf.counters.number ft).toNat ≤ 2) := by
  have hnum : (hf.counters.number ft).toNat = ((Store.of hf).liveIds ft).length := hc.toNat_number ft
  rw [hnum] at hpos ⊢
  have hd : ((Store.of hf).liveIds ft).Nodup := Store.nodup_liveIds hc.valid
  have hfix : ∀ {π : Renaming}, (∀ x, ¬ (Store.of hf).Live ft x → π x = x) →
      ∃ σ, atPlaces hd σ = π := fun h =>
    exists_atPlaces hd fun x hx => h x fun hl => hx (Store.mem_liveIds.mpr hl)
  -- the draws for an order are those that the shuffle takes to its permutation
  have hdraws : ∀ σ, hf.drawsFor fuel ft _ (atPlaces hd σ) = {r | shuffle r = σ} := by
    intro σ
    ext r
    obtain ⟨order, hrun, h⟩ := Store.run_randomOrder hc hfuel r
    obtain ⟨hf', hrun', -, -⟩ := run_ok hg hrun
    have hp : hf.Permutes ft order (atPlaces hd (shuffle r)) :=
      ⟨fun x => by simp only [h.lookup, Store.mem_liveIds],
        fun x hx => h.fixed x fun hmem => hx (Store.mem_liveIds.mp hmem)⟩
    constructor
    · rintro ⟨order', hf'', hrun'', hp'⟩
      cases hrun'.symm.trans hrun''
      exact atPlaces_injective hd (hp.eq hp')
    · rintro rfl
      exact ⟨order, hf', hrun', hp⟩
  have hcard : ∀ σ : Perm (Fin ((Store.of hf).liveIds ft).length),
      ({r | shuffle r = σ} : Set _).ncard = (Finset.univ.filter fun r => shuffle r = σ).card := by
    intro σ
    rw [← Set.ncard_coe_finset, Finset.coe_filter_univ]
  refine ⟨fun π hπ => ?_, ?_⟩
  · obtain ⟨σ, rfl⟩ := hfix hπ
    obtain ⟨r, hr⟩ := exists_shuffle_eq σ
    exact ⟨r, by rw [hdraws]; exact hr⟩
  · rw [← shuffle_uniform_iff hpos]
    constructor
    · intro h σ τ
      have hst := h (atPlaces hd σ) (atPlaces hd τ)
        (fun x hx => atPlaces_of_notMem hd σ fun hmem => hx (Store.mem_liveIds.mp hmem))
        fun x hx => atPlaces_of_notMem hd τ fun hmem => hx (Store.mem_liveIds.mp hmem)
      rwa [hdraws, hdraws, hcard, hcard] at hst
    · intro h π ρ hπ hρ
      obtain ⟨σ, rfl⟩ := hfix hπ
      obtain ⟨τ, rfl⟩ := hfix hρ
      rw [hdraws, hdraws, hcard, hcard]
      exact h σ τ

/-- Of three nodes some orders come up more often than others. -/
theorem randomOrders_frequency_three : ∃ hf : HeapFile PhyDatabase,
    (hf.counters.number .node).toNat = 3 ∧
    (∀ π : Renaming, (∀ x, ¬ (Store.of hf).Live .node x → π x = x) →
      (hf.drawsFor (maxPageNo 4096 * 256) .node (hf.counters.number .node).toNat π).Nonempty) ∧
    ∃ π ρ : Renaming, (∀ x, ¬ (Store.of hf).Live .node x → π x = x) ∧
      (∀ x, ¬ (Store.of hf).Live .node x → ρ x = x) ∧
      (hf.drawsFor (maxPageNo 4096 * 256) .node (hf.counters.number .node).toNat π).ncard ≠
        (hf.drawsFor (maxPageNo 4096 * 256) .node (hf.counters.number .node).toNat ρ).ncard := by
  have h : Prog.check Store.step (HF.creations 4096 1000 [.node 7#64, .node 8#64, .node 9#64])
      Store.empty (fun _ s => decide (s.counters.nNodes = 3#64)) = true := by
    decide +kernel
  obtain ⟨ids, s, hrun, hp⟩ := Prog.check_inv _ h
  have hnNodes := of_decide_eq_true hp
  have hc := Store.counted_of_creations hrun
  obtain ⟨-, -, hf, -, -, -, hw, rfl⟩ := exists_created hrun
  have hn : hf.counters.nNodes = 3#64 := hnNodes
  have hnum : (hf.counters.number .node).toNat = 3 := by
    rw [Counters.number, hn]
    rfl
  have hpos : 0 < (hf.counters.number .node).toNat := by
    rw [hnum]
    decide
  obtain ⟨hall, hiff⟩ := randomOrders_frequency hw.good hc hpos le_rfl
  refine ⟨hf, hnum, hall, ?_⟩
  by_contra hnot
  have hle := hiff.mp fun π ρ hπ hρ => of_not_not fun hne => hnot ⟨π, ρ, hπ, hρ, hne⟩
  rw [hnum] at hle
  exact absurd hle (by decide)

end HeapFile

end Goedb
