import Goedb.Order.Reorder

/-!
# Order — what a reordering that returns has done

`Reorder` says what the loop of `reorder_nodes` and `reorder_relationships` does for a dictionary that
permutes the ids of the records.  Here the dictionary may be any one whose keys are ids of records, and
the loop is known to return: then every exchange was between two records that exist
(`Store.reorderLoop_inv`).

A position that is visited, that a record shall go to and that has no record ends the run: the look-up
of the record that should make room fails.
-/

namespace Goedb

open Lib

/-! ### The dictionaries -/

/-- Every entry of the inverse is an entry of the dictionary. -/
def Inverts (newIds inverse : Dict) : Prop :=
  ∀ x t, inverse.lookup t = some x → newIds.lookup x = some t

theorem inverts_foldl {newIds : Dict} {es : List (Sigma fun _ : Ulong => Ulong)} :
    ∀ {acc : Dict}, (∀ e ∈ es, newIds.lookup e.1 = some e.2) → Inverts newIds acc →
      Inverts newIds (es.foldl (fun inv e => inv.insert e.2 e.1) acc) := by
  induction es with
  | nil =>
      intro acc _ h
      exact h
  | cons e es ih =>
      intro acc hes h
      refine ih (fun e' he' => hes e' (List.mem_cons_of_mem e he')) fun x t ht => ?_
      by_cases heq : t = e.2
      · subst heq
        rw [AList.lookup_insert] at ht
        cases ht
        exact hes e List.mem_cons_self
      · rw [AList.lookup_insert_ne heq] at ht
        exact h x t ht

theorem inverts_inverse (newIds : Dict) : Inverts newIds newIds.inverse :=
  inverts_foldl (fun _ he => AList.mem_lookup_iff.mpr he) fun x t ht => by
    rw [AList.lookup_empty] at ht
    cases ht

theorem Dict.remove_inv {d d' : Dict} {k : Ulong} (h : d.remove k = .ok d') :
    k ∈ d ∧ d' = d.erase k := by
  rw [Dict.remove] at h
  split at h
  · rename_i hk
    cases h
    exact ⟨hk, rfl⟩
  · cases h

theorem Dict.getDirect_inv {d : Dict} {k v : Ulong} (h : d.getDirect k = .ok v) :
    d.lookup k = some v := by
  rw [Dict.getDirect] at h
  cases hl : d.lookup k with
  | none =>
      rw [hl] at h
      cases h
  | some v' =>
      rw [hl] at h
      cases h
      rfl

namespace Store

variable {s s' : Store} {ft : FileType} {swap : Ulong → Ulong → HF Unit}
  {after : Dict → Dict → HF Unit} {pages : FileType → ℕ} {newIds inverse : Dict}

/-- A record is left where it is, when it is exchanged with itself. -/
def Stays (swap : Ulong → Ulong → HF Unit) : Prop :=
  ∀ s s' x, s.WellFormed → run (swap x x) s = .ok ((), s') → s' = s

theorem stays_swapNodes (fuel : ℕ) : Stays (HF.swapNodes 4096 fuel) := by
  intro s s' x hw h
  obtain ⟨numPages, s₁, h₁, h⟩ := Prog.run_bind_inv _ h
  cases h₁
  split at h
  · cases h
  · obtain ⟨fstExists, s₂, h₂, hk₂⟩ := Prog.run_bind_inv _ h
    obtain ⟨-, rfl⟩ := checkRecordExists_inv hw.valid h₂
    obtain ⟨sndExists, s₃, h₃, hk₃⟩ := Prog.run_bind_inv _ hk₂
    obtain ⟨-, rfl⟩ := checkRecordExists_inv hw.valid h₃
    rw [if_pos (.inl rfl)] at hk₃
    cases hk₃
    rfl

theorem stays_swapRelationships : Stays (HF.swapRelationships 4096) := by
  intro s s' x hw h
  obtain ⟨numPages, s₁, h₁, h⟩ := Prog.run_bind_inv _ h
  cases h₁
  split at h
  · cases h
  · obtain ⟨fstExists, s₂, h₂, hk₂⟩ := Prog.run_bind_inv _ h
    obtain ⟨-, rfl⟩ := checkRecordExists_inv hw.valid h₂
    obtain ⟨sndExists, s₃, h₃, hk₃⟩ := Prog.run_bind_inv _ hk₂
    obtain ⟨-, rfl⟩ := checkRecordExists_inv hw.valid h₃
    rw [if_pos (.inl rfl)] at hk₃
    cases hk₃
    rfl

/-- What is done after the dictionaries were corrected changes nothing, if it returns. -/
def Inert (after : Dict → Dict → HF Unit) : Prop :=
  ∀ newIds inverse s s', run (after newIds inverse) s = .ok ((), s') → s' = s

/-- The dictionaries after a visit of `newId`. -/
structure Settled (newIds inverse : Dict) (oldId newId : Ulong) (newIds' inverse' : Dict) : Prop where
  inverts : Inverts newIds' inverse'
  known : oldId = newId ∨ newId ∈ newIds
  keys : ∀ x, x ∈ newIds' → x ∈ newIds
  targets : ∀ t, t ∈ inverse → t ≠ newId → t ∈ inverse'

/-- **The dictionaries are corrected**, if the record that makes room is known. -/
theorem settle_inv (hafter : Inert after) (hinv : Inverts newIds inverse) {oldId newId : Ulong}
    (hold : inverse.lookup newId = some oldId) {newIds' inverse' : Dict}
    (h : run (HF.settle after oldId newId newIds inverse) s = .ok ((newIds', inverse'), s')) :
    s' = s ∧ Settled newIds inverse oldId newId newIds' inverse' := by
  have hnew := hinv oldId newId hold
  obtain ⟨d₁, s₁, h₁, h⟩ := Prog.run_bind_inv _ h
  obtain ⟨hd₁, rfl⟩ := run_lift_inv h₁
  obtain ⟨-, rfl⟩ := Dict.remove_inv hd₁
  obtain ⟨e₁, s₂, h₂, h⟩ := Prog.run_bind_inv _ h
  obtain ⟨hd₂, rfl⟩ := run_lift_inv h₂
  obtain ⟨-, rfl⟩ := Dict.remove_inv hd₂
  -- the record that was displaced takes the entry of the one that is settled
  split at h
  · rename_i heq
    subst heq
    cases h
    refine ⟨rfl, fun x t ht => ?_, .inl rfl, fun x hx => ?_, fun t ht hne => ?_⟩
    · have hne : t ≠ oldId := by
        rintro rfl
        rw [AList.lookup_erase] at ht
        cases ht
      rw [AList.lookup_erase_ne hne] at ht
      have hx := hinv x t ht
      rw [AList.lookup_erase_ne]
      · exact hx
      · rintro rfl
        rw [hnew] at hx
        exact hne (Option.some.inj hx).symm
    · exact (AList.mem_erase.mp hx).2
    · exact AList.mem_erase.mpr ⟨hne, ht⟩
  · rename_i hne
    obtain ⟨tempNew, s₃, h₃, hk₃⟩ := Prog.run_bind_inv _ h
    obtain ⟨hd₃, rfl⟩ := run_lift_inv h₃
    have htemp := Dict.getDirect_inv hd₃
    rw [AList.lookup_erase_ne (Ne.symm hne)] at htemp
    obtain ⟨d₂, s₄, h₄, hk₄⟩ := Prog.run_bind_inv _ hk₃
    obtain ⟨hd₄, rfl⟩ := run_lift_inv h₄
    obtain ⟨-, rfl⟩ := Dict.remove_inv hd₄
    obtain ⟨e₂, s₅, h₅, hk₅⟩ := Prog.run_bind_inv _ hk₄
    obtain ⟨hd₅, rfl⟩ := run_lift_inv h₅
    obtain ⟨-, rfl⟩ := Dict.remove_inv hd₅
    obtain ⟨u, s₆, h₆, hk₆⟩ := Prog.run_bind_inv _ hk₅
    obtain rfl := hafter _ _ _ _ h₆
    cases hk₆
    have hmem : ∀ {d : Dict} {k v : Ulong}, d.lookup k = some v → k ∈ d := fun hl =>
      AList.lookup_isSome.mp (Option.isSome_of_eq_some hl)
    refine ⟨rfl, fun x t ht => ?_, .inr (hmem htemp), fun x hx => ?_, fun t ht hne' => ?_⟩
    · by_cases htt : t = tempNew
      · subst htt
        rw [AList.lookup_insert] at ht
        cases ht
        exact AList.lookup_insert _
      · rw [AList.lookup_insert_ne htt, AList.lookup_erase_ne htt] at ht
        have htn : t ≠ newId := by
          rintro rfl
          rw [AList.lookup_erase] at ht
          cases ht
        rw [AList.lookup_erase_ne htn] at ht
        have hx := hinv x t ht
        have hxo : x ≠ oldId := by
          rintro rfl
          rw [hnew] at hx
          exact htn (Option.some.inj hx).symm
        have hxn : x ≠ newId := by
          rintro rfl
          rw [htemp] at hx
          exact htt (Option.some.inj hx).symm
        rw [AList.lookup_insert_ne hxo, AList.lookup_erase_ne hxn, AList.lookup_erase_ne hxo]
        exact hx
    · rcases AList.mem_insert _ |>.mp hx with rfl | hx
      · exact hmem hnew
      · exact (AList.mem_erase.mp (AList.mem_erase.mp hx).2).2
    · rw [AList.mem_insert]
      by_cases htt : t = tempNew
      · exact .inl htt
      · exact .inr (AList.mem_erase.mpr ⟨htt, AList.mem_erase.mpr ⟨hne', ht⟩⟩)

/-! ### The loop -/

/-- Two records that exist change places, and the same ids exist. -/
theorem Renamed.live_swap {fst snd : Ulong} (h : s.Renamed ft (Equiv.swap fst snd) s')
    (h₁ : s.Live ft fst) (h₂ : s.Live ft snd) (x : Ulong) : s'.Live ft x ↔ s.Live ft x := by
  rw [h.live, if_pos rfl, Equiv.symm_swap, Equiv.swap_apply_def]
  split
  · rename_i e
    subst e
    exact iff_of_true h₂ h₁
  · split
    · rename_i e
      subst e
      exact iff_of_true h₁ h₂
    · exact Iff.rfl

/-- **One visit** that returns. -/
theorem place_inv (hswap : Swaps ft pages swap) (hself : Stays swap)
    (hafter : Inert after) (hw : s.WellFormed) (hpages : s.pages = pages) (hinv : Inverts newIds inverse)
    (hD : ∀ x ∈ newIds, s.Live ft x)
    {p : Ulong} {newIds' inverse' : Dict}
    (h : run (HF.place swap after p newIds inverse) s = .ok ((newIds', inverse'), s')) :
    (∃ τ, s.Renamed ft τ s') ∧ (∀ x, s'.Live ft x ↔ s.Live ft x) ∧ Inverts newIds' inverse' ∧
      (∀ x ∈ newIds', x ∈ newIds) ∧ (∀ t, t ∈ inverse → t ≠ p → t ∈ inverse') ∧
      (p ∈ inverse → s.Live ft p) := by
  rw [run, HF.place] at h
  cases hl : inverse.lookup p with
  | none =>
      rw [hl] at h
      cases h
      refine ⟨⟨1, .refl hw⟩, fun _ => Iff.rfl, hinv, fun _ hx => hx, fun _ ht _ => ht, fun hp => ?_⟩
      rw [← AList.lookup_isSome, hl] at hp
      cases hp
  | some oldId =>
      rw [hl] at h
      obtain ⟨u, s₁, hs, h⟩ := Prog.run_bind_inv _ h
      obtain ⟨rfl, hS⟩ := settle_inv hafter hinv hl h
      have hold : s.Live ft oldId := hD oldId
        (AList.lookup_isSome.mp (Option.isSome_of_eq_some (hinv oldId p hl)))
      rcases hS.known with rfl | hp
      · obtain rfl := hself s s' oldId hw hs
        exact ⟨⟨1, .refl hw⟩, fun _ => Iff.rfl, hS.inverts, hS.keys, hS.targets, fun _ => hold⟩
      · have hlive := hD p hp
        obtain ⟨s₂, hrun, hR⟩ := hswap s oldId p hw hpages hold hlive
        rw [run, hs] at hrun
        cases hrun
        exact ⟨⟨_, hR⟩, hR.live_swap hold hlive, hS.inverts, hS.keys, hS.targets, fun _ => hlive⟩

/-- **A loop that returns** renames the records, and where a record shall go there is one. -/
theorem reorderLoop_inv (hswap : Swaps ft pages swap)
    (hself : Stays swap) (hafter : Inert after)
    {n : ℕ} (hn : n = 1 ∨ n = 4) {count : Counters → Ulong}
    (hcount : ∀ c log, count { c with log := log } = count c) (fuel : ℕ) :
    ∀ {i : ℕ} {s s' : Store} {newIds inverse : Dict}, s.WellFormed → s.pages = pages →
      Inverts newIds inverse → (∀ x ∈ newIds, s.Live ft x) →
      run (HF.reorderLoop swap after n count fuel i (i / perPage n) (n * (i % perPage n)) newIds
        inverse) s = .ok ((), s') →
      (∃ τ, s.Renamed ft τ s') ∧ (∀ x, s'.Live ft x ↔ s.Live ft x) ∧
        ((∀ j k, position n j = position n k → j < (count s.counters).toNat →
            k < (count s.counters).toNat → j = k) →
          ∀ j, i ≤ j → j < (count s.counters).toNat → position n j ∈ inverse →
            s.Live ft (position n j)) := by
  induction fuel with
  | zero =>
      intro i s s' newIds inverse _ _ _ _ h
      cases h
  | succ fuel ih =>
      intro i s s' newIds inverse hw hp hinv hD h
      obtain ⟨c, s₁, hc, h⟩ := Prog.run_bind_inv _ h
      cases hc
      split at h
      · rename_i hi
        obtain ⟨⟨newIds₁, inverse₁⟩, s₁, hplace, h⟩ := Prog.run_bind_inv _ h
        obtain ⟨⟨τ, hR⟩, hlive, hinv₁, hkeys, htargets, hpos⟩ :=
          place_inv hswap hself hafter hw hp hinv hD hplace
        have hcount₁ : count s₁.counters = count s.counters := by rw [hR.counters, hcount]
        have hD₁ : ∀ x ∈ newIds₁, s₁.Live ft x := fun x hx => (hlive x).mpr (hD x (hkeys x hx))
        simp only at h
        split at h
        · rename_i hsize
          cases h
          refine ⟨⟨τ, hR⟩, hlive, fun hinj j hij hj hmem => ?_⟩
          by_cases hji : j = i
          · subst hji
            exact hpos hmem
          · -- a position that is still to be visited has an entry in the dictionary
            have hne : position n j ≠ position n i := fun e => hji (hinj j i e hj hi)
            obtain ⟨x, hx⟩ := Option.isSome_iff_exists.mp
              (AList.lookup_isSome.mpr (htargets _ hmem hne))
            have hentry := AList.mem_lookup_iff.mp (hinv₁ x _ hx)
            rw [Dict.size, List.length_eq_zero_iff] at hsize
            rw [hsize] at hentry
            cases hentry
        · simp only [nextPosition_eq hn] at h
          obtain ⟨⟨τ₁, hR₁⟩, hlive₁, hrest⟩ := ih (i := i + 1) hR.wellFormed (hR.pages.trans hp) hinv₁
            hD₁ h
          rw [hcount₁] at hrest
          refine ⟨⟨_, hR.trans hR₁⟩, fun x => (hlive₁ x).trans (hlive x), fun hinj j hij hj hmem => ?_⟩
          by_cases hji : j = i
          · subst hji
            exact hpos hmem
          · have hne : position n j ≠ position n i := fun e => hji (hinj j i e hj hi)
            exact (hlive _).mp (hrest hinj j (by omega) hj (htargets _ hmem hne))
      · rename_i hi
        cases h
        exact ⟨⟨1, .refl hw⟩, fun _ => Iff.rfl, fun _ j hij hj _ => absurd (Nat.lt_of_le_of_lt hij hj) hi⟩

end Store

end Goedb
