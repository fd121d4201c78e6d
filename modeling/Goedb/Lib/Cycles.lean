import Mathlib.Data.List.NodupEquivFin
import Mathlib.GroupTheory.Perm.Cycle.Basic

/-!
# Lib — a point taken out of its cycle

A permutation that is carried out by exchanges, one point after the other, loses with each exchange
the point that has got what it should have: `bypass ρ p` is `ρ` with `p` fixed and its predecessor
sent to its successor.  The cycles are kept, apart from `p` (`sameCycle_bypass_iff`).

A list without repetitions is rearranged by a permutation of its points (`exists_map_eq`).
-/

namespace Lib

open Equiv.Perm

variable {α : Type*} {ρ : Equiv.Perm α} {a b p x : α}

/-- What relates every point to its image relates the points of a cycle. -/
theorem sameCycle_induct {R : α → α → Prop} (hR : Equivalence R) (h : ∀ x, R x (ρ x))
    (hab : ρ.SameCycle a b) : R a b := by
  obtain ⟨i, rfl⟩ := hab
  induction i with
  | zero => exact hR.refl a
  | succ i ih =>
      rw [add_comm, zpow_one_add, mul_apply]
      exact hR.trans ih (h _)
  | pred i ih =>
      rw [sub_eq_add_neg, add_comm, zpow_add, mul_apply, zpow_neg_one]
      have hstep := h (ρ.symm ((ρ ^ (-(i : ℤ))) a))
      rw [Equiv.apply_symm_apply] at hstep
      exact hR.trans ih (hR.symm hstep)

variable [DecidableEq α]

/-- The permutation with `p` taken out of its cycle. -/
def bypass (ρ : Equiv.Perm α) (p : α) : Equiv.Perm α := ρ * Equiv.swap (ρ.symm p) p

@[simp] theorem bypass_self : bypass ρ p p = p := by
  rw [bypass, mul_apply, Equiv.swap_apply_right, Equiv.apply_symm_apply]

@[simp] theorem bypass_pred : bypass ρ p (ρ.symm p) = ρ p := by
  rw [bypass, mul_apply, Equiv.swap_apply_left]

theorem bypass_of_ne (h₁ : x ≠ p) (h₂ : ρ x ≠ p) : bypass ρ p x = ρ x := by
  rw [bypass, mul_apply, Equiv.swap_apply_of_ne_of_ne _ h₁]
  rintro rfl
  exact h₂ (ρ.apply_symm_apply p)

theorem bypass_of_fixed (h : ρ.symm p = p) : bypass ρ p = ρ := by
  rw [bypass, h, Equiv.swap_self]
  rfl

theorem sameCycle_bypass (x : α) : ρ.SameCycle x (bypass ρ p x) := by
  by_cases h₁ : x = p
  · rw [h₁, bypass_self]
  · by_cases h₂ : ρ x = p
    · obtain rfl : x = ρ.symm p := (Equiv.eq_symm_apply ρ).mpr h₂
      rw [bypass_pred, sameCycle_symm_apply_left, sameCycle_apply_right]
    · rw [bypass_of_ne h₁ h₂, sameCycle_apply_right]

/-- **The cycles are kept**, apart from the point that is taken out. -/
theorem sameCycle_bypass_iff (ha : a ≠ p) (hb : b ≠ p) :
    (bypass ρ p).SameCycle a b ↔ ρ.SameCycle a b := by
  constructor
  · exact sameCycle_induct (SameCycle.equivalence ρ) sameCycle_bypass
  · intro h
    -- contract `p` to its successor: every step of `ρ` is then none or one of the other
    let c (x : α) : α := if x = p then ρ p else x
    have hc : ∀ x, (bypass ρ p).SameCycle (c x) (c (ρ x)) := by
      intro x
      by_cases h₁ : x = p
      · subst h₁
        simp only [c, if_true]
        split <;> rfl
      · by_cases h₂ : ρ x = p
        · obtain rfl : x = ρ.symm p := (Equiv.eq_symm_apply ρ).mpr h₂
          simp only [c, if_neg h₁, Equiv.apply_symm_apply, if_true]
          have hpred : bypass ρ p (ρ.symm p) = ρ p := bypass_pred
          rw [← hpred, sameCycle_apply_right]
        · simp only [c, if_neg h₁, if_neg h₂]
          rw [← bypass_of_ne h₁ h₂, sameCycle_apply_right]
    have := sameCycle_induct ((SameCycle.equivalence (bypass ρ p)).comap c) hc h
    simpa only [c, Function.onFun, if_neg ha, if_neg hb] using this

/-- A rearrangement of a list, as a permutation that fixes everything else. -/
theorem exists_map_eq {l l' : List α} (hd : l.Nodup) (hp : l.Perm l') :
    ∃ π : Equiv.Perm α, l.map π = l' ∧ ∀ x, x ∉ l → π x = x := by
  have hd' : l'.Nodup := hp.nodup_iff.mp hd
  let σ : Equiv.Perm {x // x ∈ l} := (hd.getEquiv l).symm.trans ((finCongr hp.length_eq).trans
    ((hd'.getEquiv l').trans (Equiv.subtypeEquivRight fun x => hp.mem_iff.symm)))
  refine ⟨ofSubtype σ, List.ext_getElem (by rw [List.length_map, hp.length_eq]) fun i h h' => ?_,
    fun x hx => ofSubtype_apply_of_not_mem σ hx⟩
  rw [List.getElem_map, ofSubtype_apply_of_mem σ (List.getElem_mem _)]
  rw [List.length_map] at h
  have hi : (hd.getEquiv l).symm ⟨l[i], List.getElem_mem _⟩ = ⟨i, h⟩ := by
    rw [Equiv.symm_apply_eq]
    rfl
  show (hd'.getEquiv l' (finCongr hp.length_eq ((hd.getEquiv l).symm ⟨l[i], _⟩)) : α) = l'[i]
  rw [hi]
  rfl

end Lib
