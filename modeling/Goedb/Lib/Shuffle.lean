import Mathlib.Algebra.BigOperators.Group.Finset.Sigma
import Mathlib.Data.Fintype.Perm
import Mathlib.Data.Fintype.BigOperators
import Mathlib.Logic.Equiv.Fin.Basic
import Mathlib.Data.Nat.GCD.Basic
import Mathlib.Data.Nat.Prime.Basic
import Mathlib.Tactic.IntervalCases

/-!
# Lib — shuffling by exchanges

A shuffle goes through the places and exchanges each with a place that is drawn for it.  Every permutation
of the places comes up for some draws (`exists_exchanges_eq`).

With a draw among all `n` places in each of `n` turns there are `n ^ n` draws, and `n!` permutations.  From
three places on the one number is no multiple of the other, so no way to make permutations of the draws
makes all of them equally often (`exists_card_ne`).
-/

namespace Lib

open Equiv

variable {α : Type} [DecidableEq α]

/-- The exchanges of the places of `l` with those drawn for them; the last one is applied first. -/
def exchanges (draw : α → α) (l : List α) : Perm α := (l.map fun x => swap x (draw x)).prod

@[simp] theorem exchanges_nil (draw : α → α) : exchanges draw [] = 1 := rfl

@[simp] theorem exchanges_cons (draw : α → α) (x : α) (l : List α) :
    exchanges draw (x :: l) = swap x (draw x) * exchanges draw l := List.prod_cons

theorem exchanges_congr {draw draw' : α → α} {l : List α} (h : ∀ x ∈ l, draw x = draw' x) :
    exchanges draw l = exchanges draw' l :=
  congrArg List.prod (List.map_congr_left fun x hx => by rw [h x hx])

/-- **Every permutation** of the places comes up. -/
theorem exists_exchanges_eq (l : List α) (hl : l.Nodup) : ∀ {σ : Perm α}, (∀ x, x ∉ l → σ x = x) →
    ∃ draw, exchanges draw l = σ := by
  induction l with
  | nil => exact fun h => ⟨id, (Perm.ext fun x => h x List.not_mem_nil).symm⟩
  | cons x l ih =>
      intro σ h
      obtain ⟨hx, hl⟩ := List.nodup_cons.mp hl
      -- `σ x` is drawn for `x`; what is left to do leaves `x` where it is
      have hrest : ∀ y, y ∉ l → (swap x (σ x) * σ) y = y := by
        intro y hy
        by_cases hyx : y = x
        · rw [hyx, Perm.mul_apply, swap_apply_right]
        · have hfix : σ y = y := h y (List.not_mem_cons_of_ne_of_not_mem hyx hy)
          have hne : y ≠ σ x := fun e => hyx (σ.injective (hfix.trans e))
          rw [Perm.mul_apply, hfix, swap_apply_of_ne_of_ne hyx hne]
      obtain ⟨draw, hdraw⟩ := ih hl hrest
      refine ⟨Function.update draw x (σ x), ?_⟩
      have hsame : exchanges (Function.update draw x (σ x)) l = exchanges draw l :=
        exchanges_congr fun y hy => Function.update_of_ne (ne_of_mem_of_not_mem hy hx) _ _
      rw [exchanges_cons, Function.update_self, hsame, hdraw, swap_mul_self_mul]

/-! ### How often a permutation comes up -/

variable {n : ℕ}

/-- From three places on, the number of draws is no multiple of the number of permutations. -/
theorem not_factorial_dvd_pow (hn : 3 ≤ n) : ¬ n.factorial ∣ n ^ n := by
  intro h
  obtain ⟨m, rfl⟩ : ∃ m, n = m + 1 := ⟨n - 1, by omega⟩
  have hm : m ∣ (m + 1) ^ (m + 1) :=
    (Nat.dvd_factorial (by omega) (Nat.le_succ m)).trans h
  have hcop : Nat.Coprime m ((m + 1) ^ (m + 1)) := Nat.Coprime.pow_right _
    (Nat.coprime_self_add_right.mpr (Nat.coprime_one_right m))
  have hone : m = 1 := hcop.eq_one_of_dvd hm
  omega

/-- **Some permutations come up more often than others**, however the draws are made use of. -/
theorem exists_card_ne (hn : 3 ≤ n) (shuffle : (Fin n → Fin n) → Perm (Fin n)) :
    ∃ σ τ, (Finset.univ.filter fun r => shuffle r = σ).card ≠
      (Finset.univ.filter fun r => shuffle r = τ).card := by
  by_contra h
  push Not at h
  have hsum := Finset.card_eq_sum_card_fiberwise
    (s := (Finset.univ : Finset (Fin n → Fin n))) (t := Finset.univ) (f := shuffle)
    fun _ _ => Finset.mem_coe.mpr (Finset.mem_univ _)
  rw [Finset.sum_congr rfl fun σ _ => h σ 1, Finset.sum_const, Nat.nsmul_eq_mul, Finset.card_univ,
    Finset.card_univ, Fintype.card_perm, Fintype.card_fun, Fintype.card_fin] at hsum
  exact not_factorial_dvd_pow hn ⟨_, hsum⟩

/-- The shuffle of the places in their order. -/
def shuffle (r : Fin n → Fin n) : Perm (Fin n) := exchanges r (List.finRange n)

theorem exists_shuffle_eq (σ : Perm (Fin n)) : ∃ r, shuffle r = σ :=
  exists_exchanges_eq _ (List.nodup_finRange n) fun x hx => absurd (List.mem_finRange x) hx

/-- **All permutations come up equally often** for two places at most. -/
theorem shuffle_uniform_iff (hn : 0 < n) :
    (∀ σ τ : Perm (Fin n), (Finset.univ.filter fun r => shuffle r = σ).card =
      (Finset.univ.filter fun r => shuffle r = τ).card) ↔ n ≤ 2 := by
  constructor
  · intro h
    by_contra hle
    obtain ⟨σ, τ, hne⟩ := exists_card_ne (by omega) (shuffle (n := n))
    exact hne (h σ τ)
  · intro hle
    interval_cases n
    · decide
    · decide

end Lib
