import Goedb.Lib.Steps

/-!
# Lib — two programs in lockstep

`Lockstep I R x y`: run from states that `I` relates, the programs `x` and `y` both return, with values
that `R` relates and states that `I` relates again, or both stop with the same fault.  The two programs
may be over two signatures and two kinds of states.

The rules follow the two programs side by side: a value, one program after another (`Lockstep.bind`), a
branch that both take (`Lockstep.ite`), and calls that end alike (`Lockstep.of_ok`).
-/

namespace Lib

namespace Prog

variable {Op Op' : Type → Type} {α α' β β' σ τ ε : Type}

/-- The two programs return related values in related states, or stop with the same fault. -/
def Lockstep (h : Handler Op σ ε) (h' : Handler Op' τ ε) (I : σ → τ → Prop) (R : α → β → Prop)
    (x : Prog Op α) (y : Prog Op' β) : Prop :=
  ∀ s t, I s t → Alike (fun p q => R p.1 q.1 ∧ I p.2 q.2) (run h x s) (run h' y t)

namespace Lockstep

variable {h : Handler Op σ ε} {h' : Handler Op' τ ε} {I : σ → τ → Prop} {R : α → β → Prop}
  {S : α' → β' → Prop} {x : Prog Op α} {y : Prog Op' β}

theorem pure {a : α} {b : β} (hR : R a b) :
    Lockstep h h' I R (Pure.pure a : Prog Op α) (Pure.pure b : Prog Op' β) :=
  fun _ _ hI => .ok ⟨hR, hI⟩

/-- Both return from every two related states, and leave them as they are. -/
theorem of_ok {a : α} {b : β} (hR : R a b)
    (hrun : ∀ s t, I s t → run h x s = .ok (a, s) ∧ run h' y t = .ok (b, t)) :
    Lockstep h h' I R x y := by
  intro s t hI
  obtain ⟨hx, hy⟩ := hrun s t hI
  rw [hx, hy]
  exact .ok ⟨hR, hI⟩

/-- Both stop with the same fault. -/
theorem of_error {e : ε} (hx : ∀ s, run h x s = .error e) (hy : ∀ t, run h' y t = .error e) :
    Lockstep h h' I R x y := by
  intro s t _
  rw [hx, hy]
  exact .error e

/-- **One program after another.** -/
theorem bind {f : α → Prog Op α'} {g : β → Prog Op' β'} (hx : Lockstep h h' I R x y)
    (hf : ∀ a b, R a b → Lockstep h h' I S (f a) (g b)) : Lockstep h h' I S (x >>= f) (y >>= g) := by
  intro s t hI
  rw [run_bind, run_bind]
  exact (hx s t hI).bind fun p q hpq => hf p.1 q.1 hpq.1 p.2 q.2 hpq.2

/-- **A branch** that both take. -/
theorem ite {c d : Prop} [Decidable c] [Decidable d] {x' : Prog Op α} {y' : Prog Op' β}
    (hcd : c ↔ d) (hx : c → Lockstep h h' I R x y) (hx' : ¬ c → Lockstep h h' I R x' y') :
    Lockstep h h' I R (if c then x else x') (if d then y else y') := by
  by_cases hc : c
  · rw [if_pos hc, if_pos (hcd.mp hc)]
    exact hx hc
  · rw [if_neg hc, if_neg fun hd => hc (hcd.mpr hd)]
    exact hx' hc

end Lockstep

end Prog

end Lib
