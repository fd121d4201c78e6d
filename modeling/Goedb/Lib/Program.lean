import Mathlib.Order.Defs.Unbundled

/-!
# Lib — programs over a signature of operations

A `Prog Op α` is a tree: it returns a value, or it calls an operation of the signature `Op` and
goes on with the answer.  A *handler* says what each operation does to a state of type `σ`, or
with which fault it stops the run.  One program can therefore be run on several machines.

* `run_bind`: running `x >>= f` is running `x`, then `f` at its answer.
* `run_agrees`: when every operation of one machine agrees with the other's along a view of the
  states, answers and failures alike, so does every program.
* `Keeps R`: every run that returns relates its first state to its last by `R`.  For a preorder
  `R` the property passes from the operations to every program built from them.
-/

namespace Lib

/-- A sequence in `Except` that returns went through an answer of its first part. -/
theorem bind_inv {ε α β : Type} {x : Except ε α} {f : α → Except ε β} {b : β}
    (h : x >>= f = .ok b) : ∃ a, x = .ok a ∧ f a = .ok b := by
  cases x with
  | error e => cases h
  | ok a => exact ⟨a, rfl, h⟩

@[simp] theorem ok_bind {ε α β : Type} (a : α) (f : α → Except ε β) :
    (Except.ok a >>= f) = f a := rfl

@[simp] theorem error_bind {ε α β : Type} (e : ε) (f : α → Except ε β) :
    (Except.error e >>= f) = .error e := rfl

/-- A program: a value, or a call of an operation and what to do with its answer. -/
inductive Prog (Op : Type → Type) (α : Type) : Type 1 where
  | ret (a : α) : Prog Op α
  | call {β : Type} (op : Op β) (k : β → Prog Op α) : Prog Op α

/-- What each operation does to a state, or the fault it stops with. -/
abbrev Handler (Op : Type → Type) (σ ε : Type) : Type 1 :=
  ∀ β : Type, Op β → σ → Except ε (β × σ)

namespace Prog

variable {Op : Type → Type} {α β γ σ τ ε : Type}

/-- The program that calls one operation. -/
def perform (op : Op β) : Prog Op β := .call op .ret

/-- `x`, then `f` at its answer. -/
def bind (x : Prog Op α) (f : α → Prog Op β) : Prog Op β :=
  match x with
  | .ret a => f a
  | .call op k => .call op fun b => bind (k b) f

instance : Monad (Prog Op) where
  pure := .ret
  bind := bind

theorem bind_assoc (x : Prog Op α) (f : α → Prog Op β) (g : β → Prog Op γ) :
    x >>= f >>= g = x >>= fun a => f a >>= g := by
  induction x with
  | ret a => rfl
  | call op k ih => exact congrArg (Prog.call op) (funext ih)

/-- The run of a program on a handler. -/
def run (h : Handler Op σ ε) : Prog Op α → σ → Except ε (α × σ)
  | .ret a, s => .ok (a, s)
  | .call op k, s =>
    match h _ op s with
    | .ok (b, s') => run h (k b) s'
    | .error e => .error e

section Run

variable (h : Handler Op σ ε)

@[simp] theorem run_pure (a : α) (s : σ) : run h (pure a : Prog Op α) s = .ok (a, s) := rfl

@[simp] theorem run_perform (op : Op β) (s : σ) : run h (perform op) s = h _ op s := by
  simp only [perform, run]
  cases h _ op s <;> rfl

theorem run_bind (x : Prog Op α) (f : α → Prog Op β) (s : σ) :
    run h (x >>= f) s = (run h x s).bind fun p => run h (f p.1) p.2 := by
  induction x generalizing s with
  | ret a => rfl
  | call op k ih =>
      show run h (.call op fun b => k b >>= f) s = _
      simp only [run]
      cases h _ op s with
      | error e => rfl
      | ok p => exact ih p.1 p.2

/-- A first part that returns is run away. -/
theorem run_bind_ok {x : Prog Op α} {a : α} {s s' : σ} (hx : run h x s = .ok (a, s'))
    (f : α → Prog Op β) : run h (x >>= f) s = run h (f a) s' := by
  rw [run_bind, hx]; rfl

/-- A first part that stops, stops the whole. -/
theorem run_bind_error {x : Prog Op α} {e : ε} {s : σ} (hx : run h x s = .error e)
    (f : α → Prog Op β) : run h (x >>= f) s = .error e := by
  rw [run_bind, hx]; rfl

/-- A sequence that returns went through a state between its two parts. -/
theorem run_bind_inv {x : Prog Op α} {f : α → Prog Op β} {b : β} {s s'' : σ}
    (hr : run h (x >>= f) s = .ok (b, s'')) :
    ∃ a s', run h x s = .ok (a, s') ∧ run h (f a) s' = .ok (b, s'') := by
  rw [run_bind] at hr
  cases hx : run h x s with
  | error e => rw [hx] at hr; cases hr
  | ok p => rw [hx] at hr; exact ⟨p.1, p.2, rfl, hr⟩

theorem run_ite (c : Prop) [Decidable c] (x y : Prog Op α) (s : σ) :
    run h (if c then x else y) s = if c then run h x s else run h y s := by
  split <;> rfl

/-- A check of what a run returns, which can be evaluated. -/
def check (x : Prog Op α) (s : σ) (p : α → σ → Bool) : Bool :=
  match run h x s with
  | .ok (a, s') => p a s'
  | .error _ => false

theorem check_inv {x : Prog Op α} {s : σ} {p : α → σ → Bool} (hc : check h x s p = true) :
    ∃ a s', run h x s = .ok (a, s') ∧ p a s' = true := by
  rw [check] at hc
  cases hx : run h x s with
  | error e => rw [hx] at hc; cases hc
  | ok q => rw [hx] at hc; exact ⟨q.1, q.2, rfl, hc⟩

end Run

/-- Two outcomes agree along a view: both fail, or both return the same answer and the second
state is the view of the first, which is good. -/
def Agrees (good : σ → Prop) (view : σ → τ) (x : Except ε (α × σ)) (y : Except ε (α × τ)) : Prop :=
  match x with
  | .ok (a, s) => good s ∧ y = .ok (a, view s)
  | .error _ => ∃ e, y = .error e

theorem Agrees.of_ok {good : σ → Prop} {view : σ → τ} {x : Except ε (α × σ)}
    {y : Except ε (α × τ)} (h : Agrees good view x y) {a : α} {t : τ} (hy : y = .ok (a, t)) :
    ∃ s, x = .ok (a, s) ∧ good s ∧ view s = t := by
  cases x with
  | error e =>
      obtain ⟨e', he⟩ := h
      rw [he] at hy
      cases hy
  | ok p =>
      obtain ⟨hg, he⟩ := h
      rw [he] at hy
      cases hy
      exact ⟨p.2, rfl, hg, rfl⟩

/-- **A quotient of machines.**  Operations that agree along a view make programs that agree. -/
theorem run_agrees {h₁ : Handler Op σ ε} {h₂ : Handler Op τ ε} {good : σ → Prop} {view : σ → τ}
    (hop : ∀ β (op : Op β) (s : σ), good s → Agrees good view (h₁ β op s) (h₂ β op (view s)))
    (x : Prog Op α) {s : σ} (hs : good s) :
    Agrees good view (run h₁ x s) (run h₂ x (view s)) := by
  induction x generalizing s with
  | ret a => exact ⟨hs, rfl⟩
  | call op k ih =>
      have h := hop _ op s hs
      simp only [run]
      cases he : h₁ _ op s with
      | error e =>
          rw [he] at h
          obtain ⟨e', he'⟩ := h
          rw [he']
          exact ⟨e', rfl⟩
      | ok p =>
          rw [he] at h
          obtain ⟨hg, he'⟩ := h
          rw [he']
          exact ih p.1 hg

/-- Every run of `x` that returns relates its first state to its last by `R`. -/
def Keeps (h : Handler Op σ ε) (R : σ → σ → Prop) (x : Prog Op α) : Prop :=
  ∀ s a s', run h x s = .ok (a, s') → R s s'

namespace Keeps

variable {h : Handler Op σ ε} {R : σ → σ → Prop}

theorem pure [Std.Refl R] (a : α) : Keeps h R (Pure.pure a : Prog Op α) := by
  intro s b s' hr
  cases hr
  exact refl_of R s

theorem perform {op : Op β} (hop : ∀ s b s', h _ op s = .ok (b, s') → R s s') :
    Keeps h R (perform op) := by
  intro s b s' hr
  rw [run_perform] at hr
  exact hop s b s' hr

theorem bind [IsTrans σ R] {x : Prog Op α} {f : α → Prog Op β} (hx : Keeps h R x)
    (hf : ∀ a, Keeps h R (f a)) : Keeps h R (x >>= f) := by
  intro s b s'' hr
  obtain ⟨a, s', h₁, h₂⟩ := run_bind_inv h hr
  exact trans_of R (hx s a s' h₁) (hf a s' b s'' h₂)

theorem ite {c : Prop} [Decidable c] {x y : Prog Op α} (hx : Keeps h R x) (hy : Keeps h R y) :
    Keeps h R (if c then x else y) := by
  split
  · exact hx
  · exact hy

end Keeps

end Prog

end Lib
