import Goedb.Lib.Program

/-!
# Lib — what a run does on its way

`trace obs` lists what `obs` sees of the operations that a run performs.  A sequence leaves the traces
of its parts (`trace_bind_ok`), and machines that agree leave the same trace (`trace_agrees`).
-/

namespace Lib

namespace Prog

variable {Op : Type → Type} {α β γ σ τ ε : Type} {obs : ∀ β, Op β → Option γ}

/-- What is seen of the operations of a run, in order. -/
def trace (obs : ∀ β, Op β → Option γ) (h : Handler Op σ ε) : Prog Op α → σ → List γ
  | .ret _, _ => []
  | .call op k, s =>
    (obs _ op).toList ++
      match h _ op s with
      | .ok (b, s') => trace obs h (k b) s'
      | .error _ => []

variable {h : Handler Op σ ε}

@[simp] theorem trace_pure (a : α) (s : σ) : trace obs h (pure a : Prog Op α) s = [] := rfl

@[simp] theorem trace_perform (op : Op β) (s : σ) :
    trace obs h (perform op) s = (obs _ op).toList := by
  simp only [perform, trace]
  cases h _ op s with
  | error e => exact List.append_nil _
  | ok p => exact List.append_nil _

/-- What is seen of the first operation, also when it stops the run. -/
theorem mem_trace_perform_bind {op : Op β} {c : γ} (hc : obs β op = some c) (f : β → Prog Op α)
    (s : σ) : c ∈ trace obs h (perform op >>= f) s := by
  show c ∈ trace obs h (.call op f) s
  rw [trace, hc]
  exact List.mem_append_left _ (List.mem_singleton_self c)

/-- The trace of a sequence whose first part returns. -/
theorem trace_bind_ok {x : Prog Op α} {a : α} : ∀ {s s' : σ}, run h x s = .ok (a, s') →
    ∀ f : α → Prog Op β, trace obs h (x >>= f) s = trace obs h x s ++ trace obs h (f a) s' := by
  induction x with
  | ret b =>
      intro s s' hx f
      cases hx
      rfl
  | call op k ih =>
      intro s s' hx f
      show trace obs h (.call op fun b => k b >>= f) s = _
      simp only [run] at hx
      simp only [trace]
      cases he : h _ op s with
      | error e =>
          rw [he] at hx
          cases hx
      | ok p =>
          rw [he] at hx
          simp only [ih p.1 hx f, List.append_assoc]

/-- **Machines that agree** leave the same trace. -/
theorem trace_agrees {h₁ : Handler Op σ ε} {h₂ : Handler Op τ ε} {good : σ → Prop} {view : σ → τ}
    (hop : ∀ β (op : Op β) (s : σ), good s → Agrees good view (h₁ β op s) (h₂ β op (view s)))
    (x : Prog Op α) {s : σ} (hs : good s) : trace obs h₁ x s = trace obs h₂ x (view s) := by
  induction x generalizing s with
  | ret a => rfl
  | call op k ih =>
      have h := hop _ op s hs
      simp only [trace]
      cases he : h₁ _ op s with
      | error e =>
          rw [he] at h
          obtain ⟨e', he'⟩ := h
          rw [he']
      | ok p =>
          rw [he] at h
          obtain ⟨hg, he'⟩ := h
          rw [he']
          exact congrArg _ (ih p.1 hg)

end Prog

end Lib
