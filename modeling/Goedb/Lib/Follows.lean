import Goedb.Lib.Program

/-!
# Lib — machines that follow each other

Two runs of a program *follow* each other along a relation of the states: both fail, or both return
the same answer and end in related states.  `Follows.bind` lets the relation change from one part of
a program to the next, as between an acquire and a release.

Where the machines only follow each other at some of the operations, a program must not call the
others: in no run at all (`Always`), or not in the run at hand (`Meets`).

`Covers` is the one half: where the second run returns, so does the first.
-/

namespace Lib

namespace Prog

variable {Op : Type → Type} {α β σ τ ε : Type}

/-- Both outcomes are failures, or they have the same answer and related states. -/
def Follows (R : σ → τ → Prop) (x : Except ε (α × σ)) (y : Except ε (α × τ)) : Prop :=
  (∃ a s t, x = .ok (a, s) ∧ y = .ok (a, t) ∧ R s t) ∨ (∃ e, x = .error e) ∧ ∃ e, y = .error e

namespace Follows

variable {R : σ → τ → Prop} {x : Except ε (α × σ)} {y : Except ε (α × τ)}

theorem ok {s : σ} {t : τ} (a : α) (h : R s t) :
    Follows R (.ok (a, s) : Except ε (α × σ)) (.ok (a, t)) :=
  .inl ⟨a, s, t, rfl, rfl, h⟩

theorem error (e e' : ε) : Follows R (.error e : Except ε (α × σ)) (.error e') :=
  .inr ⟨⟨e, rfl⟩, ⟨e', rfl⟩⟩

theorem mono {R' : σ → τ → Prop} (h : Follows R x y) (hR : ∀ s t, R s t → R' s t) :
    Follows R' x y := by
  rcases h with ⟨a, s, t, hx, hy, h⟩ | h
  · exact .inl ⟨a, s, t, hx, hy, hR s t h⟩
  · exact .inr h

/-- Where the first machine returns, so does the second. -/
theorem inv {a : α} {s : σ} (h : Follows R x y) (hx : x = .ok (a, s)) :
    ∃ t, y = .ok (a, t) ∧ R s t := by
  rcases h with ⟨a', s', t, hx', hy, h⟩ | ⟨⟨e, he⟩, -⟩
  · rw [hx'] at hx
    cases hx
    exact ⟨t, hy, h⟩
  · rw [he] at hx
    cases hx

/-- Where the second machine returns, so does the first. -/
theorem of_ok {a : α} {t : τ} (h : Follows R x y) (hy : y = .ok (a, t)) :
    ∃ s, x = .ok (a, s) ∧ R s t := by
  rcases h with ⟨a', s, t', hx, hy', h⟩ | ⟨-, ⟨e, he⟩⟩
  · rw [hy'] at hy
    cases hy
    exact ⟨s, hx, h⟩
  · rw [he] at hy
    cases hy

/-- One part after the other; the relation may change in between. -/
theorem bind {h₁ : Handler Op σ ε} {h₂ : Handler Op τ ε} {R' : σ → τ → Prop} {p : Prog Op α}
    {f : α → Prog Op β} {s : σ} {t : τ} (hp : Follows R (run h₁ p s) (run h₂ p t))
    (hf : ∀ a s' t', R s' t' → Follows R' (run h₁ (f a) s') (run h₂ (f a) t')) :
    Follows R' (run h₁ (p >>= f) s) (run h₂ (p >>= f) t) := by
  rcases hp with ⟨a, s', t', hs, ht, h⟩ | ⟨⟨e, hs⟩, ⟨e', ht⟩⟩
  · rw [run_bind_ok _ hs, run_bind_ok _ ht]
    exact hf a s' t' h
  · rw [run_bind_error _ hs, run_bind_error _ ht]
    exact .error e e'

theorem cond {c : Prop} [Decidable c] {x' : Except ε (α × σ)} {y' : Except ε (α × τ)}
    (h : Follows R x y) (h' : Follows R x' y') :
    Follows R (if c then x else x') (if c then y else y') := by
  split
  · exact h
  · exact h'

theorem ite {h₁ : Handler Op σ ε} {h₂ : Handler Op τ ε} {c : Prop} [Decidable c] {p q : Prog Op α}
    {s : σ} {t : τ} (hp : Follows R (run h₁ p s) (run h₂ p t))
    (hq : Follows R (run h₁ q s) (run h₂ q t)) :
    Follows R (run h₁ (if c then p else q) s) (run h₂ (if c then p else q) t) := by
  split
  · exact hp
  · exact hq

end Follows

/-- Where the second outcome is an answer, the first is the same one, with related states. -/
def Covers (R : σ → τ → Prop) (x : Except ε (α × σ)) (y : Except ε (α × τ)) : Prop :=
  ∀ a t, y = .ok (a, t) → ∃ s, x = .ok (a, s) ∧ R s t

theorem Follows.covers {R : σ → τ → Prop} {x : Except ε (α × σ)} {y : Except ε (α × τ)}
    (h : Follows R x y) : Covers R x y := fun _ _ hy => h.of_ok hy

namespace Covers

variable {R : σ → τ → Prop} {x : Except ε (α × σ)} {y : Except ε (α × τ)}

theorem ok {s : σ} {t : τ} (a : α) (h : R s t) :
    Covers R (.ok (a, s) : Except ε (α × σ)) (.ok (a, t)) := (Follows.ok a h).covers

theorem bind {h₁ : Handler Op σ ε} {h₂ : Handler Op τ ε} {R' : σ → τ → Prop} {p : Prog Op α}
    {f : α → Prog Op β} {s : σ} {t : τ} (hp : Covers R (run h₁ p s) (run h₂ p t))
    (hf : ∀ a s' t', R s' t' → Covers R' (run h₁ (f a) s') (run h₂ (f a) t')) :
    Covers R' (run h₁ (p >>= f) s) (run h₂ (p >>= f) t) := by
  intro b t' h
  obtain ⟨a, t₁, ht, h⟩ := run_bind_inv _ h
  obtain ⟨s₁, hs, hR⟩ := hp a t₁ ht
  rw [run_bind_ok _ hs]
  exact hf a s₁ t₁ hR b t' h

theorem ite {h₁ : Handler Op σ ε} {h₂ : Handler Op τ ε} {c : Prop} [Decidable c] {p q : Prog Op α}
    {s : σ} {t : τ} (hp : Covers R (run h₁ p s) (run h₂ p t))
    (hq : Covers R (run h₁ q s) (run h₂ q t)) :
    Covers R (run h₁ (if c then p else q) s) (run h₂ (if c then p else q) t) := by
  split
  · exact hp
  · exact hq

end Covers

/-- No run of the program calls an operation outside of `ok`. -/
def Always (ok : ∀ β, Op β → Prop) : Prog Op α → Prop
  | .ret _ => True
  | .call op k => ok _ op ∧ ∀ b, Always ok (k b)

/-- The run of the program from a state calls no operation outside of `ok`. -/
def Meets (h : Handler Op τ ε) (ok : ∀ β, Op β → Prop) : Prog Op α → τ → Prop
  | .ret _, _ => True
  | .call op k, t => ok _ op ∧
      match h _ op t with
      | .ok (b, t') => Meets h ok (k b) t'
      | .error _ => True

variable {ok : ∀ β, Op β → Prop}

namespace Always

@[simp] theorem pure (a : α) : Always ok (Pure.pure a : Prog Op α) := trivial

@[simp] theorem perform {op : Op β} : Always ok (Prog.perform op) ↔ ok β op :=
  ⟨fun h => h.1, fun h => ⟨h, fun _ => trivial⟩⟩

theorem bind {p : Prog Op α} {f : α → Prog Op β} (hp : Always ok p) (hf : ∀ a, Always ok (f a)) :
    Always ok (p >>= f) := by
  induction p with
  | ret a => exact hf a
  | call op k ih => exact ⟨hp.1, fun b => ih b (hp.2 b)⟩

theorem ite {c : Prop} [Decidable c] {p q : Prog Op α} (hp : Always ok p) (hq : Always ok q) :
    Always ok (if c then p else q) := by
  split
  · exact hp
  · exact hq

theorem mono {ok' : ∀ β, Op β → Prop} (hok : ∀ β (op : Op β), ok β op → ok' β op) {p : Prog Op α}
    (hp : Always ok p) : Always ok' p := by
  induction p with
  | ret a => trivial
  | call op k ih => exact ⟨hok _ op hp.1, fun b => ih b (hp.2 b)⟩

theorem keeps {h : Handler Op τ ε} {R : τ → τ → Prop} [Std.Refl R] [IsTrans τ R]
    (hop : ∀ β (op : Op β) t b t', ok β op → h β op t = .ok (b, t') → R t t') {p : Prog Op α}
    (hp : Always ok p) : Keeps h R p := by
  induction p with
  | ret a => exact .pure a
  | call op k ih =>
      exact .bind (.perform fun t b t' => hop _ op t b t' hp.1) fun b => ih b (hp.2 b)

theorem meets {h : Handler Op τ ε} {p : Prog Op α} (hp : Always ok p) (t : τ) : Meets h ok p t := by
  induction p generalizing t with
  | ret a =>
      rw [Meets]
      trivial
  | call op k ih =>
      rw [Meets]
      refine ⟨hp.1, ?_⟩
      cases h _ op t with
      | error e => trivial
      | ok q => exact ih q.1 (hp.2 q.1) q.2

end Always

theorem Meets.bind {h : Handler Op τ ε} {p : Prog Op α} {f : α → Prog Op β} {t : τ}
    (hp : Meets h ok p t) (hf : ∀ a t', run h p t = .ok (a, t') → Meets h ok (f a) t') :
    Meets h ok (p >>= f) t := by
  induction p generalizing t with
  | ret a => exact hf a t rfl
  | call op k ih =>
      rw [Meets] at hp
      obtain ⟨hok, hk⟩ := hp
      simp only [run] at hf
      show Meets h ok (.call op fun b => k b >>= f) t
      rw [Meets]
      refine ⟨hok, ?_⟩
      cases ho : h _ op t with
      | error e => trivial
      | ok q =>
          rw [ho] at hk hf
          exact ih q.1 hk hf

/-- **Machines that follow each other at the operations of `ok`** follow each other at the programs
that call no others. -/
theorem run_follows {h₁ : Handler Op σ ε} {h₂ : Handler Op τ ε} {R : σ → τ → Prop}
    (hop : ∀ β (op : Op β) s t, ok β op → R s t → Follows R (h₁ β op s) (h₂ β op t))
    (p : Prog Op α) : ∀ {s : σ} {t : τ}, R s t → Meets h₂ ok p t →
      Follows R (run h₁ p s) (run h₂ p t) := by
  induction p with
  | ret a =>
      intro s t h _
      exact .ok a h
  | call op k ih =>
      intro s t h hm
      rw [Meets] at hm
      obtain ⟨hok, hk⟩ := hm
      simp only [run]
      rcases hop _ op s t hok h with ⟨b, s', t', hs, ht, h'⟩ | ⟨⟨e, hs⟩, ⟨e', ht⟩⟩
      · rw [ht] at hk
        rw [hs, ht]
        exact ih b h' hk
      · rw [hs, ht]
        exact .error e e'

/-- **A machine that covers another one** at the operations of `ok` covers it at the programs whose
run calls no others. -/
theorem run_covers {h₁ : Handler Op σ ε} {h₂ : Handler Op τ ε} {R : σ → τ → Prop}
    (hop : ∀ β (op : Op β) s t, ok β op → R s t → Covers R (h₁ β op s) (h₂ β op t))
    (p : Prog Op α) : ∀ {s : σ} {t : τ}, R s t → Meets h₂ ok p t →
      Covers R (run h₁ p s) (run h₂ p t) := by
  induction p with
  | ret a =>
      intro s t h _
      exact .ok a h
  | call op k ih =>
      intro s t h hm a t' hrun
      rw [Meets] at hm
      obtain ⟨hok, hk⟩ := hm
      simp only [run] at hrun ⊢
      cases ht : h₂ _ op t with
      | error e =>
          rw [ht] at hrun
          cases hrun
      | ok q =>
          rw [ht] at hk hrun
          obtain ⟨s', hs, hR⟩ := hop _ op s t hok h q.1 q.2 ht
          rw [hs]
          exact ih q.1 hR hk a t' hrun

end Prog

end Lib
