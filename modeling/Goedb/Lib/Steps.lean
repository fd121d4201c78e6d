import Goedb.Lib.Program

/-!
# Lib — runs of steps

A machine takes steps of a type `ι` on states of a type `σ`, and a step may stop the run with a
fault.  `runSteps` takes a list of steps, one after the other.

What is promised only of the runs whose steps all meet a condition is stated with `Along`, and what
depends on the past of a run with a *ghost* value, which each step updates.  `run_invariant` is the
induction over runs: an invariant of ghost and state that every step keeps which meets the condition.
-/

namespace Lib

variable {ι σ ε γ : Type}

/-- The steps of a list, one after the other. -/
def runSteps (step : ι → σ → Except ε σ) : List ι → σ → Except ε σ
  | [], s => .ok s
  | i :: is, s =>
      match step i s with
      | .ok s' => runSteps step is s'
      | .error e => .error e

/-- Every step of the run meets the condition, in the state in which it is taken. -/
def Along (step : ι → σ → Except ε σ) (cond : σ → ι → Prop) : List ι → σ → Prop
  | [], _ => True
  | i :: is, s => cond s i ∧
      match step i s with
      | .ok s' => Along step cond is s'
      | .error _ => True

/-- The ghost value after a run. -/
def ghost (step : ι → σ → Except ε σ) (next : σ → ι → γ → γ) : List ι → σ → γ → γ
  | [], _, g => g
  | i :: is, s, g =>
      match step i s with
      | .ok s' => ghost step next is s' (next s i g)
      | .error _ => g

variable {step : ι → σ → Except ε σ} {cond : σ → ι → Prop}

theorem runSteps_append (is : List ι) {js : List ι} : ∀ {s s' : σ}, runSteps step is s = .ok s' →
    runSteps step (is ++ js) s = runSteps step js s' := by
  induction is with
  | nil =>
      intro s s' h
      cases h
      rfl
  | cons i is ih =>
      intro s s' h
      rw [runSteps] at h
      rw [List.cons_append, runSteps]
      cases hs : step i s with
      | error e =>
          rw [hs] at h
          cases h
      | ok s₁ =>
          rw [hs] at h
          exact ih h

instance Along.decidable [∀ s i, Decidable (cond s i)] :
    ∀ is s, Decidable (Along step cond is s)
  | [], _ => isTrue trivial
  | i :: is, s =>
      have : Decidable (match step i s with
          | .ok s' => Along step cond is s'
          | .error _ => True) :=
        match step i s with
        | .ok s' => Along.decidable is s'
        | .error _ => isTrue trivial
      inferInstanceAs (Decidable (_ ∧ _))

/-- What holds of the state that a computation returns. -/
instance decidableForallOk {p : σ → Prop} [DecidablePred p] :
    ∀ x : Except ε σ, Decidable (∀ s, x = .ok s → p s)
  | .ok s => decidable_of_iff (p s) ⟨fun h _ e => Except.ok.inj e ▸ h, fun h => h s rfl⟩
  | .error _ => isTrue fun _ e => nomatch e

/-- The fault a computation stops with. -/
def fault? : Except ε σ → Option ε
  | .ok _ => none
  | .error e => some e

theorem fault?_eq_some {x : Except ε σ} {e : ε} : fault? x = some e ↔ x = .error e := by
  cases x with
  | ok s => simp [fault?]
  | error e' => simp [fault?]

theorem fault?_eq_none {x : Except ε σ} : fault? x = none ↔ ∃ s, x = .ok s := by
  cases x with
  | ok s => simp [fault?]
  | error e => simp [fault?]

theorem Along.imp {cond' : σ → ι → Prop} (hc : ∀ s i, cond s i → cond' s i) (is : List ι) :
    ∀ {s : σ}, Along step cond is s → Along step cond' is s := by
  induction is with
  | nil =>
      intro s _
      trivial
  | cons i is ih =>
      rintro s ⟨h, ht⟩
      refine ⟨hc s i h, ?_⟩
      cases hs : step i s with
      | error e => trivial
      | ok s' =>
          rw [hs] at ht
          exact ih ht

/-- A condition that the steps meet in every state. -/
theorem Along.of_forall (is : List ι) (h : ∀ i ∈ is, ∀ s, cond s i) :
    ∀ s, Along step cond is s := by
  induction is with
  | nil => exact fun _ => trivial
  | cons i is ih =>
      intro s
      refine ⟨h i (List.mem_cons_self ..) s, ?_⟩
      cases step i s with
      | error e => trivial
      | ok s' => exact ih (fun j hj => h j (List.mem_cons_of_mem _ hj)) s'

/-- A ghost that does not look at the state only depends on the steps. -/
theorem ghost_eq_foldl {f : ι → γ → γ} (is : List ι) : ∀ {s s' : σ} {g : γ},
    runSteps step is s = .ok s' →
    ghost step (fun _ => f) is s g = is.foldl (fun g i => f i g) g := by
  induction is with
  | nil =>
      intro s s' g _
      rfl
  | cons i is ih =>
      intro s s' g h
      rw [runSteps] at h
      rw [ghost]
      cases hs : step i s with
      | error e =>
          rw [hs] at h
          cases h
      | ok s₁ =>
          rw [hs] at h
          exact ih h

/-- **Induction over a run**: the invariant holds at its end, and a fault is one that a step in a
state of the invariant stops with. -/
theorem run_invariant (next : σ → ι → γ → γ) {I : γ → σ → Prop} {E : ε → Prop}
    (hok : ∀ g s i s', I g s → cond s i → step i s = .ok s' → I (next s i g) s')
    (herror : ∀ g s i e, I g s → cond s i → step i s = .error e → E e) (is : List ι) :
    ∀ (g : γ) {s : σ}, I g s → Along step cond is s →
      (∀ s', runSteps step is s = .ok s' → I (ghost step next is s g) s') ∧
      ∀ e, runSteps step is s = .error e → E e := by
  induction is with
  | nil =>
      intro g s h _
      refine ⟨?_, ?_⟩
      · rintro s' ⟨⟩
        exact h
      · rintro e ⟨⟩
  | cons i is ih =>
      rintro g s h ⟨hc, ht⟩
      rw [runSteps, ghost]
      cases hs : step i s with
      | error e =>
          refine ⟨?_, ?_⟩
          · rintro s' ⟨⟩
          · rintro e' ⟨⟩
            exact herror g s i e h hc hs
      | ok s' =>
          rw [hs] at ht
          exact ih _ (hok g s i s' h hc hs) ht

/-- **Simulation of a run** by a machine that may stop as well: a run returns where the abstract one does,
in a related state, and stops where the abstract one stops. -/
theorem runSteps_refines {τ ε' : Type} {R : σ → τ → Prop} {E : ε → Prop} {spec : ι → τ → Except ε' τ}
    {cond : τ → ι → Prop}
    (hok : ∀ s t i t', R s t → cond t i → spec i t = .ok t' → ∃ s', step i s = .ok s' ∧ R s' t')
    (herror : ∀ s t i e, R s t → cond t i → spec i t = .error e → ∃ e', step i s = .error e' ∧ E e')
    (is : List ι) : ∀ {s : σ} {t : τ}, R s t → Along spec cond is t →
      (∀ t', runSteps spec is t = .ok t' → ∃ s', runSteps step is s = .ok s' ∧ R s' t') ∧
      ∀ e, runSteps spec is t = .error e → ∃ e', runSteps step is s = .error e' ∧ E e' := by
  induction is with
  | nil =>
      intro s t h _
      refine ⟨?_, ?_⟩
      · rintro t' ⟨⟩
        exact ⟨s, rfl, h⟩
      · rintro e ⟨⟩
  | cons i is ih =>
      rintro s t h ⟨hc, ht⟩
      rw [runSteps, runSteps]
      cases hs : spec i t with
      | error e =>
          obtain ⟨e', he, hE⟩ := herror s t i e h hc hs
          rw [he]
          refine ⟨?_, fun _ _ => ⟨e', rfl, hE⟩⟩
          rintro t' ⟨⟩
      | ok t₁ =>
          rw [hs] at ht
          obtain ⟨s₁, hs₁, h₁⟩ := hok s t i t₁ h hc hs
          rw [hs₁]
          exact ih h₁ ht

/-- Both return, in related states, or both stop with the same fault. -/
inductive Alike {τ : Type} (R : σ → τ → Prop) : Except ε σ → Except ε τ → Prop
  | ok {s : σ} {t : τ} (h : R s t) : Alike R (.ok s) (.ok t)
  | error (e : ε) : Alike R (.error e) (.error e)

theorem Alike.bind {τ σ' τ' : Type} {R : σ → τ → Prop} {S : σ' → τ' → Prop} {x : Except ε σ}
    {y : Except ε τ} {f : σ → Except ε σ'} {g : τ → Except ε τ'} (h : Alike R x y)
    (hfg : ∀ s t, R s t → Alike S (f s) (g t)) : Alike S (x >>= f) (y >>= g) := by
  cases h with
  | ok h => exact hfg _ _ h
  | error e => exact .error e

/-- **Lockstep of a run**: steps that end alike make runs that end alike. -/
theorem runSteps_alike {τ : Type} {R : σ → τ → Prop} {spec : ι → τ → Except ε τ}
    (hstep : ∀ s t i, R s t → Alike R (step i s) (spec i t)) (is : List ι) :
    ∀ {s : σ} {t : τ}, R s t → Alike R (runSteps step is s) (runSteps spec is t) := by
  induction is with
  | nil => exact fun h => .ok h
  | cons i is ih =>
      intro s t h
      rw [runSteps, runSteps]
      have hst := hstep s t i h
      generalize step i s = x at hst
      generalize spec i t = y at hst
      cases hst with
      | ok h' => exact ih h'
      | error e => exact .error e

theorem runSteps_total {τ ε' : Type} (next : ι → τ → τ) (is : List ι) : ∀ t : τ,
    runSteps (fun i t => (.ok (next i t) : Except ε' τ)) is t =
      .ok (is.foldl (fun t i => next i t) t) := by
  induction is with
  | nil => exact fun _ => rfl
  | cons i is ih => exact fun t => ih (next i t)

/-- **Simulation of a run**: a step that the condition allows in the abstract state returns, in a
state of its successor; so does a run of such steps. -/
theorem runSteps_simulates {τ : Type} {R : σ → τ → Prop} {cond : τ → ι → Prop} (next : ι → τ → τ)
    (hstep : ∀ s t i, R s t → cond t i → ∃ s', step i s = .ok s' ∧ R s' (next i t))
    (is : List ι) : ∀ {s : σ} {t : τ}, R s t →
      Along (fun i t => (.ok (next i t) : Except ε τ)) cond is t →
      ∃ s', runSteps step is s = .ok s' ∧ R s' (is.foldl (fun t i => next i t) t) := by
  intro s t h hc
  refine (runSteps_refines (E := fun _ => False) (fun s t i t' h hc ht => ?_)
    (fun s t i e _ _ he => absurd he (by simp)) is h hc).1 _ (runSteps_total next is t)
  cases ht
  exact hstep s t i h hc

end Lib
