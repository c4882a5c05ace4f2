import Mathlib

/-!
# Runs of a state machine

A machine given by its steps, each of them labelled with an event, and the two rules by which a
fact about one step becomes a fact about a run: an invariant, and a simulation of a function that
folds over the events.
-/

namespace Bronze.Transition

variable {σ τ ε : Type*}

/-- The runs of `step` from `s`: the events, and the state after them. -/
inductive Run (step : σ → ε → σ → Prop) (s : σ) : List ε → σ → Prop
  | nil : Run step s [] s
  | snoc {es : List ε} {e : ε} {s₁ s₂ : σ} :
      Run step s es s₁ → step s₁ e s₂ → Run step s (es ++ [e]) s₂

namespace Run

variable {step : σ → ε → σ → Prop} {s s' : σ} {es : List ε}

/-- **What holds at first and survives each step holds after every run.** -/
theorem invariant (I : σ → Prop) (hinit : I s)
    (hstep : ∀ s₁ e s₂, I s₁ → step s₁ e s₂ → I s₂) (h : Run step s es s') : I s' := by
  induction h with
  | nil => exact hinit
  | snoc _ hs ih => exact hstep _ _ _ ih hs

theorem mono {step' : σ → ε → σ → Prop} (hstep : ∀ s₁ e s₂, step s₁ e s₂ → step' s₁ e s₂)
    (h : Run step s es s') : Run step' s es s' := by
  induction h with
  | nil => exact .nil
  | snoc _ hs ih => exact .snoc ih (hstep _ _ _ hs)

theorem functional {s'' : σ} (hstep : ∀ s₁ e s₂ s₃, step s₁ e s₂ → step s₁ e s₃ → s₂ = s₃)
    (h : Run step s es s') (h' : Run step s es s'') : s' = s'' := by
  induction h generalizing s'' with
  | nil =>
    generalize hes : [] = es at h'
    cases h' with
    | nil => rfl
    | snoc => simp at hes
  | @snoc es e s₁ s₂ _ hs ih =>
    generalize hes : es ++ [e] = es' at h'
    cases h' with
    | nil => simp at hes
    | snoc h' hs' =>
      obtain ⟨rfl, he⟩ := List.append_inj' hes rfl
      obtain rfl := List.singleton_inj.mp he
      obtain rfl := ih h'
      exact hstep _ _ _ _ hs hs'

/-- **A simulation of one step carries over to every run.** -/
theorem simulates (R : σ → τ → Prop) (spec : τ → ε → τ) {t : τ} (hinit : R s t)
    (hstep : ∀ s₁ t₁ e s₂, R s₁ t₁ → step s₁ e s₂ → R s₂ (spec t₁ e)) (h : Run step s es s') :
    R s' (es.foldl spec t) := by
  induction h with
  | nil => exact hinit
  | snoc _ hs ih =>
    rw [List.foldl_append]
    exact hstep _ _ _ _ ih hs

/-- **A forward simulation** turns a run into one of the other machine, with the same events. -/
theorem refines {step' : τ → ε → τ → Prop} (R : σ → τ → Prop) {t : τ} (hinit : R s t)
    (hstep : ∀ s₁ t₁ e s₂, R s₁ t₁ → step s₁ e s₂ → ∃ t₂, step' t₁ e t₂ ∧ R s₂ t₂)
    (h : Run step s es s') : ∃ t', Run step' t es t' ∧ R s' t' := by
  induction h with
  | nil => exact ⟨t, .nil, hinit⟩
  | snoc _ hs ih =>
    obtain ⟨t₁, hrun, hrel⟩ := ih
    obtain ⟨t₂, hs', hrel'⟩ := hstep _ _ _ _ hrel hs
    exact ⟨t₂, .snoc hrun hs', hrel'⟩

end Run

end Bronze.Transition
