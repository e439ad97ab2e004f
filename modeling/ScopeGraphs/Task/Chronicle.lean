/-!
# Chronicles

A machine that takes one step after the other has a history: the list of what has happened, the
latest first, which leads from its first state to the present one.
-/

namespace ScopeGraphs

universe u v

/-- What has happened to a machine since its first state, the latest first, and what has become of
it. -/
inductive Chronicle {σ : Type u} {ε : Type v} (step : σ → ε → σ → Prop) (first : σ) :
    List ε → σ → Prop where
  | nil : Chronicle step first [] first
  | cons {es : List ε} {e : ε} {s s' : σ} (run : Chronicle step first es s) (last : step s e s') :
    Chronicle step first (e :: es) s'

namespace Chronicle

variable {σ : Type u} {ε : Type v} {step : σ → ε → σ → Prop} {first s s' : σ} {e : ε}
  {es later earlier : List ε}

theorem of_cons (h : Chronicle step first (e :: es) s') :
    ∃ s, Chronicle step first es s ∧ step s e s' := by
  cases h with
  | cons run last => exact ⟨_, run, last⟩

/-- What has happened has happened in some state. -/
theorem exists_step (h : Chronicle step first (later ++ e :: earlier) s) :
    ∃ s₁ s₂, Chronicle step first earlier s₁ ∧ step s₁ e s₂ := by
  induction later generalizing s with
  | nil =>
    obtain ⟨s', run, last⟩ := h.of_cons
    exact ⟨s', s, run, last⟩
  | cons e' later ih =>
    obtain ⟨s', run, -⟩ := h.of_cons
    exact ih run

end Chronicle

end ScopeGraphs
