import Mathlib.Tactic.Tauto
import ScopeGraphs.Proofs.Resolution.Yielding
import ScopeGraphs.Resolution.Static

/-!
# The algebra of shadowing

A preferred environment is put over less preferred ones slot by slot, and what comes out is put over
others in turn. This module says when the order of these steps does not matter
(`Resolver.shadow_algebra`): shadowing is idempotent, the empty environment is neutral on both
sides, and where covering is transitive the accepted paths do not depend on the grouping.

## What the grouping does to rejected paths

In `a` over `b` over `c` a candidate of `c` may be covered by a find of `b` that is itself covered
by a find of `a`. Grouped to the left that find is gone before it meets the candidate, so only
transitivity puts the candidate under `a` as well (`Env.covers_overlay_iff`). Rejected paths need
more. A winner is not rejected where it is a candidate as well, but which winners there are when a
candidate is judged depends on the grouping: a path of both `a` and `c` that `b` covers is rejected
if `b` meets `c` first, and not otherwise. Where `c` accepts nothing that `a` or `b` does, the
environments are equal.
-/

namespace ScopeGraphs

universe u

namespace Env

variable {leq : Datum → Datum → Bool} {a b c e : Env} {f : ResolvedPath} {d : Datum}

/-! ## Shadowing without effects -/

/-- A preferred environment over another one, where covering has no effects. -/
def overlay (leq : Datum → Datum → Bool) (preferred candidates : Env) : Env :=
  (Resolver.shadow (m := Id) leq preferred candidates).run

/-- Whether a datum is covered by something that an environment accepts. -/
def Covers (leq : Datum → Datum → Bool) (e : Env) (d : Datum) : Prop :=
  ∃ w ∈ e.accepted, leq d w.datum = true

theorem mem_accepted_overlay : f ∈ (overlay leq a b).accepted ↔
    f ∈ a.accepted ∨ f ∈ b.accepted ∧ ¬ a.Covers leq f.datum := by
  rw [overlay, View.mem_accepted_shadow]
  simp [Covers]

theorem mem_rejected_overlay : f ∈ (overlay leq a b).rejected ↔
    f ∈ a.rejected ∨ f ∈ b.rejected ∨
      f ∈ b.accepted ∧ f ∉ a.accepted ∧ a.Covers leq f.datum :=
  View.mem_rejected_shadow

theorem not_covers_empty : ¬ empty.Covers leq d := by
  rintro ⟨w, hw, -⟩
  exact not_mem_accepted_empty hw

/-! ## Idempotence and neutrality -/

/-- What is covered by its own environment is a winner all the same. -/
theorem overlay_self : overlay leq e e = e := by
  refine ext_mem (fun f ↦ ?_) fun f ↦ ?_
  · rw [mem_accepted_overlay]
    tauto
  · rw [mem_rejected_overlay]
    tauto

theorem overlay_empty : overlay leq e empty = e := by
  refine ext_mem (fun f ↦ ?_) fun f ↦ ?_
  · rw [mem_accepted_overlay]
    simp
  · rw [mem_rejected_overlay]
    simp

theorem empty_overlay : overlay leq empty e = e := by
  refine ext_mem (fun f ↦ ?_) fun f ↦ ?_
  · rw [mem_accepted_overlay]
    simp [not_covers_empty]
  · rw [mem_rejected_overlay]
    simp [not_covers_empty]

/-! ## Associativity -/

section

variable (htrans : ∀ d₁ d₂ d₃, leq d₁ d₂ = true → leq d₂ d₃ = true → leq d₁ d₃ = true)

include htrans

/-- Finds that are lost to shadowing do not matter for covering others: what covers them covers
whatever they do. -/
theorem covers_overlay_iff :
    (overlay leq a b).Covers leq d ↔ a.Covers leq d ∨ b.Covers leq d := by
  constructor
  · rintro ⟨w, hw, hd⟩
    rcases mem_accepted_overlay.1 hw with hw | ⟨hw, -⟩
    · exact .inl ⟨w, hw, hd⟩
    · exact .inr ⟨w, hw, hd⟩
  · rintro (⟨w, hw, hd⟩ | ⟨w, hw, hd⟩)
    · exact ⟨w, mem_accepted_overlay.2 (.inl hw), hd⟩
    · by_cases hlost : a.Covers leq w.datum
      · obtain ⟨w', hw', hdw⟩ := hlost
        exact ⟨w', mem_accepted_overlay.2 (.inl hw'), htrans _ _ _ hd hdw⟩
      · exact ⟨w, mem_accepted_overlay.2 (.inr ⟨hw, hlost⟩), hd⟩

theorem accepted_overlay_assoc :
    (overlay leq (overlay leq a b) c).accepted = (overlay leq a (overlay leq b c)).accepted := by
  refine Std.ExtTreeSet.ext_mem fun f ↦ ?_
  simp only [mem_accepted_overlay, covers_overlay_iff htrans]
  tauto

/-- Candidates that neither of two environments accepts can be put under them in either way. -/
theorem overlay_assoc (hac : ∀ f ∈ a.accepted, f ∉ c.accepted)
    (hbc : ∀ f ∈ b.accepted, f ∉ c.accepted) :
    overlay leq (overlay leq a b) c = overlay leq a (overlay leq b c) := by
  refine ext_mem (fun f ↦ ?_) fun f ↦ ?_
  · rw [accepted_overlay_assoc htrans]
  · simp only [mem_rejected_overlay, mem_accepted_overlay, covers_overlay_iff htrans]
    by_cases hc : f ∈ c.accepted
    · -- A candidate is not a winner, so it is rejected if it is covered at all.
      have ha : f ∉ a.accepted := fun ha ↦ hac f ha hc
      have hb : f ∉ b.accepted := fun hb ↦ hbc f hb hc
      by_cases hcov : b.Covers leq f.datum <;> simp [hc, ha, hb, hcov, or_assoc]
    · simp [hc, or_assoc, or_left_comm, or_comm]

end

end Env

/-! ## Shadowing with effects -/

/-- The computations that return a value and do nothing else. -/
def Yielding.returning (m : Type → Type u) [Monad m] [LawfulMonad m] : Yielding m where
  yields x a := x = Pure.pure a
  pure _ := rfl
  bind hx hf := by rw [hx, pure_bind, hf]

namespace Resolver

variable {m : Type → Type u} [Monad m] [LawfulMonad m]

/-- Shadowing has no effects but those of covering. -/
theorem shadow_eq_pure {covers : Datum → Datum → m Bool} {leq : Datum → Datum → Bool}
    (hpure : ∀ d₁ d₂, covers d₁ d₂ = pure (leq d₁ d₂)) (preferred candidates : Env) :
    shadow covers preferred candidates = pure (preferred.overlay leq candidates) :=
  yields_shadow (Y := .returning m) hpure preferred candidates

/-- **The algebra of shadowing.** Let covering be without effects. Then an environment over itself
is itself, and over the empty one or under it as well. If covering is transitive, three environments
accept the same paths in both groupings, and the results are equal if the last one accepts no path
in common with the others, hence if no two of them do. -/
theorem shadow_algebra (covers : Datum → Datum → m Bool) (leq : Datum → Datum → Bool)
    (hpure : ∀ d₁ d₂, covers d₁ d₂ = pure (leq d₁ d₂)) :
    (∀ e, shadow covers e e = pure e) ∧
      (∀ e, shadow covers e .empty = pure e ∧ shadow covers .empty e = pure e) ∧
      ((∀ d₁ d₂ d₃, leq d₁ d₂ = true → leq d₂ d₃ = true → leq d₁ d₃ = true) →
        ∀ a b c, ∃ left right,
          (do let ab ← shadow covers a b
              shadow covers ab c) = pure left ∧
          (do let bc ← shadow covers b c
              shadow covers a bc) = pure right ∧
          left.accepted = right.accepted ∧
          ((∀ f ∈ a.accepted, f ∉ c.accepted) → (∀ f ∈ b.accepted, f ∉ c.accepted) →
            left = right)) := by
  simp only [shadow_eq_pure hpure, pure_bind]
  refine ⟨fun e ↦ by rw [Env.overlay_self], fun e ↦ ?_, fun htrans a b c ↦ ?_⟩
  · rw [Env.overlay_empty, Env.empty_overlay]
    exact ⟨rfl, rfl⟩
  · exact ⟨_, _, rfl, rfl, Env.accepted_overlay_assoc htrans, Env.overlay_assoc htrans⟩

/-- The rule that a datum is covered by itself only. -/
private def sameDatum : CoverRule QueryParams := .test "eq" fun d₁ d₂ ↦ decide (d₁ = d₂)

/-- A declaration of 1 that is found at the scope with the given name. -/
private def declaredAt (name : String) : Env := .single ⟨.start ⟨⟨"u"⟩, name⟩, .int 1⟩

/-- Three declarations of the same datum: the preferred one hides the others in both groupings. -/
theorem shadow_algebra_threeDeclarations :
    (∀ d₁ d₂, sameDatum.covers ScopeGraph.noQueries d₁ d₂ = pure (decide (d₁ = d₂))) ∧
      (∀ d₁ d₂ d₃ : Datum, decide (d₁ = d₂) = true → decide (d₂ = d₃) = true →
        decide (d₁ = d₃) = true) ∧
      (∀ f ∈ (declaredAt "a").accepted, f ∉ (declaredAt "c").accepted) ∧
      (∀ f ∈ (declaredAt "b").accepted, f ∉ (declaredAt "c").accepted) ∧
      ∃ env,
        (do let ab ← Env.shadowed sameDatum (declaredAt "a") (declaredAt "b")
            Env.shadowed sameDatum ab (declaredAt "c")) = .ok env ∧
        (do let bc ← Env.shadowed sameDatum (declaredAt "b") (declaredAt "c")
            Env.shadowed sameDatum (declaredAt "a") bc) = .ok env := by
  have hpure : ∀ d₁ d₂, sameDatum.covers ScopeGraph.noQueries d₁ d₂ =
      (pure (decide (d₁ = d₂)) : Except Fault Bool) := fun _ _ ↦ rfl
  have htrans : ∀ d₁ d₂ d₃ : Datum, decide (d₁ = d₂) = true → decide (d₂ = d₃) = true →
      decide (d₁ = d₃) = true := by
    intro d₁ d₂ d₃ h₁₂ h₂₃
    exact decide_eq_true ((of_decide_eq_true h₁₂).trans (of_decide_eq_true h₂₃))
  have hapart {x y : String} (hxy : x ≠ y) :
      ∀ f ∈ (declaredAt x).accepted, f ∉ (declaredAt y).accepted := by
    intro f hx hy
    obtain rfl := Env.mem_accepted_single.1 hx
    exact hxy (by simpa [declaredAt, Path.start] using hy)
  have hac := hapart (x := "a") (y := "c") (by decide)
  have hbc := hapart (x := "b") (y := "c") (by decide)
  obtain ⟨-, -, hassoc⟩ := shadow_algebra (sameDatum.covers ScopeGraph.noQueries) _ hpure
  obtain ⟨left, right, hleft, hright, -, heq⟩ :=
    hassoc htrans (declaredAt "a") (declaredAt "b") (declaredAt "c")
  obtain rfl := heq hac hbc
  exact ⟨hpure, htrans, hac, hbc, left, hleft, hright⟩

/-- The overlap that the last part of the law excludes: a declaration that is preferred and comes
last as well is rejected only if the one in between meets it first. -/
example :
    (Env.overlay (fun _ _ ↦ true) (Env.overlay (fun _ _ ↦ true) (declaredAt "a") (declaredAt "b"))
        (declaredAt "a")).rejected.toList = (declaredAt "b").paths ∧
      (Env.overlay (fun _ _ ↦ true) (declaredAt "a")
        (Env.overlay (fun _ _ ↦ true) (declaredAt "b") (declaredAt "a"))).rejected.toList =
        (declaredAt "a").paths ++ (declaredAt "b").paths := by
  decide

end Resolver

end ScopeGraphs
