import ScopeGraphs.Proofs.Engine.Closing
import ScopeGraphs.Proofs.Units.Abating
import ScopeGraphs.Proofs.Units.Hesitating

/-!
# What a resolved unit is left with

When the cluster of a unit is resolved, the unit reuses its previous result, runs, or closes by force.
This module says what it comes to each time. A unit that is released or made to run after it was
undecided has no result yet, so it cannot finish on the spot, and its life goes on as it was told
(`Turn.released_release`, `Turn.restarted_restart`). A unit that closes by force keeps its graphs and is left
with nobody who waits for one of its slots (`Turn.delays_grantClosures`).

Whether a slot is open is read off the tokens that are listed in a bag, and forced closure goes through
the tokens that are in it. The two agree because no token is listed that is not there
(`TokenBag.IsProper`).
-/

namespace ScopeGraphs

variable {γ α : Type}

namespace Turn

variable {t t' : Turn γ} {A : Deed γ → Prop}

theorem isProper_after {t : Turn γ} (h : t.unit.waits.IsProper) (d : Deed γ) :
    (d.after t).unit.waits.IsProper := by
  cases d with
  | raise token holder => exact h.add token holder
  | lower token holder =>
    rw [Deed.after, lower]
    split
    · exact h
    · rename_i waits hwaits
      exact h.remove? hwaits
  | forget => exact TokenBag.isProper_empty
  | edge e =>
    rw [Deed.after, assertEdge]
    split <;> exact h
  | datum s d =>
    rw [Deed.after, assertDatum]
    split <;> exact h
  | receive e =>
    rw [Deed.after, receiveEdge]
    split <;> exact h
  | send | join | share | hesitate => exact h

theorem Moves.isProper (h : t.Moves A t') (ht : t.unit.waits.IsProper) :
    t'.unit.waits.IsProper := by
  induction h with
  | refl => exact ht
  | note _ hnotes ih => exact hnotes.unit.waits ▸ ih
  | deed _ _ ih => exact isProper_after ih _

end Turn

theorem UnitOp.isProper_run (op : UnitOp γ α) {t : Turn γ} (h : t.unit.waits.IsProper) :
    (op.run t).2.unit.waits.IsProper := by
  obtain hmoves | ⟨e, heq⟩ := op.moves_or_receives t
  · exact hmoves.isProper h
  · exact heq ▸ Turn.isProper_after h (.receive e)

/-! ## Closing by force -/

namespace Turn

variable (t : Turn γ)

theorem sameGraphs_grantClosures : t.unit.SameGraphs t.grantClosures.unit :=
  (t.moves_grantClosures (fun _ _ ↦ trivial) trivial).sameGraphs

/-- Everybody who waited for a slot has been told. -/
theorem delays_grantClosures (h : t.unit.waits.IsProper) : t.grantClosures.unit.delays = [] := by
  have hproper : t.grantClosures.unit.waits.IsProper :=
    (t.moves_grantClosures (A := fun _ ↦ True) (fun _ _ ↦ trivial) trivial).isProper h
  have hclosed (s : Scope) (slot : Slot) : t.grantClosures.unit.isClosed s slot = true := by
    have hopen := hproper.isOpen_eq_false (fun _ _ hclosure ↦ by
      rw [count_grantClosures, if_pos hclosure]) s slot
    rw [UnitNode.isClosed, hopen, UnitNode.shares_of_empty t.shared_grantClosures]
    exact ite_self _
  -- What is closed in the end is closed when the delays are looked at.
  have hsame : t.grantClosures.unit.delays =
      t.grantClosures.unit.delays.filter fun d ↦ !t.grantClosures.unit.isClosed d.scope d.slot := by
    rw [grantClosures, fireDelays, unit_tell]
    simp only [edit, List.filter_filter]
    exact List.filter_congr fun d _ ↦ (Bool.and_self _).symm
  rw [hsame]
  exact List.filter_eq_nil_iff.2 fun d _ ↦ by simp [hclosed]

end Turn

/-! ## Reusing -/

namespace Turn

/-- Stand-ins for previous sub-units change nothing else in the life of the unit that adds them. -/
theorem exists_life_replaySubUnits (t : Turn γ) :
    ∃ subUnits, t.replaySubUnits.unit.life = { t.unit.life with subUnits := subUnits } := by
  rw [replaySubUnits]
  induction t.missingSubUnits generalizing t with
  | nil => exact ⟨_, rfl⟩
  | cons e es ih =>
    let roots : List Scope := e.2.roots.map t.unit.reuseOrIdentity.apply
    obtain ⟨subUnits, hlife⟩ := ih (t.addSubUnit e.1 (.phantom true) roots false).2
    refine ⟨subUnits, hlife.trans ?_⟩
    by_cases haccepts : t.unit.Accepts e.1 (.phantom true) roots
    · obtain ⟨_, _, _, hunit, -⟩ := t.addSubUnit_of_accepts _ _ _ false haccepts
      rw [hunit]
      rfl
    · rw [t.addSubUnit_of_not_accepts _ _ _ false haccepts]

/-- An undecided unit that is released reuses its previous result under the renaming that it was told,
and does not finish on the spot. -/
theorem released_release (t : Turn γ) (hsound : t.unit.life.IsSound)
    (hphase : t.unit.phase = .undecided) (p : Renaming) :
    (t.release p).unit.phase = .released ∧ (t.release p).unit.trace = .released ∧
      (t.release p).unit.reuse = some p ∧
      (t.release p).effects.finished = t.effects.finished := by
  obtain ⟨previous, hprevious⟩ := Option.isSome_iff_exists.1 (hsound.previous hphase)
  obtain ⟨t₁, -, hlife, heq⟩ := t.exists_release (N := fun _ ↦ True) hsound hphase hprevious p
  obtain ⟨subUnits, hlife'⟩ := t₁.exists_life_replaySubUnits
  rw [hlife] at hlife'
  obtain ⟨_, -, -, hfinished, -⟩ := t.goes_release (N := fun _ ↦ True) hsound p
  refine ⟨?_, ?_, ?_, hfinished⟩ <;> rw [heq]
  · exact congrArg Life.phase hlife'
  · exact congrArg Life.trace hlife'
  · exact congrArg Life.reuse hlife'

/-! ## Running -/

/-- An undecided unit that is made to run does so, and does not finish on the spot. -/
theorem restarted_restart (t : Turn γ) (hsound : t.unit.life.IsSound)
    (hphase : t.unit.phase = .undecided) {trace : Trace} (htrace : trace ≠ .released) :
    (t.restart trace).unit.phase = .active ∧ (t.restart trace).unit.trace = trace ∧
      (t.restart trace).effects.finished = t.effects.finished :=
  t.restarted_of_outcome (by simp [canRestart, hphase]) (hsound.outcome_of_undecided hphase) htrace

end Turn

end ScopeGraphs
