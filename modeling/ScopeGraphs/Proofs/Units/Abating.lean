import ScopeGraphs.Proofs.Units.Living
import ScopeGraphs.Proofs.Units.Replaying

/-!
# What resolution does to a unit

When nothing else is left to do, the engine ends local phases, lets undecided units reuse their
results or makes them run, closes by force, and gives units up. Each of this takes something away
from a unit for good: its local phase, the state of being undecided, its closures, or that it has
not finished. What is done to the unit besides brings none of it back (`UnitNode.Abates`), and the
units above one that finishes keep what they wait for, what they keep open, who waits for them and
their graphs, too (`UnitNode.Wanes`).
-/

namespace ScopeGraphs

variable {γ : Type}

namespace UnitNode

/-- The unit has not become undecided, nor entered a local phase, nor been taken up again. -/
structure Abates (u v : UnitNode γ) : Prop where
  kind : v.kind = u.kind
  finished : u.finished = true → v.finished = true
  localPhase : v.inLocalPhase = true → u.inLocalPhase = true
  undecided : v.phase = .undecided → u.phase = .undecided

/-- At most the unit has taken in reports and finished. -/
structure Wanes (u v : UnitNode γ) : Prop extends u.Abates v where
  waits : v.waits = u.waits
  shared : v.shared = u.shared
  subUnits : v.subUnits = u.subUnits
  delays : v.delays = u.delays
  graph : v.graph = u.graph
  localGraph : v.localGraph = u.localGraph

variable {u v w : UnitNode γ}

theorem Abates.refl (u : UnitNode γ) : u.Abates u := ⟨rfl, fun h ↦ h, fun h ↦ h, fun h ↦ h⟩

/-- What a change must leave alone to bring nothing back. -/
def progress (u : UnitNode γ) : UnitKind γ × Bool × Bool × Phase :=
  (u.kind, u.finished, u.inLocalPhase, u.phase)

theorem Abates.of_progress (h : v.progress = u.progress) : u.Abates v := by
  simp only [progress, Prod.mk.injEq] at h
  obtain ⟨hkind, hfinished, hlocal, hphase⟩ := h
  exact ⟨hkind, fun h ↦ hfinished ▸ h, fun h ↦ hlocal ▸ h, fun h ↦ hphase ▸ h⟩

theorem Abates.trans (h : u.Abates v) (h' : v.Abates w) : u.Abates w where
  kind := h'.kind.trans h.kind
  finished hu := h'.finished (h.finished hu)
  localPhase hw := h.localPhase (h'.localPhase hw)
  undecided hw := h.undecided (h'.undecided hw)

theorem Wanes.refl (u : UnitNode γ) : u.Wanes u := ⟨.refl u, rfl, rfl, rfl, rfl, rfl, rfl⟩

theorem Wanes.trans (h : u.Wanes v) (h' : v.Wanes w) : u.Wanes w where
  toAbates := h.toAbates.trans h'.toAbates
  waits := h'.waits.trans h.waits
  shared := h'.shared.trans h.shared
  subUnits := h'.subUnits.trans h.subUnits
  delays := h'.delays.trans h.delays
  graph := h'.graph.trans h.graph
  localGraph := h'.localGraph.trans h.localGraph

end UnitNode

namespace Turn

variable (t : Turn γ)

/-! ## Finishing -/

theorem wanes_tryFinish : t.unit.Wanes t.tryFinish.unit := by
  rw [tryFinish]
  split
  · dsimp only
    rw [unit_tell]
    exact ⟨⟨rfl, fun _ ↦ rfl, fun h ↦ h, by simp [edit]⟩, rfl, rfl, rfl, rfl, rfl, rfl⟩
  · exact .refl _

theorem wanes_subUnitFinished (r : Report) : t.unit.Wanes (t.subUnitFinished r).unit := by
  refine .trans ⟨.of_progress ?_, ?_, ?_, ?_, ?_, ?_, ?_⟩ (wanes_tryFinish _) <;> rfl

/-- A unit that is given up finishes if all its sub-units have. -/
theorem finished_failStuck (h : t.unit.allReported = true) :
    t.failStuck.unit.finished = true := by
  unfold failStuck
  split
  · assumption
  · rename_i hunfinished
    dsimp only [fail]
    rw [tryFinish, if_pos]
    · rw [unit_tell]
      rfl
    · simp only [UnitNode.canFinish, settleDecision, settleActive, endLocalPhase, edit, unit_tell,
        unit_fillAll]
      cases t.unit.outcome with
      | none => simpa [hunfinished] using ⟨rfl, h⟩
      | some _ => simpa [hunfinished] using ⟨rfl, h⟩

/-- A unit that is given up adds no units. -/
theorem newUnits_failStuck : t.failStuck.effects.newUnits = t.effects.newUnits := by
  unfold failStuck
  split
  · rfl
  · extract_lets entries delays effects granted emptied hungUp ended
    have hhungUp : hungUp.effects.newUnits = t.effects.newUnits :=
      ((Stays.refl emptied).fillAll _ _).newUnits
    have hended : ended.effects.newUnits = t.effects.newUnits :=
      (Stays.refl hungUp).endLocalPhase.newUnits.trans hhungUp
    unfold fail
    extract_lets failed
    have hactive : (failed.settleActive .running).effects.newUnits = ended.effects.newUnits :=
      ((Stays.refl (Turn.edit _ _)).tell _ _).newUnits
    have hsettled : ((failed.settleActive .running).settleDecision none).effects.newUnits =
        (failed.settleActive .running).effects.newUnits :=
      ((Stays.refl (Turn.edit _ _)).tell _ _).newUnits
    exact (Eases.refl _).tryFinish.newUnits.trans (hsettled.trans (hactive.trans hended))

end Turn

namespace UnitNode.Abates

variable {u : UnitNode γ} {t : Turn γ}

/-! ## Tokens and promises -/

theorem edit (h : u.Abates t.unit) {f : UnitNode γ → UnitNode γ}
    (hf : (f t.unit).progress = t.unit.progress) : u.Abates (t.edit f).unit :=
  h.trans (.of_progress hf)

theorem tell (h : u.Abates t.unit) (receivers : List ChannelId) (p : Parcel) :
    u.Abates (t.tell receivers p).unit := by
  rwa [Turn.unit_tell]

theorem settleActive (h : u.Abates t.unit) (a : Activation) :
    u.Abates (t.settleActive a).unit :=
  (h.edit (by rfl)).tell _ _

theorem settleDecision (h : u.Abates t.unit) (p : Option Renaming) :
    u.Abates (t.settleDecision p).unit :=
  (h.edit (by rfl)).tell _ _

theorem fireDelays (h : u.Abates t.unit) : u.Abates t.fireDelays.unit :=
  (h.edit (by rfl)).tell _ _

theorem grant (h : u.Abates t.unit) (token : Token) (holder : UnitId) :
    u.Abates (t.grant token holder).unit := by
  rw [Turn.grant]
  split
  · exact h
  · rename_i waits _
    have hlowered : u.Abates { t.unit with waits := waits } := h.trans (.of_progress rfl)
    exact (fireDelays (t := { t with unit := { t.unit with waits := waits }, effects := _ })
      hlowered).trans (Turn.wanes_tryFinish _).toAbates

theorem grantAll (h : u.Abates t.unit) (tokens : List (Token × UnitId)) :
    u.Abates (t.grantAll tokens).unit := by
  rw [Turn.grantAll]
  induction tokens generalizing t with
  | nil => exact h
  | cons e es ih => exact ih (h.grant e.1 e.2)

/-! ## Stand-ins -/

theorem addSubUnit (h : u.Abates t.unit) (name : String) (kind : UnitKind γ) (roots : List Scope)
    (changed : Bool) : u.Abates (t.addSubUnit name kind roots changed).2.unit := by
  have hroots (child : UnitId) {t : Turn γ} (h : u.Abates t.unit) (roots : List Scope) :
      u.Abates (roots.foldl (Turn.handRoot child) t).unit := by
    induction roots generalizing t with
    | nil => exact h
    | cons root roots ih =>
      refine ih ?_
      rw [Turn.handRoot]
      split
      · exact h.trans (.of_progress rfl)
      · exact h
  unfold Turn.addSubUnit
  dsimp only
  split
  · exact h
  · split
    · exact h
    · exact (hroots _ (h.edit (by rfl)) roots).trans (.of_progress rfl)

theorem replaySubUnits (h : u.Abates t.unit) : u.Abates t.replaySubUnits.unit := by
  rw [Turn.replaySubUnits]
  induction t.missingSubUnits generalizing t with
  | nil => exact h
  | cons e es ih => exact ih (h.addSubUnit ..)

end UnitNode.Abates

/-! ## Resolution -/

namespace Turn

variable (t : Turn γ)

/-- A unit that reuses its previous result is undecided no longer, and its local phase is over. -/
theorem abated_release (p : Renaming) (h : t.canRelease = true) :
    (t.release p).unit.inLocalPhase = false ∧ (t.release p).unit.phase ≠ .undecided := by
  simp only [canRelease, Bool.and_eq_true, decide_eq_true_eq] at h
  obtain ⟨previous, hprevious⟩ := Option.isSome_iff_exists.1 h.2
  unfold release
  split
  · extract_lets reusing released told
    have hphase : told.unit.phase = .released := by
      simp only [told, endLocalPhase, settleDecision, settleActive, edit, unit_tell]
      rfl
    have hopened : told.unit.inLocalPhase = false := by
      simp only [told, endLocalPhase, edit, unit_tell]
    have habates : told.unit.Abates ((told.grant .activate told.unit.id).replaySubUnits).unit :=
      ((UnitNode.Abates.refl told.unit).grant _ _).replaySubUnits
    refine ⟨Bool.eq_false_iff.2 fun hlocal ↦ ?_, fun hundecided ↦ ?_⟩
    · exact absurd (hopened.symm.trans (habates.localPhase hlocal)) (by simp)
    · exact absurd (hphase.symm.trans (habates.undecided hundecided)) (by simp)
  · rename_i hnot
    exact (hnot previous h.1 hprevious).elim

/-- A unit that runs is undecided no longer. -/
theorem abated_restart (trace : Trace) (h : t.canRestart = true) :
    t.unit.Abates (t.restart trace).unit ∧ (t.restart trace).unit.phase ≠ .undecided := by
  let active : Turn γ := t.edit fun u ↦ { u with phase := .active, trace := trace }
  have hactive : t.unit.Abates active.unit := ⟨rfl, fun h ↦ h, fun h ↦ h, nofun⟩
  have habates : active.unit.Abates (t.restart trace).unit := by
    unfold restart
    rw [if_pos h]
    dsimp only
    refine UnitNode.Abates.grant ?_ _ _
    have htold : active.unit.Abates ((active.settleActive .running).settleDecision none).unit :=
      ((UnitNode.Abates.refl active.unit).settleActive _).settleDecision _
    split
    · exact htold.edit (by rfl)
    · exact htold
  exact ⟨hactive.trans habates, fun hundecided ↦ nomatch habates.undecided hundecided⟩

theorem abates_grantClosures : t.unit.Abates t.grantClosures.unit :=
  have hgranted := (UnitNode.Abates.refl t.unit).grantAll
    (t.unit.waits.entries.filter fun e ↦ e.1.isClosure)
  (hgranted.edit (by rfl)).fireDelays

theorem abated_endLocalPhase : t.unit.Abates t.capture.endLocalPhase.unit ∧
    t.capture.endLocalPhase.unit.inLocalPhase = false := by
  rw [endLocalPhase, unit_tell]
  exact ⟨⟨rfl, fun h ↦ h, by simp [edit], fun h ↦ h⟩, rfl⟩

end Turn

end ScopeGraphs
