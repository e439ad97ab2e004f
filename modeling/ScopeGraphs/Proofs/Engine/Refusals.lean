import ScopeGraphs.Proofs.Engine.Lifecycles
import ScopeGraphs.Proofs.Engine.Regularity
import ScopeGraphs.Proofs.Units.Refusing

/-!
# Refused operations leave no trace

What a checker is refused, wherever that happens in a run, is as if it had not been asked for: all
units, their mail and what they wait for are as before (`Core.Strides.refused_leaves_no_trace`). The
one thing that may have happened is that a unit which had not committed itself has been made to run,
in the same way as the engine does it for a checker that waits. Its life shows that its checker has
not ended, so the unit does not finish on the spot, and nobody else notices.
-/

namespace ScopeGraphs

namespace Core

variable {γ α β : Type} {N : String → Prop} {c : Core γ} {hs : List (UnitId × Report)}
  {id : UnitId} {u : UnitNode γ}

/-- What becomes of a run depends only on the turn of the unit. -/
theorem atUnit_congr {op : UnitOp γ α} {op' : UnitOp γ β} (hu : c.units[id]? = some u)
    (h : c.turnOf u op = c.turnOf u op') : (c.atUnit id op).2 = (c.atUnit id op').2 := by
  have hturn (δ : Type) (op : UnitOp γ δ) : (c.turn u op).2 = ((c.turnOf u op).effects,
      (c.turnOf u op).effects.woken.foldl wake
        { c with
          units := c.units.insert u.id (c.turnOf u op).unit
          channels := (c.turnOf u op).channels
          nextRequest := (c.turnOf u op).nextRequest }) := rfl
  have heq : c.turn u op = ((c.turn u op).1, (c.turn u op').2) :=
    Prod.ext rfl (by rw [hturn, hturn, h])
  rw [atUnit, atUnit, hu]
  dsimp only
  rw [heq]
  dsimp only
  cases (c.turn u op').2.1.finished <;> rfl

/-- A unit that sends nothing, adds nobody and does not finish changes nothing for other units. -/
theorem atUnit_of_quiet (op : UnitOp γ α) (hu : c.units[id]? = some u) (hid : u.id = id)
    (hmessages : (c.turnOf u op).effects.messages = [])
    (hnewUnits : (c.turnOf u op).effects.newUnits = [])
    (hfinished : (c.turnOf u op).effects.finished = none) :
    (∀ k : UnitId, (c.atUnit id op).2.units[k]? =
      if id = k then some (c.turnOf u op).unit else c.units[k]?) ∧
    (c.atUnit id op).2.mail = c.mail := by
  have hatUnit : (c.atUnit id op).2 =
      (c.turnOf u op).effects.tasks.foldl spawn (c.carryOut id u op) := by
    rw [atUnit, hu]
    dsimp only
    rw [show (c.turn u op).2.1.finished = none from hfinished]
    rfl
  have hspawned (ts : List (Task γ)) (c : Core γ) : (ts.foldl spawn c).mail = c.mail := by
    induction ts generalizing c with
    | nil => rfl
    | cons t ts ih => exact ih (c.spawn t)
  have hnoted (es : List WaitEvent) (c : Core γ) : (es.foldl (noteWait id) c).mail = c.mail := by
    induction es generalizing c with
    | nil => rfl
    | cons e es ih =>
      have hmail : (c.noteWait id e).mail = c.mail := by cases e <;> rfl
      exact (ih (c.noteWait id e)).trans hmail
  constructor
  · intro k
    have hunits := (carries_carryOut hu hid op).units k
    rw [hnewUnits, List.find?_nil, Option.or_none] at hunits
    rw [hatUnit, (units_spawnAll _ _).1, hunits]
  · have hcarried : (c.carryOut id u op).mail = (c.turn u op).2.2.mail := by
      rw [carryOut, applyEffects, show (c.turn u op).2.1.messages = [] from hmessages,
        show (c.turn u op).2.1.newUnits = [] from hnewUnits]
      exact hnoted _ _
    rw [hatUnit, hspawned, hcarried, mail_turn]

section

variable {setup : Setup} {root : UnitId} {code : γ} {previous : Option Report}

/-- **Refused operations leave no trace.** Take any state of a run, and anything that the checker of
a unit is refused there. Afterwards the units are the same ones and all others are unchanged. The
unit has the scopes, counters, graphs, sub-units and pairs of shared scopes that it had, keeps the
same open on scopes of others, and waits for the same but for its activation. No message has been
sent. The state is the one before but for the number of the next request, or else the unit had not
committed itself, and the state is the one after making it run. -/
theorem Strides.refused_leaves_no_trace (h : Strides N (start setup root code previous) hs c)
    (hu : c.units[id]? = some u) (hkind : u.kind.isChecker = true) (a : Action γ α) (fault : Fault)
    (hrefused : (c.atUnit id (.act a)).1 = .ok (.error fault)) :
    (∃ v, u.KeepsWork v ∧ ∀ k : UnitId, (c.atUnit id (.act a)).2.units[k]? =
        if id = k then some v else c.units[k]?) ∧
      (c.atUnit id (.act a)).2.mail = c.mail ∧
      ((∃ n, (c.atUnit id (.act a)).2 = { c with nextRequest := n }) ∨
        u.phase = .started ∧ (c.atUnit id (.act a)).2 = (c.atUnit id .eagerStart).2 ∧
          ∃ v, (c.atUnit id .eagerStart).2.units[id]? = some v ∧ v.phase = .active) := by
  have hsound := (h.passes (isSound_start setup root code previous)).sound
  have hid : u.id = id := hsound.filed id u hu
  let t : Turn γ := ⟨u, .none, c.setup.settings, c.channels, c.nextRequest⟩
  have hfault : (a.attempt t).1 = .error fault := by
    rw [fst_atUnit hu] at hrefused
    exact Except.ok.inj hrefused
  rcases a.attempt_of_refused hfault with ⟨n, hturn⟩ | ⟨hphase, hturn⟩
  · obtain ⟨hsame, -⟩ := atUnit_of_refused (.act a) hu hid hturn
    refine ⟨⟨u, .refl u, fun k ↦ ?_⟩, ?_, .inl ⟨n, hsame⟩⟩
    · rw [hsame]
      split
      · rename_i heq
        exact heq ▸ hu
      · rfl
    · rw [hsame]
  · have houtcome : u.outcome = none := by
      rw [← Option.not_isSome_iff_eq_none]
      intro hsome
      have hdone : u.phase = .done := (hsound.sound id u hu).outcome hkind hsome
      rw [hdone] at hphase
      cases hphase
    obtain ⟨⟨hunit, hmessages, hnewUnits⟩, hactive, hfinished⟩ := t.eagerStart_spec hphase houtcome
    have hruns : (c.atUnit id (.act a)).2 = (c.atUnit id .eagerStart).2 := atUnit_congr hu hturn
    obtain ⟨hunits, hmail⟩ :=
      atUnit_of_quiet .eagerStart hu hid hmessages hnewUnits hfinished
    have hself := hunits id
    rw [if_pos rfl] at hself
    rw [hruns]
    exact ⟨⟨_, hunit, hunits⟩, hmail, .inr ⟨hphase, rfl, _, hself, hactive⟩⟩

end

private def loneId : UnitId := ⟨"root"⟩

private def loneStart : Core Unit := start ⟨.withReuse .trivial, [], 1⟩ loneId () none

private def loneBegun : Core Unit := (loneStart.atUnit loneId (.handle (.start []))).2

/-- An edge between scopes that were never created. -/
private def strayEdge : Edge := ⟨⟨loneId, "a"⟩, "P", ⟨loneId, "b"⟩⟩

/-- A unit that has just been started is refused an edge from an unknown scope, and runs. -/
theorem refused_leaves_no_trace_strayEdge :
    ∃ u, loneBegun.units[loneId]? = some u ∧ u.kind.isChecker = true ∧ u.phase = .started ∧
      (loneBegun.atUnit loneId (.act (.addEdge strayEdge))).1 =
        .ok (.error (.unknownScope strayEdge.source.quoted)) ∧
      ∃ v, u.KeepsWork v ∧ ∀ k : UnitId,
        (loneBegun.atUnit loneId (.act (.addEdge strayEdge))).2.units[k]? =
          if loneId = k then some v else loneBegun.units[k]? := by
  have hbegun : Strides (fun _ ↦ False) loneStart [] loneBegun :=
    Stride.strides (.did loneId (.handle (.start [])) fun _ _ ↦ trivial)
  obtain ⟨u, hu, hkind, hphase⟩ : ∃ u, loneBegun.units[loneId]? = some u ∧
      u.kind.isChecker = true ∧ u.phase = .started := ⟨_, rfl, rfl, rfl⟩
  have hrefused : (loneBegun.atUnit loneId (.act (.addEdge strayEdge))).1 =
      .ok (.error (.unknownScope strayEdge.source.quoted)) := by rfl
  have hspec := Strides.refused_leaves_no_trace hbegun hu hkind (.addEdge strayEdge) _ hrefused
  exact ⟨u, hu, hkind, hphase, hrefused, hspec.1⟩

end Core

end ScopeGraphs
