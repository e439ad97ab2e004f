import ScopeGraphs.Units.Asking
import ScopeGraphs.Units.Handling

/-!
# Operations on units

Everything that can happen to a unit in one go, as a closed list: what its checker does, what tasks
do on its behalf, the handling of messages, and what the engine does to units that cannot go on by
themselves. No unit ever changes in any other way, so a property that all operations keep is kept
in every run.
-/

namespace ScopeGraphs

variable {γ : Type}

/-- What can happen to a unit, by the type of the answer. -/
inductive UnitOp (γ : Type) : Type → Type 1 where
  /-- The checker acts. -/
  | act {α : Type} (a : Action γ α) : UnitOp γ (Except Fault α)
  /-- The checker begins to work, in a state or without one. -/
  | begin (state : Option Checkpoint) : UnitOp γ PUnit
  /-- The checker writes down its state. -/
  | keepState (state : Checkpoint) : UnitOp γ PUnit
  /-- The checker waits for the first time. -/
  | eagerStart : UnitOp γ PUnit
  /-- The checker has ended. -/
  | checkerFinished (result : Except String Datum) : UnitOp γ PUnit
  /-- Somebody waits for the decision about reuse to be taken. -/
  | awaitDecided : UnitOp γ (Option ChannelId)
  /-- Somebody waits for a slot to be closed. -/
  | awaitClosed (s : Scope) (slot : Slot) : UnitOp γ (Option ChannelId)
  /-- Somebody waits for the end of the local phase. -/
  | awaitOpen : UnitOp γ ChannelId
  /-- Somebody waits for the decision about reuse itself. -/
  | awaitDecision : UnitOp γ ChannelId
  /-- Somebody waits for the report. -/
  | awaitReport : UnitOp γ ChannelId
  /-- A task asks another unit. -/
  | ask (q : Question) : UnitOp γ Ticket
  /-- The answer is there, or will not come. -/
  | endAsking (t : Ticket) : UnitOp γ PUnit
  /-- A query of the checker has ended. -/
  | endQuery (token : Token) (record : Option QueryRecord) : UnitOp γ PUnit
  /-- The search for a counterpart goes on. -/
  | matchStep (s : Scope) : UnitOp γ MatchStep
  /-- A scope is compared with its counterpart. -/
  | diffScope (s : Scope) (labels : List Label) : UnitOp γ (Option ScopeDiff)
  /-- A message is handled. -/
  | handle (m : Message) : UnitOp γ PUnit
  /-- A sub-unit has finished. -/
  | subUnitFinished (r : Report) : UnitOp γ PUnit
  /-- The unit is told to reuse its previous result; the answer tells whether it does. -/
  | release (p : Renaming) : UnitOp γ Bool
  /-- The unit is told to run; the answer tells whether it does so from now on. -/
  | restart (t : Trace) : UnitOp γ Bool
  /-- The local phase is ended, and the state of the unit kept. -/
  | endLocalPhase : UnitOp γ PUnit
  /-- Closures are granted by force; the answer is their number. -/
  | grantClosures : UnitOp γ Nat
  /-- The unit is given up. -/
  | failStuck : UnitOp γ PUnit

namespace UnitOp

/-- An operation without an answer. -/
def quiet (t : Turn γ) : PUnit × Turn γ := (⟨⟩, t)

/-- What happens to a unit. -/
def run : {α : Type} → UnitOp γ α → Turn γ → α × Turn γ
  | _, act a, t => a.attempt t
  | _, begin state, t => quiet (t.edit fun u ↦ { u with begun := true, checkerState := state })
  | _, keepState state, t => quiet (t.edit fun u ↦ { u with checkerState := some state })
  | _, eagerStart, t => quiet t.eagerStart
  | _, checkerFinished result, t => quiet (t.checkerFinished result)
  | _, awaitDecided, t => t.awaitDecided
  | _, awaitClosed s slot, t => t.awaitClosed s slot
  | _, awaitOpen, t => t.awaitOpen
  | _, awaitDecision, t => t.awaitDecision
  | _, awaitReport, t => t.awaitReport
  | _, ask q, t => t.ask q
  | _, endAsking ticket, t => quiet (t.endAsking ticket)
  | _, endQuery token record, t => quiet (t.endQuery token record)
  | _, matchStep s, t => t.matchStep s
  | _, diffScope s labels, t => t.diffScope s labels
  | _, handle m, t => quiet (t.handle m)
  | _, subUnitFinished r, t => quiet (t.subUnitFinished r)
  | _, release p, t => (t.canRelease, t.release p)
  | _, restart trace, t => (t.canRestart, t.restart trace)
  | _, endLocalPhase, t => quiet t.capture.endLocalPhase
  | _, grantClosures, t => (Turn.closureCount t.unit, t.grantClosures)
  | _, failStuck, t => quiet t.failStuck

end UnitOp

end ScopeGraphs
