import ScopeGraphs.Engine.Answering

/-!
# Calls of a checker

Calls whose answers take time: queries, sub-units and the question whether the previous result is
reused. A call acts on the unit at once; the answer is awaited later, or never. Answers to queries
and reports of sub-units are held back until the local phase of the unit is over.
-/

namespace ScopeGraphs

variable {γ : Type}

/-- The decision about reuse as its checker gets to see it. -/
inductive ReuseDecision where
  /-- The previous result still holds, under a renaming that has been applied to it. -/
  | reuse (result : Datum) (p : Renaming)
  /-- The unit runs, and may resume the state that its checker had written down. -/
  | restart (state : Option Checkpoint)

/-- The answer to a call. -/
inductive CallAnswer where
  /-- The answer to a query. -/
  | env (e : Env)
  /-- The report of a sub-unit. -/
  | report (r : Report)
  /-- The decision about reuse. -/
  | decision (d : ReuseDecision)

/-- A call that has been made and whose answer nobody has awaited yet. -/
inductive PendingCall where
  /-- The call was refused. -/
  | refused (f : Fault)
  /-- A query of a unit, with the token for its answer. -/
  | query (unit : UnitId) (token : Token) (path : Path) (params : QueryParams)
  /-- A sub-unit of a unit. -/
  | subUnit (unit child : UnitId)
  /-- The reuse of a unit's previous result, which is being decided or out of the question. -/
  | reuse (unit : UnitId) (undecided : Bool)

namespace Flow

/-- Waits until the local phase of a unit is over. -/
def untilOpen (u : UnitId) : Flow γ PUnit := do discard (await (← onUnit u .awaitOpen))

end Flow

namespace PendingCall

open ScopeGraphs.Flow

/-! ## Making calls -/

/-- A call that was made by an action of the checker. -/
def ofAction {α : Type} (unit : UnitId) (a : Action γ α) (pending : α → PendingCall) :
    Proc γ PendingCall := do
  match ← (act unit a).run with
  | .ok x => pure (pending x)
  | .error f => pure (refused f)

/-- Asks a query from a scope. -/
def makeQuery (unit : UnitId) (s : Scope) (q : QueryParams) : Proc γ PendingCall :=
  ofAction unit (.beginQuery (.start s)) fun token ↦ query unit token (.start s) q

/-- Adds a sub-unit. -/
def addSubUnit (unit : UnitId) (name : String) (kind : UnitKind γ) (roots : List Scope)
    (changed : Bool) : Proc γ PendingCall :=
  ofAction unit (.addSubUnit name kind roots changed) (subUnit unit)

/-- Asks for reuse. -/
def askForReuse (unit : UnitId) : Proc γ PendingCall :=
  ofAction unit .askForReuse (reuse unit)

/-! ## Awaiting answers -/

variable (presented : Presentation γ) (setup : Setup)

/-- Resolves a query of a checker, records it if it got an answer, and holds the answer back until
the local phase is over. -/
def awaitQuery (unit : UnitId) (token : Token) (path : Path) (q : QueryParams) : Flow γ Env := do
  let answer ← ExceptT.mk (.ok <$> (Answering.resolve presented setup unit unit path q).run)
  onUnit unit (.endQuery token (answer.toOption.map fun a ↦ a.record path q))
  untilOpen unit
  ExceptT.mk (pure (answer.map QueryAnswer.env))

/-- Waits for the report of a sub-unit, and then until the local phase is over. -/
def awaitReport (unit child : UnitId) : Flow γ Report := do
  let parcel ← await (← onUnit child .awaitReport)
  untilOpen unit
  match parcel with
  | some (.report r) => pure r
  | _ => throw (.unitUnavailable child)

/-- Waits for the decision about reuse. -/
def awaitDecision (unit : UnitId) (undecided : Bool) : Flow γ ReuseDecision :=
  if undecided then do
    match ← await (← onUnit unit .awaitDecision) with
    | some (.decision p) =>
      match ← look unit UnitNode.previous with
      | none => throw (.illegalState .nothingToReuse)
      | some previous =>
        match p, previous.result with
        | some p, some d => pure (.reuse (d.rename p) p)
        | _, _ => pure (.restart (previous.snapshot.bind Snapshot.checkerState))
    | _ => throw (.unitUnavailable unit)
  else pure (.restart none)

/-- Waits for the answer to a call. -/
def answer : PendingCall → Flow γ CallAnswer
  | refused f => throw f
  | query unit token path q => .env <$> awaitQuery presented setup unit token path q
  | subUnit unit child => .report <$> awaitReport unit child
  | reuse unit undecided => .decision <$> awaitDecision unit undecided

end PendingCall

end ScopeGraphs
