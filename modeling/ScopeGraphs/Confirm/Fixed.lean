import ScopeGraphs.Confirm.Confirmation
import ScopeGraphs.Resolution.Static

/-!
# Confirmation between two fixed graphs

The context of a confirmation in a unit whose previous and current graphs do not change. Scopes of
other units are confirmed by verdicts given beforehand. The only state is the differ of the unit
and a list of the questions that were asked.
-/

namespace ScopeGraphs

/-- The verdict of another unit, given beforehand. -/
inductive GivenVerdict where
  /-- A verdict. -/
  | verdict (v : Verdict)
  /-- A failure of a checker. -/
  | fail (text : String)
  deriving DecidableEq

/-- How previous scopes are matched with current ones. -/
inductive Matching where
  /-- Every scope with itself. -/
  | identity
  /-- By a table. -/
  | table (pairs : List (Scope × Scope))
  /-- By what the differ has found so far. -/
  | differ
  deriving DecidableEq

/-- A question that a confirmation asked. -/
inductive ConfirmCall where
  /-- A query in the current graph. -/
  | query (path : Path)
  /-- A query in the previous graph. -/
  | queryPrevious (path : Path)
  /-- A confirmation by another unit. -/
  | external (path : Path) (pattern : Pattern) (prevEmpty : Bool)
  /-- What changed in what a query can see. -/
  | envDiff (path : Path)

/-- A unit with a fixed previous and a fixed current graph. -/
structure FixedGraphs where
  /-- The unit. -/
  owner : UnitId
  /-- The labels that queries follow. -/
  labels : List Label
  /-- The previous graph. -/
  previous : ScopeGraph
  /-- The current graph. -/
  current : ScopeGraph
  /-- How scopes are matched. -/
  matching : Matching
  /-- The verdicts of other units. -/
  verdicts : SortedMap UnitId GivenVerdict

/-- What changes during a confirmation between fixed graphs. -/
structure FixedState where
  /-- The differ of the unit. -/
  differ : Differ
  /-- The questions asked, in order. -/
  calls : List ConfirmCall

/-- A computation that may fail and asks questions on the way. -/
abbrev FixedM := ExceptT Fault (StateM FixedState)

namespace FixedGraphs

/-- The state in which the differ knows some pairs. -/
def start (g : FixedGraphs) (pairs : Renaming) : FixedState :=
  ⟨.start g.owner g.previous pairs, []⟩

/-- Notes a question. -/
def note (c : ConfirmCall) : FixedM PUnit := modify fun s ↦ { s with calls := s.calls ++ [c] }

/-- The difference of a scope of the unit. -/
def scopeDiff (g : FixedGraphs) (scope : Scope) : FixedM (Option ScopeDiff) :=
  modifyGet fun s ↦
    let (d, differ) := s.differ.diff scope g.current g.labels
    (d, { s with differ := differ })

/-- What changed in what a query can see. -/
def envDiff (g : FixedGraphs) (path : Path) (p : Pattern) (rule : DataRule QueryParams) :
    FixedM EnvDiff :=
  DiffContext.walk ⟨g.owner, g.scopeDiff⟩ rule (g.current.scopes.size + 2) path p

/-- The verdict of the owner of a path's end, unless that is the unit itself. -/
def external (g : FixedGraphs) (path : Path) (p : Pattern) (prevEmpty : Bool) :
    FixedM (Option Verdict) := do
  let owner := path.target.owner
  if owner = g.owner then pure none
  else
    note (.external path p prevEmpty)
    match g.verdicts[owner]? with
    | some (.verdict v) => pure (some v)
    | some (.fail text) => throw (.checker text)
    | none => throw (.unitUnavailable owner)

/-- The current counterpart of a previous scope. -/
def counterpart (g : FixedGraphs) (s : Scope) : FixedM (Option Scope) :=
  match g.matching with
  | .identity => pure (some s)
  | .table pairs => pure (pairs.lookup s)
  | .differ => do pure ((← get).differ.matchOf? s)

/-- The context of a confirmation in the unit. -/
def context (g : FixedGraphs) : ConfirmContext FixedM where
  query path q := do
    note (.query path)
    ExceptT.mk (pure (g.current.envOf g.labels path q))
  queryPrevious path q := do
    note (.queryPrevious path)
    ExceptT.mk (pure (g.previous.envOf g.labels path q))
  external path p _ prevEmpty := g.external path p prevEmpty
  envDiff path p rule := do
    note (.envDiff path)
    g.envDiff path p rule
  counterpart := g.counterpart

end FixedGraphs

end ScopeGraphs
