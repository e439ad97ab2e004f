import ScopeGraphs.Checkpoint.Shape
import ScopeGraphs.Graph.Basic
import ScopeGraphs.Query.Record
import ScopeGraphs.Units.Phase

/-!
# Reports

What a unit reports when it is finished: its fragment of the scope graph, what its checker asserted,
the result, the recorded queries and the reports of its sub-units. A report is all that a later run
needs to reuse the result, and the reports of one run form a tree.
-/

namespace ScopeGraphs

/-! ## Snapshots -/

/-- The state of a unit at the end of its local phase. -/
structure Snapshot where
  /-- The scopes it had created. -/
  scopes : SortedSet Scope
  /-- What it had asserted. -/
  graph : ScopeGraph
  /-- Its own scopes that it still had to initialise. -/
  uninitialized : List Scope
  /-- Its own scopes that it was still sharing. -/
  openScopes : List Scope
  /-- Slots that it had not closed, on its own scopes and on shared scopes of others. -/
  openSlots : List (Scope × Slot)
  /-- The next number for each base of scope names. -/
  counters : SortedMap String Nat
  /-- The state its checker had written down. -/
  checkerState : Option Checkpoint
  deriving DecidableEq

/-! ## Reports -/

/-- What a finished unit reports. -/
inductive Report where
  /-- Id, root scopes, fragment, assertions, result, reports of sub-units by name and in order,
  recorded queries, snapshot, trace and failures. -/
  | mk (id : UnitId) (roots : List Scope) (graph localGraph : ScopeGraph)
    (result : Option Datum) (subs : List (String × Report)) (queries : List QueryRecord)
    (snapshot : Option Snapshot) (trace : Trace) (failures : List String)

namespace Report

/-- The unit. -/
def id : Report → UnitId
  | mk i _ _ _ _ _ _ _ _ _ => i

/-- The root scopes it was handed. -/
def roots : Report → List Scope
  | mk _ r _ _ _ _ _ _ _ _ => r

/-- The fragment of the scope graph it owns. -/
def graph : Report → ScopeGraph
  | mk _ _ g _ _ _ _ _ _ _ => g

/-- The edges and data it asserted itself. -/
def localGraph : Report → ScopeGraph
  | mk _ _ _ g _ _ _ _ _ _ => g

/-- The result of its checker. -/
def result : Report → Option Datum
  | mk _ _ _ _ r _ _ _ _ _ => r

/-- The reports of its sub-units, by name and in order. -/
def subs : Report → List (String × Report)
  | mk _ _ _ _ _ s _ _ _ _ => s

/-- The queries it recorded. -/
def queries : Report → List QueryRecord
  | mk _ _ _ _ _ _ q _ _ _ => q

/-- The snapshot taken at the end of its local phase. -/
def snapshot : Report → Option Snapshot
  | mk _ _ _ _ _ _ _ s _ _ => s

/-- How it arrived at its result. -/
def trace : Report → Trace
  | mk _ _ _ _ _ _ _ _ t _ => t

/-- What went wrong in it. -/
def failures : Report → List String
  | mk _ _ _ _ _ _ _ _ _ f => f

/-- The report of a sub-unit. -/
def sub? (r : Report) (name : String) : Option Report := r.subs.lookup name

/-! ## Whole trees -/

mutual

/-- The failures of the unit and of all units below it, each after the id of its unit. -/
def allFailures : Report → List String
  | mk id _ _ _ _ subs _ _ _ failures =>
    failures.map (fun f ↦ id.text ++ ": " ++ f) ++ subsFailures subs

/-- The failures in several trees. -/
def subsFailures : List (String × Report) → List String
  | [] => []
  | (_, r) :: rs => allFailures r ++ subsFailures rs

end

mutual

/-- Whether nothing went wrong in the unit and in all units below it. -/
def isOk : Report → Bool
  | mk _ _ _ _ _ subs _ _ _ failures => failures.isEmpty && subsOk subs

/-- Whether nothing went wrong in several trees. -/
def subsOk : List (String × Report) → Bool
  | [] => true
  | (_, r) :: rs => isOk r && subsOk rs

end

mutual

/-- The fragments of the unit and of all units below it, put together. -/
def totalGraph : Report → ScopeGraph
  | mk _ _ graph _ _ subs _ _ _ _ => addSubGraphs graph subs

/-- Adds the fragments in several trees to a graph. -/
def addSubGraphs (g : ScopeGraph) : List (String × Report) → ScopeGraph
  | [] => g
  | (_, r) :: rs => addSubGraphs (g.union (totalGraph r)) rs

end

/-- The report of a unit below this one, by the local names on the way to it. -/
def find? : Report → List String → Option Report
  | r, [] => some r
  | r, name :: names => (r.sub? name).bind fun s ↦ s.find? names

end Report

end ScopeGraphs
