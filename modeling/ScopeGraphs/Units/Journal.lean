import ScopeGraphs.Units.Report

/-!
# Journals

A checker may write down what it asked of its unit and what the answer was. The journals of a run
show what its checkers saw, in the order in which each of them saw it.
-/

namespace ScopeGraphs

/-- The answer to something that a checker asked. -/
inductive Reply where
  /-- Nothing to tell. -/
  | nothing
  /-- The answer was put off. -/
  | later
  /-- Something that was named is not known. -/
  | unbound
  /-- A failure. -/
  | fault (f : Fault)
  /-- A yes or no. -/
  | flag (b : Bool)
  /-- Who the unit is: its id, the labels of the run, and root scopes. -/
  | identity (id : UnitId) (labels : List Label) (roots : List Scope)
  /-- A scope. -/
  | scope (s : Scope)
  /-- The answer to a query. -/
  | env (e : Env)
  /-- The report of a sub-unit. -/
  | report (r : Report)
  /-- The previous result, if there is one. -/
  | previous (d : Option Datum)
  /-- The previous result is reused under a renaming. -/
  | reuse (result : Datum) (p : Renaming)
  /-- The unit runs, and may resume the state that its checker had written down. -/
  | restart (state : Option Checkpoint)
  /-- Several answers. -/
  | all (replies : List Reply)

/-- An entry of a journal. -/
structure JournalEntry where
  /-- What was asked. -/
  call : String
  /-- The answer. -/
  reply : Reply

end ScopeGraphs
