import ScopeGraphs.Confirm.Verdict
import ScopeGraphs.Query.Record
import ScopeGraphs.Task.Channel
import ScopeGraphs.Units.Report

/-!
# Messages

Units talk to each other through messages, which every unit handles in the order of their arrival.
A message that asks for something names the channel for the answer; the asking side raises and
grants the token for it itself. What travels through channels is a `Parcel`.
-/

namespace ScopeGraphs

/-- How a unit became active. -/
inductive Activation where
  /-- Its checker runs. -/
  | running
  /-- Its previous result is reused. -/
  | reusing
  deriving DecidableEq, Repr

/-- What travels through a channel. -/
inductive Parcel where
  /-- The answer to a query. -/
  | answer (a : Except Fault QueryAnswer)
  /-- The answer to a query about the previous run. -/
  | previous (e : Except Fault Env)
  /-- The verdict on a path. -/
  | verdict (v : Except Fault Verdict)
  /-- The counterpart of a previous scope. -/
  | counterpart (s : Except Fault (Option Scope))
  /-- The news that a unit is active. -/
  | activation (a : Activation)
  /-- The news that a slot is closed or that a local phase is over. -/
  | signal
  /-- The decision about reuse: the renaming under which a result is reused, if it is. -/
  | decision (p : Option Renaming)
  /-- The report of a sub-unit. -/
  | report (r : Report)

/-- What units tell and ask each other. -/
inductive Message where
  /-- Start, with these root scopes. -/
  | start (roots : List Scope)
  /-- A sub-unit has started. -/
  | unitStarted (sender : UnitId)
  /-- The sender has initialised a scope: it will add edges under some labels only, and says
  whether it shares the scope further. -/
  | initShare (sender : UnitId) (scope : Scope) (slots : List Slot) (sharing : Bool)
  /-- The sender will initialise a scope. -/
  | addShare (sender : UnitId) (scope : Scope)
  /-- An edge of a scope of the receiver. -/
  | addEdge (sender : UnitId) (edge : Edge)
  /-- The sender adds nothing more to a slot of a scope. -/
  | closeEdge (sender : UnitId) (scope : Scope) (slot : Slot)
  /-- The sender no longer shares a scope. -/
  | closeScope (sender : UnitId) (scope : Scope)
  /-- Resolve a path. -/
  | query (sender : UnitId) (path : Path) (params : QueryParams) (reply : ChannelId)
  /-- Resolve a path in the graph of the previous run. -/
  | queryPrevious (sender : UnitId) (path : Path) (params : QueryParams) (reply : ChannelId)
  /-- Confirm that a path leads to the same environment as before. -/
  | confirm (sender : UnitId) (path : Path) (pattern : Pattern) (rule : DataRule QueryParams)
    (prevEmpty : Bool) (reply : ChannelId)
  /-- Tell the current counterpart of a previous scope. -/
  | counterpart (sender : UnitId) (scope : Scope) (reply : ChannelId)

end ScopeGraphs
