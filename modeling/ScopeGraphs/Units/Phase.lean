/-!
# Phases of a unit

A unit is created, started, may for a while be undecided about reusing its previous result, then
runs or reuses, and is done in the end.
-/

namespace ScopeGraphs

/-- Where a unit stands in its life. -/
inductive Phase where
  /-- Created; its roots have not arrived. -/
  | created
  /-- Its checker has been started and has not committed itself. -/
  | started
  /-- Waiting for the decision between reuse and running. -/
  | undecided
  /-- Running. -/
  | active
  /-- Reusing its previous result. -/
  | released
  /-- Its checker has ended, or was given up. -/
  | done
  deriving DecidableEq, Inhabited, Repr

namespace Phase

/-- The word for a phase in messages. -/
def text : Phase → String
  | created => "InitUnit"
  | started => "InitTc"
  | undecided => "Unknown"
  | active => "Active"
  | released => "Released"
  | done => "Done"

/-- Phases in which a checker may use its unit. -/
def isLive : Phase → Bool
  | started | undecided | active | released => true
  | created | done => false

/-- All phases, in the order of a life. -/
def all : List Phase := [created, started, undecided, active, released, done]

end Phase

/-- How a unit arrived at its result. -/
inductive Trace where
  /-- It ran without an attempt at reuse. -/
  | initiallyStarted
  /-- Reuse was attempted and refused, and it ran again. -/
  | restarted
  /-- It reused its previous result. -/
  | released
  deriving DecidableEq, Inhabited, Repr

namespace Trace

/-- The word for a trace in reports. -/
def text : Trace → String
  | initiallyStarted => "InitiallyStarted"
  | restarted => "Restarted"
  | released => "Released"

/-- All traces, in the order of their checkpoint tags. -/
def all : List Trace := [initiallyStarted, restarted, released]

end Trace

end ScopeGraphs
