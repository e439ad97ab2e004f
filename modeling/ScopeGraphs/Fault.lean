import ScopeGraphs.Ident
import ScopeGraphs.Units.Phase

/-!
# Faults

What can go wrong, as causes. An answer that cannot be given yet is no fault: whoever asked
waits. `Fault.message` is the only place that knows the wording.
-/

namespace ScopeGraphs

/-- Why an operation is refused in the state its unit is in. -/
inductive Refusal where
  /-- The unit is not in a phase in which its checker may act. -/
  | inactive (unit : UnitId) (phase : Phase)
  /-- The unit has not decided whether it reuses its previous result. -/
  | undecided (unit : UnitId)
  /-- Only the owner of a scope sets its datum. -/
  | foreignDatum (unit : UnitId) (scope : Scope)
  /-- The datum of the scope is final. -/
  | datumClosed (scope : Scope)
  /-- The edges of the scope under the label are final. -/
  | labelClosed (label : Label) (scope : Scope)
  /-- The unit has not kept the label open on the scope of another unit. -/
  | labelNotShared (unit : UnitId) (label : Label) (scope : Scope)
  /-- The unit already has a sub-unit of that name. -/
  | subUnitExists (unit : UnitId) (name : String)
  /-- The sub-unit had another number of roots in the previous run. -/
  | rootCount (unit : UnitId) (before now : Nat)
  /-- The unit is past the moment at which it may ask for reuse. -/
  | lateReuse (unit : UnitId) (phase : Phase)
  /-- Reuse was granted to a unit without a previous result. -/
  | nothingToReuse
  /-- The previous result is that of another unit. -/
  | foreignPrevious (owner unit : UnitId)
  /-- A library is bound to another number of roots than it has. -/
  | libraryRootCount (expected given : Nat)
  /-- The roots of a library and its given roots do not pair up one to one. -/
  | libraryRoots
  /-- Confirmation by asking again has no way to confirm a part of a query. -/
  | wholeQueriesOnly
  /-- Any other reason. -/
  | other (text : String)
  deriving DecidableEq, Repr

namespace Refusal

/-- The wording of a refusal. -/
def message : Refusal → String
  | inactive u p => "unit " ++ u.text ++ " is not active (state " ++ p.text ++ ")"
  | undecided u =>
    "unit " ++ u.text ++ " cannot mutate the scope graph while its reuse is undecided"
  | foreignDatum u s => "unit " ++ u.text ++ " cannot set the datum of " ++ s.quoted
  | datumClosed s => "datum of " ++ s.quoted ++ " is closed"
  | labelClosed l s => "label " ++ quoted l ++ " of " ++ s.quoted ++ " is closed"
  | labelNotShared u l s =>
    "unit " ++ u.text ++ " has no open label " ++ quoted l ++ " on " ++ s.quoted
  | subUnitExists u n => "unit " ++ u.text ++ " already has a sub-unit named " ++ n
  | rootCount u before now =>
    "sub-unit " ++ u.text ++ " had " ++ toString before ++ " root scope(s), got " ++ toString now
  | lateReuse u p => "run_incremental called on " ++ u.text ++ " in state " ++ p.text
  | nothingToReuse => "reuse without a previous result"
  | foreignPrevious o u => "previous result belongs to " ++ o.text ++ ", not " ++ u.text
  | libraryRootCount expected given =>
    "library expects " ++ toString expected ++ " root scopes, got " ++ toString given
  | libraryRoots => "library root scopes must be distinct"
  | wholeQueriesOnly => "trivial confirmation only confirms whole queries"
  | other text => text

end Refusal

/-- A failure of an operation, a query or a whole run. -/
inductive Fault where
  /-- The operation is refused in the present state. -/
  | illegalState (why : Refusal)
  /-- There is no such unit. -/
  | unknownUnit (unit : UnitId)
  /-- The scope, given as text, was never created. -/
  | unknownScope (scope : String)
  /-- The unit does not answer any more. -/
  | unitUnavailable (unit : UnitId)
  /-- A checker failed. -/
  | checker (text : String)
  /-- The run ended without a result. -/
  | stuck (text : String)
  /-- A predicate on data failed. -/
  | predicate (text : String)
  /-- A checkpoint could not be written or read. -/
  | checkpoint (text : String)
  /-- The settings are not valid. -/
  | config (text : String)
  deriving DecidableEq, Repr

namespace Fault

/-- The word for the kind of a fault. -/
def kind : Fault → String
  | illegalState _ => "IllegalState"
  | unknownUnit _ => "UnknownUnit"
  | unknownScope _ => "UnknownScope"
  | unitUnavailable _ => "UnitUnavailable"
  | checker _ => "Checker"
  | stuck _ => "Stuck"
  | predicate _ => "Predicate"
  | checkpoint _ => "Checkpoint"
  | config _ => "Config"

/-- The fault of a kind with a text, or about the unit or the scope that the text names. -/
def ofKind? (kind text : String) : Option Fault :=
  [illegalState (.other text), unknownUnit ⟨text⟩, unknownScope text, unitUnavailable ⟨text⟩,
    checker text, stuck text, predicate text, checkpoint text, config text].find? fun f ↦
    f.kind = kind

/-- The wording of a fault. -/
def message : Fault → String
  | illegalState why => "Illegal state: " ++ why.message
  | unknownUnit u => "Unknown unit: " ++ u.text
  | unknownScope s => "Unknown scope: " ++ s
  | unitUnavailable u => "Unit " ++ u.text ++ " is unavailable"
  | checker text => "Checker failed: " ++ text
  | stuck text => "Engine stuck: " ++ text
  | predicate text => "Predicate error: " ++ text
  | checkpoint text => "Checkpoint error: " ++ text
  | config text => "Configuration error: " ++ text

end Fault

end ScopeGraphs
