import ScopeGraphs.Confirm.Confirmation
import ScopeGraphs.Engine.Answering

/-!
# Confirming on behalf of units

How a unit finds out whether its previous result still holds, and how it answers the questions of
other units who want to know the same: whether a path leads to the same environment as before, and
what the current counterpart of a previous scope is.

A running unit compares its scopes with those of its previous run as they are closed. A unit that
reuses its result, or is still undecided, reports its previous fragment under its renaming. A
stand-in for a unit that is gone confirms only what was empty before.
-/

namespace ScopeGraphs

variable {γ : Type}

/-- The verdict in a parcel. -/
def Parcel.verdict? : Parcel → Option (Except Fault Verdict)
  | verdict v => some v
  | _ => none

/-- The counterpart in a parcel. -/
def Parcel.counterpart? : Parcel → Option (Except Fault (Option Scope))
  | counterpart s => some s
  | _ => none

namespace Confirming

open ScopeGraphs.Flow

variable (presented : Presentation γ) (setup : Setup)

/-! ## Comparing -/

/-- Waits until every slot of a scope is closed, slot by slot. -/
def untilAllClosed (unit : UnitId) (s : Scope) : List Slot → Flow γ PUnit
  | [] => pure ⟨⟩
  | slot :: slots => do
    untilClosed unit s slot
    untilAllClosed unit s slots

/-- Compares a scope of a running unit with its previous counterpart, once it is closed. -/
def explore (unit : UnitId) (s : Scope) : Flow γ (Option ScopeDiff) := do
  untilAllClosed unit s (setup.labels.map .edge ++ [.datum])
  onUnit unit (.diffScope s setup.labels)

/-- The difference of a scope of a unit. -/
def scopeDiff (unit : UnitId) (s : Scope) : Flow γ (Option ScopeDiff) := do
  if ← look unit fun u ↦ u.differ.isSome then explore setup unit s
  else look unit fun u ↦ u.reusedDiff s setup.labels

/-- What changed in what a query in a unit can see. -/
def envDiff (unit : UnitId) (path : Path) (p : Pattern) (rule : DataRule QueryParams) :
    Flow γ EnvDiff := do
  let depth ← look unit fun u ↦ u.graph.scopes.size + headroom
  DiffContext.walk ⟨unit, scopeDiff setup unit⟩ rule depth path p

/-- Searches for the counterpart of a previous scope of a unit, and compares scopes on the way, at
most as many as given. -/
def searchCounterpart (unit : UnitId) (s : Scope) : Nat → Flow γ (Option Scope)
  | 0 => pure none
  | n + 1 => do
    match ← onUnit unit (.matchStep s) with
    | .done current => pure current
    | .explore next => do
      discard (explore setup unit next)
      searchCounterpart unit s n

/-- The current counterpart of a previous scope of a unit. -/
def localCounterpart (unit : UnitId) (s : Scope) : Flow γ (Option Scope) :=
  searchCounterpart setup unit s headroom

/-- The current counterpart of a previous scope. -/
def counterpart (unit : UnitId) (s : Scope) : Flow γ (Option Scope) :=
  if s.owner = unit then localCounterpart setup unit s
  else ask unit (.counterpart s) Parcel.counterpart?

/-! ## Confirming -/

/-- The verdict of the unit that owns the end of a path, unless that is the unit at hand. -/
def external (unit : UnitId) (path : Path) (p : Pattern) (rule : DataRule QueryParams)
    (prevEmpty : Bool) : Flow γ (Option Verdict) :=
  if path.target.owner = unit then pure none
  else some <$> ask unit (.confirm path p rule prevEmpty) Parcel.verdict?

/-- The context of a confirmation in a unit on behalf of the unit that asked. -/
def context (unit sender : UnitId) : ConfirmContext (Flow γ) where
  query path q := QueryAnswer.env <$> Answering.resolve presented setup unit sender path q
  queryPrevious path q := Answering.resolvePrevious setup unit path q
  external := external unit
  envDiff := envDiff setup unit
  counterpart := counterpart setup unit

/-- The verdict of a stand-in for a unit that is gone: all that the unit contributed is missing
now, so only what was empty stays the same. -/
def confirmRemoved (unit : UnitId) (path : Path) (p : Pattern) (rule : DataRule QueryParams)
    (prevEmpty : Bool) : Flow γ Verdict :=
  if prevEmpty then pure .confirmed
  else do
    let env ← Answering.resolvePrevious setup unit path (.unordered p rule)
    pure (.ofEmpty env.isEmpty)

/-- Confirms a path in a unit on behalf of the unit that asked. -/
def answerConfirm (unit sender : UnitId) (path : Path) (p : Pattern)
    (rule : DataRule QueryParams) (prevEmpty : Bool) : Flow γ Verdict := do
  if ← look unit UnitNode.isRemoved then confirmRemoved setup unit path p rule prevEmpty
  else
    untilDecided unit
    (context presented setup unit sender).confirm setup.settings.confirmationMode path p rule
      prevEmpty

/-- Tells the counterpart of a scope as soon as the unit has decided about reuse. -/
def answerCounterpart (unit : UnitId) (s : Scope) : Flow γ (Option Scope) := do
  untilDecided unit
  localCounterpart setup unit s

/-- The verdict on all queries that a unit recorded in its previous run. What fails is denied. -/
def ownVerdict (unit : UnitId) (qs : List QueryRecord) : Flow γ Verdict :=
  tryCatch ((context presented setup unit unit).confirmAll setup.settings.confirmationMode qs)
    fun _ ↦ pure .deny

/-- Decides whether a unit reuses its previous result. -/
def confirmOwn (unit : UnitId) : Flow γ PUnit := do
  let qs ← look unit UnitNode.previousQueries
  match ← ownVerdict presented setup unit qs with
  | .confirm p => discard (onUnit unit (.release p))
  | .deny => discard (onUnit unit (.restart .restarted))

end Confirming

end ScopeGraphs
