import ScopeGraphs.Diff.Scope
import ScopeGraphs.Library
import ScopeGraphs.Settings
import ScopeGraphs.Units.Message
import ScopeGraphs.Wait.Token

/-!
# Units

A unit owns a fragment of the scope graph. It runs a checker, stands in for a unit of the previous
run, or serves a library. What it does next to changing itself is collected in `Effects` and carried
out by the engine afterwards, so the code of a unit sees nothing but the unit: a `Turn` is a unit
together with the effects of what it did in one go.

`γ` is the type of the checkers' code, about which units need to know nothing.
-/

namespace ScopeGraphs

variable {γ : Type}

/-! ## Units -/

/-- What a unit is there for. -/
inductive UnitKind (γ : Type) where
  /-- It runs a checker. -/
  | checker (code : γ)
  /-- It stands in for a unit of the previous run. One that replays rebuilds its previous fragment,
  any other only answers questions about the previous run. -/
  | phantom (replay : Bool)
  /-- It serves a library. -/
  | library (lib : Library)

/-- Whether units of a kind run a checker. -/
def UnitKind.isChecker : UnitKind γ → Bool
  | checker _ => true
  | _ => false

/-- Somebody waiting for a slot of a scope to be closed. -/
structure Delay where
  /-- The scope. -/
  scope : Scope
  /-- The slot. -/
  slot : Slot
  /-- Where to send the news. -/
  reply : ChannelId
  deriving DecidableEq, Repr

/-- A unit. -/
structure UnitNode (γ : Type) where
  /-- Its id. -/
  id : UnitId
  /-- The unit that added it. -/
  parent : Option UnitId
  /-- What it is there for. -/
  kind : UnitKind γ
  /-- Where it stands. -/
  phase : Phase
  /-- The scopes it was handed. -/
  roots : List Scope
  /-- The scopes it created. -/
  scopes : SortedSet Scope
  /-- The next number for each base of scope names. -/
  counters : SortedMap String Nat
  /-- The fragment it owns, with edges that other units added. -/
  graph : ScopeGraph
  /-- What it asserted itself, on its own scopes and on shared ones. -/
  localGraph : ScopeGraph
  /-- Slots that it keeps open on scopes of other units. -/
  shared : SortedMap Scope (SortedSet Slot)
  /-- Scopes of other units that it has initialised. -/
  initialized : SortedSet Scope
  /-- What it waits for. -/
  waits : TokenBag
  /-- Who waits for its slots to be closed. -/
  delays : List Delay
  /-- Its report in the previous run. -/
  previous : Option Report
  /-- Whether it is known to have changed. -/
  changed : Bool
  /-- Previous root scopes of sub-units, paired with those handed out now. -/
  sharedPairs : Renaming
  /-- The queries it recorded. -/
  queries : List QueryRecord
  /-- Its sub-units by name. -/
  subUnits : SortedMap String UnitId
  /-- The reports of its sub-units by name. -/
  subReports : SortedMap String Report
  /-- How its checker ended: with a result, or without one. -/
  outcome : Option (Option Datum)
  /-- What went wrong. -/
  failures : List String
  /-- How it became active. -/
  trace : Trace
  /-- Settled when it is active. -/
  whenActive : Promise Activation
  /-- Settled when its local phase is over. -/
  whenOpen : Promise PUnit
  /-- Whether answers of its sub-units and queries are held back. -/
  inLocalPhase : Bool
  /-- Settled when the decision about reuse is taken. -/
  decision : Promise (Option Renaming)
  /-- The renaming under which it reuses its previous result. -/
  reuse : Option Renaming
  /-- The comparison with its previous run. -/
  differ : Option Differ
  /-- Its state at the end of the local phase. -/
  snapshot : Option Snapshot
  /-- Whether its checker has begun to work. -/
  begun : Bool
  /-- The state that its checker last wrote down. -/
  checkerState : Option Checkpoint
  /-- Settled when it is finished. -/
  report : Promise Report
  /-- Whether it is finished. -/
  finished : Bool

namespace UnitNode

/-- A unit that has not been started. -/
def new (id : UnitId) (parent : Option UnitId) (kind : UnitKind γ) (previous : Option Report)
    (changed localPhase : Bool) : UnitNode γ where
  id := id
  parent := parent
  kind := kind
  phase := .created
  roots := []
  scopes := ∅
  counters := ∅
  graph := .empty
  localGraph := .empty
  shared := ∅
  initialized := ∅
  waits := .empty
  delays := []
  previous := previous
  changed := changed
  sharedPairs := .identity
  queries := []
  subUnits := ∅
  subReports := ∅
  outcome := none
  failures := []
  trace := .initiallyStarted
  whenActive := .fresh
  whenOpen := if localPhase then .fresh else .settled ⟨⟩
  inLocalPhase := localPhase
  decision := .fresh
  reuse := none
  differ := none
  snapshot := none
  begun := false
  checkerState := none
  report := .fresh
  finished := false

/-- Whether the unit owns a scope. -/
def owns (u : UnitNode γ) (s : Scope) : Bool := s.owner = u.id

/-- The code of its checker. -/
def code? (u : UnitNode γ) : Option γ :=
  match u.kind with
  | .checker code => some code
  | _ => none

/-- Whether the unit stands in for one that is gone. -/
def isRemoved (u : UnitNode γ) : Bool :=
  match u.kind with
  | .phantom false => true
  | _ => false

/-- The renaming under which the unit reuses its previous result, or the identity. -/
def reuseOrIdentity (u : UnitNode γ) : Renaming := u.reuse.getD .identity

/-- Whether the unit keeps a slot of another unit's scope open. -/
def shares (u : UnitNode γ) (s : Scope) (slot : Slot) : Bool :=
  (u.shared[s]?).any fun slots ↦ slots.contains slot

/-- Whether no more can come to a slot of a scope from this unit or through it. For a scope of
another unit only what this unit itself may still add counts. -/
def isClosed (u : UnitNode γ) (s : Scope) (slot : Slot) : Bool :=
  if u.owns s then !u.waits.isOpen s slot else !u.shares s slot

/-- Whether the only thing the unit waits for is its own activation. -/
def waitsOnlyForActivation (u : UnitNode γ) : Bool :=
  !u.waits.isEmpty && u.waits.entries.all fun e ↦ e.1 = .activate && e.2 = u.id

/-- Whether all sub-units have reported. -/
def allReported (u : UnitNode γ) : Bool :=
  u.subUnits.keys.all fun name ↦ u.subReports.contains name

/-- Whether nothing keeps the unit from being finished. -/
def canFinish (u : UnitNode γ) : Bool :=
  !u.finished && u.outcome.isSome && u.waits.isEmpty && u.allReported

/-- The report of the unit as it stands. -/
def currentReport (u : UnitNode γ) : Report :=
  .mk u.id u.roots u.graph u.localGraph u.outcome.join u.subReports.toList u.queries u.snapshot
    u.trace u.failures

/-- The pairs of previous root scopes and those handed to the unit, in order; a pair in conflict
with earlier ones is left out. -/
def rootPairs (u : UnitNode γ) (p : Renaming) : Renaming :=
  match u.previous with
  | some prev => p.putEach (prev.roots.zip u.roots)
  | none => p

end UnitNode

/-! ## Turns -/

/-- Work that goes on beside the handling of messages. -/
inductive Task (γ : Type) where
  /-- Runs the checker of a unit. -/
  | runChecker (unit : UnitId) (code : γ) (roots : List Scope)
  /-- Decides about reuse by confirming the queries of the previous run. -/
  | confirmOwn (unit : UnitId)
  /-- Answers a query. -/
  | answerQuery (unit sender : UnitId) (path : Path) (params : QueryParams) (reply : ChannelId)
  /-- Answers a query about the previous run. -/
  | answerPrevious (unit : UnitId) (path : Path) (params : QueryParams) (reply : ChannelId)
  /-- Confirms a path. -/
  | answerConfirm (unit sender : UnitId) (path : Path) (pattern : Pattern)
    (rule : DataRule QueryParams) (prevEmpty : Bool) (reply : ChannelId)
  /-- Tells the counterpart of a previous scope. -/
  | answerCounterpart (unit : UnitId) (scope : Scope) (reply : ChannelId)

/-- A change to what a unit waits for. -/
inductive WaitEvent where
  /-- A token was raised. -/
  | raised (t : Token) (holder : UnitId)
  /-- A token was granted. -/
  | granted (t : Token) (holder : UnitId)

/-- What a unit wants to happen next. -/
structure Effects (γ : Type) where
  /-- Tasks that may go on. -/
  woken : List TaskId
  /-- Changes to what the unit waits for. -/
  waits : List WaitEvent
  /-- Units to be added. -/
  newUnits : List (UnitNode γ)
  /-- Messages to be sent. -/
  messages : List (UnitId × Message)
  /-- Tasks to be spawned. -/
  tasks : List (Task γ)
  /-- The report, if the unit has just finished. -/
  finished : Option Report

/-- No effects. -/
def Effects.none : Effects γ := ⟨[], [], [], [], [], .none⟩

/-- A unit in the course of one go. -/
structure Turn (γ : Type) where
  /-- The unit. -/
  unit : UnitNode γ
  /-- What it wants to happen next. -/
  effects : Effects γ
  /-- The settings of the run. -/
  settings : Settings
  /-- The channels of the run. -/
  channels : Channels Parcel
  /-- The number of the next request. -/
  nextRequest : Nat

namespace Turn

/-- Changes the unit. -/
def edit (t : Turn γ) (f : UnitNode γ → UnitNode γ) : Turn γ := { t with unit := f t.unit }

/-- Sends a message. -/
def send (t : Turn γ) (receiver : UnitId) (m : Message) : Turn γ :=
  { t with effects := { t.effects with messages := t.effects.messages ++ [(receiver, m)] } }

/-- Spawns a task. -/
def spawn (t : Turn γ) (task : Task γ) : Turn γ :=
  { t with effects := { t.effects with tasks := t.effects.tasks ++ [task] } }

/-- Adds a unit. -/
def addUnit (t : Turn γ) (u : UnitNode γ) : Turn γ :=
  { t with effects := { t.effects with newUnits := t.effects.newUnits ++ [u] } }

/-- Ends the sending side of a channel, with a value or without one. -/
def fill (state : ChannelState Parcel) (t : Turn γ) (c : ChannelId) : Turn γ :=
  let (waker, channels) := t.channels.fill c state
  { t with
    channels := channels
    effects := { t.effects with woken := t.effects.woken ++ waker.toList } }

/-- Sends a value to several receivers, in order. -/
def tell (t : Turn γ) (receivers : List ChannelId) (p : Parcel) : Turn γ :=
  receivers.foldl (fill (.full p)) t

/-- Makes a channel and says which. -/
def newChannel (t : Turn γ) : ChannelId × Turn γ :=
  (t.channels.next, { t with channels := t.channels.create })

/-- Takes the number of a request. -/
def newRequest (t : Turn γ) : Nat × Turn γ :=
  (t.nextRequest, { t with nextRequest := t.nextRequest + 1 })

/-! ### Promises of the unit -/

/-- Lets it be known that the unit is active. -/
def settleActive (t : Turn γ) (a : Activation) : Turn γ :=
  (t.edit fun u ↦ { u with whenActive := u.whenActive.settle a }).tell
    t.unit.whenActive.waiters (.activation a)

/-- Lets the decision about reuse be known. -/
def settleDecision (t : Turn γ) (p : Option Renaming) : Turn γ :=
  (t.edit fun u ↦ { u with decision := u.decision.settle p }).tell
    t.unit.decision.waiters (.decision p)

/-- Ends the local phase. -/
def endLocalPhase (t : Turn γ) : Turn γ :=
  (t.edit fun u ↦ { u with inLocalPhase := false, whenOpen := u.whenOpen.settle ⟨⟩ }).tell
    t.unit.whenOpen.waiters .signal

/-! ### Waiting -/

/-- Raises a token. -/
def waitFor (t : Turn γ) (token : Token) (holder : UnitId) : Turn γ :=
  { t with
    unit := { t.unit with waits := t.unit.waits.add token holder }
    effects := { t.effects with waits := t.effects.waits ++ [.raised token holder] } }

/-- Raises several tokens towards one unit. -/
def waitForAll (t : Turn γ) (tokens : List Token) (holder : UnitId) : Turn γ :=
  tokens.foldl (fun t token ↦ t.waitFor token holder) t

/-- Tells everybody who waits for a slot that is closed now. -/
def fireDelays (t : Turn γ) : Turn γ :=
  let closed := t.unit.delays.filter fun d ↦ t.unit.isClosed d.scope d.slot
  let rest := t.unit.delays.filter fun d ↦ !t.unit.isClosed d.scope d.slot
  (t.edit fun u ↦ { u with delays := rest }).tell (closed.map Delay.reply) .signal

/-- Finishes the unit if nothing keeps it from that. -/
def tryFinish (t : Turn γ) : Turn γ :=
  if t.unit.canFinish then
    let report := t.unit.currentReport
    let t := (t.edit fun u ↦
      { u with finished := true, phase := .done, report := u.report.settle report }).tell
        t.unit.report.waiters (.report report)
    { t with effects := { t.effects with finished := some report } }
  else t

/-- Grants a token, if it is there. -/
def grant (t : Turn γ) (token : Token) (holder : UnitId) : Turn γ :=
  match t.unit.waits.remove? token holder with
  | none => t
  | some waits =>
    let t : Turn γ :=
      { t with
        unit := { t.unit with waits := waits }
        effects := { t.effects with waits := t.effects.waits ++ [.granted token holder] } }
    t.fireDelays.tryFinish

/-- Grants several tokens. -/
def grantAll (t : Turn γ) (tokens : List (Token × UnitId)) : Turn γ :=
  tokens.foldl (fun t e ↦ t.grant e.1 e.2) t

end Turn

end ScopeGraphs
