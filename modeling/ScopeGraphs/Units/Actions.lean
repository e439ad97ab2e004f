import ScopeGraphs.Units.Life

/-!
# What a checker does with its unit

The operations by which a checker builds the scope graph of its unit, asks queries, adds sub-units
and asks for reuse. Each takes effect at once or is refused. A unit that has not committed itself
to running or reusing is made to run by any operation that changes the graph or asks a query; a
unit whose reuse is still undecided refuses such operations.

A refused operation leaves the unit as it was, except that it may have made the unit run.
-/

namespace ScopeGraphs

variable {γ : Type}

namespace Turn

/-- Notes that a unit has initialised a scope of this unit: waits for it to close what it keeps
open, and no longer for the initialisation. -/
def shareInitialized (t : Turn γ) (sender : UnitId) (s : Scope) (slots : List Slot)
    (sharing : Bool) : Turn γ :=
  let t := t.waitForAll (slots.map (.closeSlot s)) sender
  let t := if sharing then t.waitFor (.closeScope s) sender else t
  t.grant (.initScope s) sender

/-- Notes that a unit will initialise a scope of this unit. -/
def shareAnnounced (t : Turn γ) (sharer : UnitId) (s : Scope) : Turn γ :=
  t.waitFor (.initScope s) sharer

/-- Keeps slots of another unit's scope open. -/
def keepOpen (t : Turn γ) (s : Scope) (slots : List Slot) : Turn γ :=
  t.edit fun u ↦
    { u with
      initialized := u.initialized.insert s
      shared := u.shared.insert s
        (slots.foldl (fun set slot ↦ set.insert slot) ((u.shared[s]?).getD ∅)) }

/-- Closes a slot of another unit's scope on the part of this unit. -/
def dropShared (t : Turn γ) (s : Scope) (slot : Slot) : Turn γ :=
  (t.edit fun u ↦
    { u with shared := u.shared.insert s (((u.shared[s]?).getD ∅).erase slot) }).fireDelays

end Turn

/-- An operation that may be refused. -/
abbrev Attempt (γ α : Type) := ExceptT Fault (StateM (Turn γ)) α

namespace Attempt

/-- The unit as it stands. -/
def unit : Attempt γ (UnitNode γ) := Turn.unit <$> get

/-- A change that cannot be refused. -/
def change (f : Turn γ → Turn γ) : Attempt γ PUnit := modify f

/-- Goes on only if a condition holds. -/
def require (ok : Bool) (fault : Fault) : Attempt γ PUnit := if ok then pure ⟨⟩ else throw fault

/-- Goes on only if the checker may act. -/
def requireLive : Attempt γ PUnit := do
  let u ← unit
  require (u.phase.isLive && !u.finished) (.illegalState (.inactive u.id u.phase))

/-- Goes on only if a scope of the unit was created by it. -/
def requireKnown (s : Scope) : Attempt γ PUnit := do
  let u ← unit
  require (u.scopes.contains s) (.unknownScope s.quoted)

/-- Makes an uncommitted unit run; an undecided one refuses. -/
def commit : Attempt γ PUnit := do
  let u ← unit
  match u.phase with
  | .started => change (Turn.restart · .initiallyStarted)
  | .undecided => throw (.illegalState (.undecided u.id))
  | _ => pure ⟨⟩

/-! ## Scopes -/

/-- The number that the next scope name with a base gets. -/
def nextNumber (u : UnitNode γ) (base : String) : Nat := (u.counters[base]?).getD 0

/-- The scope that a unit creates next for a base. -/
def nextScope (u : UnitNode γ) (base : String) : Scope :=
  ⟨u.id, base ++ "-" ++ toString (nextNumber u base)⟩

/-- Creates a scope. It stays open for edges under the given labels and for a datum until these are
closed, and for sharing until it is closed as a whole. A scope to be shared commits the unit to
nothing. -/
def freshScope (base : String) (labels : List Label) (hasDatum sharing : Bool) :
    Attempt γ Scope := do
  requireLive
  if sharing then pure ⟨⟩ else commit
  let u ← unit
  let s := nextScope u base
  change fun t ↦ t.edit fun u ↦
    { u with
      counters := u.counters.insert base (nextNumber u base + 1)
      scopes := u.scopes.insert s }
  let slots := labels.map .edge ++ (if hasDatum then [.datum] else [])
  let tokens := slots.map (.closeSlot s) ++ (if sharing then [.closeScope s] else [])
  change (Turn.waitForAll · tokens u.id)
  pure s

/-- Initialises a scope: edges under the given labels may be added until these are closed, and
with `sharing` the scope may be handed on. The owner of the scope is told. -/
def initScope (s : Scope) (labels : List Label) (sharing : Bool) : Attempt γ PUnit := do
  requireLive
  let u ← unit
  let slots := labels.map .edge
  if u.owns s then change (Turn.shareInitialized · u.id s slots sharing)
  else change fun t ↦ (t.keepOpen s slots).send s.owner (.initShare u.id s slots sharing)

/-- Announces that this unit itself will initialise a scope once more. -/
def shareScope (s : Scope) : Attempt γ PUnit := do
  requireLive
  let u ← unit
  if u.owns s then change (Turn.shareAnnounced · u.id s)
  else change (Turn.send · s.owner (.addShare u.id s))

/-- Sets the datum of a scope, which closes it. -/
def setDatum (s : Scope) (d : Datum) : Attempt γ PUnit := do
  requireLive
  let u ← unit
  require (u.owns s) (.illegalState (.foreignDatum u.id s))
  requireKnown s
  require (u.waits.contains (.closeSlot s .datum)) (.illegalState (.datumClosed s))
  change fun t ↦ (t.assertDatum s d).grant (.closeSlot s .datum) u.id

/-- Adds an edge. -/
def addEdge (e : Edge) : Attempt γ PUnit := do
  requireLive
  commit
  let u ← unit
  if u.owns e.source then
    requireKnown e.source
    require (u.waits.isOpen e.source (.edge e.label))
      (.illegalState (.labelClosed e.label e.source))
  else
    require (u.shares e.source (.edge e.label))
      (.illegalState (.labelNotShared u.id e.label e.source))
  change (Turn.assertEdge · e)

/-- Closes a label of a scope on the part of this unit. Nothing happens if it was closed before. -/
def closeLabel (s : Scope) (l : Label) : Attempt γ PUnit := do
  requireLive
  let u ← unit
  if u.owns s then change (Turn.grant · (.closeSlot s (.edge l)) u.id)
  else if u.shares s (.edge l) then
    change fun t ↦ (t.dropShared s (.edge l)).send s.owner (.closeEdge u.id s (.edge l))
  else pure ⟨⟩

/-- Closes a scope for sharing on the part of this unit. -/
def closeScope (s : Scope) : Attempt γ PUnit := do
  requireLive
  let u ← unit
  if u.owns s then change (Turn.grant · (.closeScope s) u.id)
  else change (Turn.send · s.owner (.closeScope u.id s))

/-! ## Queries, sub-units and reuse -/

/-- Begins a query: the unit waits for its answer by the token that is returned. -/
def beginQuery (path : Path) : Attempt γ Token := do
  let n ← modifyGet Turn.newRequest
  requireLive
  commit
  let u ← unit
  change (Turn.waitFor · (.query path n) u.id)
  pure (.query path n)

/-- Adds a sub-unit. -/
def addSubUnit (name : String) (kind : UnitKind γ) (roots : List Scope) (changed : Bool) :
    Attempt γ UnitId := do
  requireLive
  ExceptT.mk fun t ↦ t.addSubUnit name kind roots changed

/-- Whether a unit may ask whether its previous result still holds. -/
def mayReuse (settings : Settings) (u : UnitNode γ) : Bool :=
  settings.incremental && !u.changed &&
    u.previous.any fun p ↦ p.result.isSome && p.failures.isEmpty

/-- Asks for reuse of the previous result. The answer tells whether there is a decision to be
awaited; if not, the unit runs. A unit that awaits the decision resumes the state it had before. -/
def askForReuse : Attempt γ Bool := do
  let u ← unit
  require (u.phase = .started) (.illegalState (.lateReuse u.id u.phase))
  if mayReuse (← get).settings u then
    change fun t ↦ t.edit fun u ↦ { u with phase := .undecided }
    match u.previous.bind Report.snapshot with
    | some s => change (Turn.restore · s)
    | none => pure ⟨⟩
    change (Turn.spawn · (.confirmOwn u.id))
    pure true
  else
    change (Turn.restart · .initiallyStarted)
    pure false

end Attempt

/-! ## The operations as data -/

/-- What a checker can do with its unit, by the type of the answer. -/
inductive Action (γ : Type) : Type → Type where
  /-- Creates a scope. -/
  | freshScope (base : String) (labels : List Label) (hasDatum sharing : Bool) : Action γ Scope
  /-- Initialises a scope. -/
  | initScope (s : Scope) (labels : List Label) (sharing : Bool) : Action γ PUnit
  /-- Announces an initialisation. -/
  | shareScope (s : Scope) : Action γ PUnit
  /-- Sets a datum. -/
  | setDatum (s : Scope) (d : Datum) : Action γ PUnit
  /-- Adds an edge. -/
  | addEdge (e : Edge) : Action γ PUnit
  /-- Closes a label of a scope. -/
  | closeLabel (s : Scope) (l : Label) : Action γ PUnit
  /-- Closes a scope for sharing. -/
  | closeScope (s : Scope) : Action γ PUnit
  /-- Begins a query. -/
  | beginQuery (path : Path) : Action γ Token
  /-- Adds a sub-unit. -/
  | addSubUnit (name : String) (kind : UnitKind γ) (roots : List Scope) (changed : Bool) :
      Action γ UnitId
  /-- Asks for reuse of the previous result. -/
  | askForReuse : Action γ Bool

/-- What an action does. -/
def Action.attempt : {α : Type} → Action γ α → Attempt γ α
  | _, freshScope base labels hasDatum sharing =>
    Attempt.freshScope base labels hasDatum sharing
  | _, initScope s labels sharing => Attempt.initScope s labels sharing
  | _, shareScope s => Attempt.shareScope s
  | _, setDatum s d => Attempt.setDatum s d
  | _, addEdge e => Attempt.addEdge e
  | _, closeLabel s l => Attempt.closeLabel s l
  | _, closeScope s => Attempt.closeScope s
  | _, beginQuery path => Attempt.beginQuery path
  | _, addSubUnit name kind roots changed => Attempt.addSubUnit name kind roots changed
  | _, askForReuse => Attempt.askForReuse

end ScopeGraphs
