import ScopeGraphs.Units.Actions

/-!
# Waiting, asking and answering

What a task does with the unit on whose behalf it works. It waits for news of the unit: that the
unit has decided about reuse, that a slot of a scope is closed, that the local phase is over. It
asks other units, for which it raises a token that it grants once the answer is there. And it looks
up what the unit knows about its previous run.
-/

namespace ScopeGraphs

variable {γ : Type}

/-! ## Questions to other units -/

/-- A question to the unit that owns a scope. -/
inductive Question where
  /-- Resolve a path. -/
  | query (path : Path) (params : QueryParams)
  /-- Resolve a path in the graph of the previous run. -/
  | previous (path : Path) (params : QueryParams)
  /-- Confirm that a path leads to the same environment as before. -/
  | confirm (path : Path) (pattern : Pattern) (rule : DataRule QueryParams) (prevEmpty : Bool)
  /-- Tell the current counterpart of a previous scope. -/
  | counterpart (s : Scope)

namespace Question

/-- The scope that a question is about. -/
def scope : Question → Scope
  | query path _ | previous path _ | confirm path _ _ _ => path.target
  | counterpart s => s

/-- The unit that is asked. -/
def holder (q : Question) : UnitId := q.scope.owner

/-- The token for the answer. -/
def token (n : Nat) : Question → Token
  | query path _ | previous path _ => .query path n
  | confirm path _ _ _ => .confirm path.target n
  | counterpart s => .counterpart s n

/-- The message that asks. -/
def message (sender : UnitId) (reply : ChannelId) : Question → Message
  | query path q => .query sender path q reply
  | previous path q => .queryPrevious sender path q reply
  | confirm path p rule prevEmpty => .confirm sender path p rule prevEmpty reply
  | counterpart s => .counterpart sender s reply

end Question

/-- A question that was asked. -/
structure Ticket where
  /-- What the asking unit waits for. -/
  token : Token
  /-- The unit that was asked. -/
  holder : UnitId
  /-- Where the answer arrives. -/
  reply : ChannelId

/-- How the search for the counterpart of a previous scope goes on. -/
inductive MatchStep where
  /-- It is over. -/
  | done (s : Option Scope)
  /-- A scope has to be compared first. -/
  | explore (s : Scope)

namespace Turn

/-! ## Waiting -/

/-- A channel on which the value of a promise arrives. -/
def listen {π : Type} (t : Turn γ) (promise : UnitNode γ → Promise π)
    (put : Promise π → UnitNode γ → UnitNode γ) (wrap : π → Parcel) : ChannelId × Turn γ :=
  let (c, t) := t.newChannel
  match promise t.unit with
  | .settled v => (c, t.fill (.full (wrap v)) c)
  | .pending _ => (c, t.edit fun u ↦ put ((promise u).await c) u)

/-- A channel that tells when the unit has decided about reuse, unless it has. -/
def awaitDecided (t : Turn γ) : Option ChannelId × Turn γ :=
  match t.unit.phase with
  | .created | .started | .undecided =>
    let (c, t) := t.listen UnitNode.whenActive (fun p u ↦ { u with whenActive := p }) .activation
    (some c, t)
  | _ => (none, t)

/-- A channel that tells when a slot of a scope is closed, unless it is. -/
def awaitClosed (t : Turn γ) (s : Scope) (slot : Slot) : Option ChannelId × Turn γ :=
  if t.unit.isClosed s slot then (none, t)
  else
    let (c, t) := t.newChannel
    (some c, t.edit fun u ↦ { u with delays := u.delays ++ [⟨s, slot, c⟩] })

/-- A channel that tells when the local phase is over. -/
def awaitOpen (t : Turn γ) : ChannelId × Turn γ :=
  t.listen UnitNode.whenOpen (fun p u ↦ { u with whenOpen := p }) fun _ ↦ .signal

/-- A channel on which the decision about reuse arrives. -/
def awaitDecision (t : Turn γ) : ChannelId × Turn γ :=
  t.listen UnitNode.decision (fun p u ↦ { u with decision := p }) .decision

/-- A channel on which the report of the unit arrives. -/
def awaitReport (t : Turn γ) : ChannelId × Turn γ :=
  t.listen UnitNode.report (fun p u ↦ { u with report := p }) .report

/-! ## Asking -/

/-- Asks another unit, and waits for its answer. -/
def ask (t : Turn γ) (q : Question) : Ticket × Turn γ :=
  let (n, t) := t.newRequest
  let (reply, t) := t.newChannel
  let ticket : Ticket := ⟨q.token n, q.holder, reply⟩
  (ticket, (t.waitFor ticket.token ticket.holder).send ticket.holder (q.message t.unit.id reply))

/-- Stops waiting for the answer to a question. -/
def endAsking (t : Turn γ) (ticket : Ticket) : Turn γ := t.grant ticket.token ticket.holder

/-- Ends a query of the checker, which is recorded if it got an answer. -/
def endQuery (t : Turn γ) (token : Token) (record : Option QueryRecord) : Turn γ :=
  (t.edit fun u ↦ { u with queries := u.queries ++ record.toList }).grant token t.unit.id

/-! ## The previous run -/

/-- The next step in the search for the counterpart of a previous scope: it is known because the
scope was handed to a sub-unit, or the comparison with the previous run knows it or has to go on,
or the renaming of a reused result gives it. A unit that runs without a comparison knows only
scopes that kept their identity. -/
def matchStep (t : Turn γ) (s : Scope) : MatchStep × Turn γ :=
  let u := t.unit
  match u.sharedPairs.get? s with
  | some current => (.done (some current), t)
  | none =>
    if u.isRemoved then (.done none, t)
    else
      match u.differ with
      | some d =>
        match d.matchOf? s with
        | some current => (.done (some current), t)
        | none =>
          let (next, d) := d.nextUnexplored
          ((next.map MatchStep.explore).getD (.done none),
            t.edit fun u ↦ { u with differ := some d })
      | none =>
        match u.reuse, u.phase with
        | some p, _ => (.done (some (p.apply s)), t)
        | none, .undecided => (.done (some s), t)
        | none, _ => (.done (if u.scopes.contains s then some s else none), t)

/-- Compares a scope with its previous counterpart. -/
def diffScope (t : Turn γ) (s : Scope) (labels : List Label) : Option ScopeDiff × Turn γ :=
  match t.unit.differ with
  | none => (none, t)
  | some d =>
    let (result, d) := d.diff s (t.unit.graph.union t.unit.localGraph) labels
    (result, t.edit fun u ↦ { u with differ := some d })

end Turn

namespace UnitNode

/-- The graph of the previous run. -/
def previousGraph (u : UnitNode γ) : ScopeGraph := (u.previous.map Report.graph).getD .empty

/-- The queries recorded in the previous run. -/
def previousQueries (u : UnitNode γ) : List QueryRecord :=
  (u.previous.map Report.queries).getD []

/-- Whether the unit stands for its previous result, or may still do so. -/
def standsForPrevious (u : UnitNode γ) : Bool :=
  u.phase = .undecided || u.phase = .released || u.trace = .released ||
    match u.kind with
    | .phantom _ => true
    | _ => false

/-- The difference of a scope of a unit that stands for its previous result: nothing changed but
the names of scopes. -/
def reusedDiff (u : UnitNode γ) (s : Scope) (labels : List Label) : Option ScopeDiff :=
  match u.previous with
  | some previous =>
    if u.standsForPrevious then
      let p := u.reuseOrIdentity
      let before := p.inverseApply s
      let graph := previous.graph.union previous.localGraph
      let matched := labels.flatMap fun l ↦ (graph.targets before l).map fun t ↦ (l, p.apply t)
      some (.identical s before matched (graph.datum? before).isSome)
    else none
  | none => none

end UnitNode

end ScopeGraphs
