import ScopeGraphs.Units.Basic

/-!
# The life of a unit

How a unit is started, becomes active, reuses its previous result, is captured at the end of its
local phase and resumed from a capture in a later run, adds sub-units, and comes to its end.

A unit that reuses its previous result *replays* it: it asserts again, under the renaming, what it
asserted then, closes everything, and adds stand-ins (phantoms) for its previous sub-units, which do
the same. A unit that runs again adds stand-ins for the sub-units it no longer has; those answer
questions about the previous run and contribute nothing.
-/

namespace ScopeGraphs

variable {γ : Type}

namespace Turn

/-! ## Asserting graphs -/

/-- Asserts an edge: on a scope of its own at once, on a scope of another unit by a message. -/
def assertEdge (t : Turn γ) (e : Edge) : Turn γ :=
  let t := if t.unit.owns e.source then t.edit fun u ↦ { u with graph := u.graph.addEdge e }
    else t.send e.source.owner (.addEdge t.unit.id e)
  t.edit fun u ↦ { u with localGraph := u.localGraph.addEdge e }

/-- Asserts a datum. On a scope of another unit it is only remembered. -/
def assertDatum (t : Turn γ) (s : Scope) (d : Datum) : Turn γ :=
  let t := if t.unit.owns s then t.edit fun u ↦ { u with graph := u.graph.setDatum s d } else t
  t.edit fun u ↦ { u with localGraph := u.localGraph.setDatum s d }

/-- Asserts everything in a graph, renamed. -/
def assertGraph (t : Turn γ) (g : ScopeGraph) (p : Renaming) : Turn γ :=
  let t := g.edges.toList.foldl (fun t e ↦ t.assertEdge (e.rename p)) t
  g.data.toList.foldl (fun t e ↦ t.assertDatum (p.apply e.1) (e.2.rename p)) t

/-! ## Shared scopes -/

/-- Tells the owner of a scope that nothing more will come to some slots of it. -/
def closeShare (t : Turn γ) (s : Scope) (slots : List Slot) : Turn γ :=
  (slots.foldl (fun t slot ↦ t.send s.owner (.closeEdge t.unit.id s slot)) t).send s.owner
    (.closeScope t.unit.id s)

/-- Initialises a root scope of another unit without any labels, if that has not been done. -/
def initRoot (t : Turn γ) (root : Scope) : Turn γ :=
  if t.unit.owns root || t.unit.initialized.contains root then t
  else
    (t.edit fun u ↦ { u with initialized := u.initialized.insert root }).send root.owner
      (.initShare t.unit.id root [] false)

/-- Closes everything on scopes of other units, and initialises those that it was handed and has
not initialised. -/
def closeShares (t : Turn γ) : Turn γ :=
  let shared := t.unit.shared.toList
  let t := t.edit fun u ↦ { u with shared := ∅ }
  let t := shared.foldl (fun t e ↦ t.closeShare e.1 e.2.toList) t
  (t.unit.roots.foldl initRoot t).fireDelays

/-! ## Sub-units -/

/-- Pairs the previous root scopes of a sub-unit with the ones handed to it now, as far as these
belong to this unit. Conflicting pairs are left out. -/
def pairRoots (t : Turn γ) (pairs : List (Scope × Scope)) : Turn γ :=
  t.edit fun u ↦
    let own := pairs.filter fun e ↦ u.owns e.2
    { u with
      sharedPairs := u.sharedPairs.putEach own
      differ := u.differ.map fun d ↦ own.foldl (fun d e ↦ d.pair e.1 e.2) d }

/-- Waits for a sub-unit to initialise a root scope, or announces to the owner of the scope that
it will. -/
def handRoot (child : UnitId) (t : Turn γ) (root : Scope) : Turn γ :=
  if t.unit.owns root then t.waitFor (.initScope root) child
  else t.send root.owner (.addShare child root)

/-- Adds a sub-unit of a kind and hands it some root scopes. -/
def addSubUnit (t : Turn γ) (name : String) (kind : UnitKind γ) (roots : List Scope)
    (changed : Bool) : Except Fault UnitId × Turn γ :=
  let u := t.unit
  let child := u.id.child name
  let previous := u.previous.bind fun p ↦ p.sub? name
  let before := (previous.map Report.roots).getD []
  if u.subUnits.contains name then (.error (.illegalState (.subUnitExists u.id name)), t)
  else if kind.isChecker && previous.isSome && before.length ≠ roots.length then
    (.error (.illegalState (.rootCount child before.length roots.length)), t)
  else
    let t := t.pairRoots (before.zip roots)
    let node := UnitNode.new child (some u.id) kind previous changed
      (t.settings.incremental && kind.isChecker)
    let node := match kind with
      | .phantom true => { node with reuse := some u.reuseOrIdentity }
      | _ => node
    let t := roots.foldl (handRoot child) t
    let t := t.waitFor (.subUnit child) child
    let t := (t.addUnit node).send child (.start roots)
    (.ok child, t.edit fun u ↦ { u with subUnits := u.subUnits.insert name child })

/-- The sub-units of the previous run that have not been added in this one. -/
def missingSubUnits (t : Turn γ) : List (String × Report) :=
  match t.unit.previous with
  | some p => p.subs.filter fun e ↦ !t.unit.subUnits.contains e.1
  | none => []

/-- Adds stand-ins that replay the previous sub-units. -/
def replaySubUnits (t : Turn γ) : Turn γ :=
  t.missingSubUnits.foldl (fun t e ↦
    (t.addSubUnit e.1 (.phantom true) (e.2.roots.map t.unit.reuseOrIdentity.apply) false).2) t

/-- Adds stand-ins for previous sub-units that are gone. -/
def addRemovedSubUnits (t : Turn γ) : Turn γ :=
  t.missingSubUnits.foldl (fun t e ↦
    let child := t.unit.id.child e.1
    (t.addUnit (.new child none (.phantom false) (some e.2) false false)).send child
      (.start e.2.roots)) t

/-! ## Reuse -/

/-- Asserts again what the unit asserted in the previous run, renamed, and closes everything it
holds open. -/
def replay (t : Turn γ) (previous : Report) (p : Renaming) : Turn γ :=
  let captured := (previous.snapshot.map fun s ↦ s.scopes.toList).getD []
  let known := previous.graph.scopes.toList ++ previous.localGraph.scopes.toList ++ captured
  let own := (known.map p.apply).filter t.unit.owns
  let counters := (previous.snapshot.map fun s ↦ s.counters.toList).getD []
  let t := t.edit fun u ↦
    { u with
      scopes := own.foldl (fun ss s ↦ ss.insert s) u.scopes
      counters := counters.foldl (fun cs c ↦
        cs.insert c.1 (max ((cs[c.1]?).getD 0) c.2)) u.counters }
  let t := t.assertGraph previous.localGraph p
  (t.grantAll (t.unit.waits.entries.filter fun e ↦ e.1.isClosure && e.2 = t.unit.id)).closeShares

/-- Whether the unit may still be told to reuse its previous result. -/
def canRelease (t : Turn γ) : Bool := t.unit.phase = .undecided && t.unit.previous.isSome

/-- Reuses the previous result under a renaming, if the unit is undecided. -/
def release (t : Turn γ) (p : Renaming) : Turn γ :=
  match t.unit.phase, t.unit.previous with
  | .undecided, some previous =>
    let t := (t.edit fun u ↦ { u with reuse := some p }).replay previous p
    let t := t.edit fun u ↦
      { u with
        queries := previous.queries
        snapshot := u.snapshot.orElse fun _ ↦ previous.snapshot
        trace := .released
        phase := .released }
    let t := ((t.settleActive .reusing).settleDecision (some p)).endLocalPhase
    (t.grant .activate t.unit.id).replaySubUnits
  | _, _ => t

/-! ## Running -/

/-- Whether the unit may still be told to run. -/
def canRestart (t : Turn γ) : Bool := t.unit.phase = .started || t.unit.phase = .undecided

/-- The comparison of the unit with its previous run, as it starts. -/
def freshDiffer (t : Turn γ) : Option Differ :=
  t.unit.previous.map fun previous ↦
    .start t.unit.id (previous.graph.union previous.localGraph)
      (t.unit.rootPairs t.unit.sharedPairs)

/-- Makes the unit run, unless it has been activated before. -/
def restart (t : Turn γ) (trace : Trace) : Turn γ :=
  if t.canRestart then
    let t := t.edit fun u ↦ { u with phase := .active, trace := trace }
    let t := (t.settleActive .running).settleDecision none
    let t := if t.settings.usesDiffer then
        t.edit fun u ↦ { u with differ := t.freshDiffer.orElse fun _ ↦ u.differ }
      else t
    t.grant .activate t.unit.id
  else t

/-- Makes a unit run whose checker waits before it has committed itself. -/
def eagerStart (t : Turn γ) : Turn γ :=
  if t.unit.phase = .started then t.restart .initiallyStarted else t

/-! ## Capturing and resuming -/

/-- The state of the unit, to be resumed in a later run. -/
def takeSnapshot (u : UnitNode γ) : Snapshot :=
  let own := u.waits.entries.filterMap fun e ↦ if e.2 = u.id then some e.1 else none
  { scopes := u.scopes
    graph := u.localGraph
    uninitialized := own.filterMap fun
      | .initScope s => some s
      | _ => none
    openScopes := own.filterMap fun
      | .closeScope s => some s
      | _ => none
    openSlots := own.filterMap (fun
        | .closeSlot s l => some (s, l)
        | _ => none) ++
      u.shared.toList.flatMap fun e ↦ e.2.toList.map fun l ↦ (e.1, l)
    counters := u.counters
    checkerState := u.code?.bind fun _ ↦ u.checkerState }

/-- Keeps the present state of the unit. -/
def capture (t : Turn γ) : Turn γ :=
  t.edit fun u ↦ { u with snapshot := some (takeSnapshot u) }

/-- Takes up an obligation on a root scope of another unit: the slots that were open on its
counterpart at the time of the snapshot. -/
def resumeRoot (s : Snapshot) (t : Turn γ) (e : Scope × Scope) : Turn γ :=
  if t.unit.owns e.2 || t.unit.initialized.contains e.2 then t
  else
    let slots := s.openSlots.filterMap fun o ↦ if o.1 = e.1 then some o.2 else none
    (t.edit fun u ↦
      { u with
        initialized := u.initialized.insert e.2
        shared := u.shared.insert e.2 (SortedSet.ofList slots) }).send e.2.owner
      (.initShare t.unit.id e.2 slots false)

/-- Resumes the state that the unit had at the time of a snapshot of the previous run. -/
def restore (t : Turn γ) (s : Snapshot) : Turn γ :=
  let me := t.unit.id
  let t := t.edit fun u ↦
    { u with
      scopes := s.scopes.toList.foldl (fun ss x ↦ ss.insert x) u.scopes
      counters := s.counters }
  let t := t.waitForAll (s.uninitialized.map .initScope) me
  let t := t.waitForAll (s.openScopes.map .closeScope) me
  let own := s.openSlots.filter fun o ↦ t.unit.owns o.1
  let t := t.waitForAll (own.map fun o ↦ .closeSlot o.1 o.2) me
  let t := t.assertGraph s.graph (t.unit.rootPairs .identity)
  let before := (t.unit.previous.map Report.roots).getD []
  let t := (before.zip t.unit.roots).foldl (resumeRoot s) t
  (t.edit fun u ↦ { u with snapshot := some s }).endLocalPhase

/-! ## Starting -/

/-- Gives the unit up: it has no result, and nobody waits for a decision any longer. -/
def fail (t : Turn γ) (reason : String) : Turn γ :=
  let t := t.edit fun u ↦
    { u with
      failures := u.failures ++ [reason]
      outcome := u.outcome.orElse fun _ ↦ some none }
  ((t.settleActive .running).settleDecision none).tryFinish

/-- Starts a stand-in that replays its previous result. -/
def startReplaying (t : Turn γ) : Turn γ :=
  match t.unit.previous with
  | none => t.fail "phantom unit without a previous result"
  | some previous =>
    let p := t.unit.rootPairs t.unit.reuseOrIdentity
    let t := (t.edit fun u ↦ { u with reuse := some p }).replay previous p
    let t := t.edit fun u ↦
      { u with
        queries := previous.queries
        snapshot := previous.snapshot
        trace := .released
        phase := .released }
    let t := ((t.settleActive .reusing).settleDecision (some p)).replaySubUnits
    (t.edit fun u ↦
      { u with outcome := some (previous.result.map (Datum.rename p)) }).tryFinish

/-- Starts a stand-in for a unit that is gone. -/
def startRemoved (t : Turn γ) : Turn γ :=
  let t := t.edit fun u ↦ { u with trace := .released }
  let t := (t.settleActive .reusing).settleDecision none
  ((t.edit fun u ↦ { u with outcome := some none }).addRemovedSubUnits).tryFinish

/-- Starts a unit that serves a library: binds the library to the roots and asserts its graph. -/
def startLibrary (t : Turn γ) (lib : Library) : Turn γ :=
  let t := match lib.bind t.unit.id t.unit.roots with
    | .ok (own, graph) =>
      (t.edit fun u ↦
        { u with
          scopes := own.foldl (fun ss s ↦ ss.insert s) u.scopes }).assertGraph graph .identity
    | .error e => t.edit fun u ↦ { u with failures := u.failures ++ [e.message] }
  let t := t.edit fun u ↦ { u with phase := .active }
  let t := ((t.settleActive .running).settleDecision none).closeShares
  (t.edit fun u ↦ { u with outcome := some none }).tryFinish

/-- Starts the unit with its root scopes, and tells the unit that added it. -/
def start (t : Turn γ) (roots : List Scope) : Turn γ :=
  if t.unit.phase ≠ .created then t
  else
    let t := t.edit fun u ↦ { u with roots := roots, phase := .started }
    let t := match t.unit.parent with
      | some parent => t.send parent (.unitStarted t.unit.id)
      | none => t
    match t.unit.kind with
    | .checker code => (t.waitFor .activate t.unit.id).spawn (.runChecker t.unit.id code roots)
    | .phantom true => t.startReplaying
    | .phantom false => t.startRemoved
    | .library lib => t.startLibrary lib

/-! ## Ending -/

/-- Takes over how the checker ended: with a result or with a failure. -/
def checkerFinished (t : Turn γ) (result : Except String Datum) : Turn γ :=
  if t.unit.finished then t
  else
    let t := t.edit fun u ↦
      match result with
      | .ok d => { u with outcome := some (some d) }
      | .error e => { u with outcome := some none, failures := u.failures ++ [e] }
    let t := if t.unit.inLocalPhase then t.capture.endLocalPhase else t
    let released := t.unit.phase = .released
    let t := t.edit fun u ↦ { u with phase := .done }
    let t := (t.settleActive .running).settleDecision none
    let t := t.grant .activate t.unit.id
    let t := if released then t else t.addRemovedSubUnits
    t.tryFinish

/-- Takes over the report of a sub-unit. -/
def subUnitFinished (t : Turn γ) (r : Report) : Turn γ :=
  (t.edit fun u ↦ { u with subReports := u.subReports.insert r.id.localName r }).tryFinish

/-- Grants every closure token and closes every shared slot, because no more input can arrive. -/
def grantClosures (t : Turn γ) : Turn γ :=
  let t := t.grantAll (t.unit.waits.entries.filter fun e ↦ e.1.isClosure)
  (t.edit fun u ↦ { u with shared := ∅ }).fireDelays

/-- The number of closure tokens and shared slots. -/
def closureCount (u : UnitNode γ) : Nat :=
  (u.waits.entries.filter fun e ↦ e.1.isClosure).length +
    (u.shared.toList.flatMap fun e ↦ e.2.toList).length

/-- Gives up on the unit because it cannot go on: it waits for nothing any longer, and whoever
waits for its slots reads what is there. -/
def failStuck (t : Turn γ) : Turn γ :=
  if t.unit.finished then t
  else
    let entries := t.unit.waits.entries
    let delays := t.unit.delays
    let t : Turn γ :=
      { t with
        effects := { t.effects with
          waits := t.effects.waits ++ entries.map fun e ↦ .granted e.1 e.2 } }
    let t := t.edit fun u ↦ { u with waits := .empty, shared := ∅, delays := [] }
    let t := (delays.map Delay.reply).foldl (fill .hungUp) t
    let t := t.endLocalPhase.edit fun u ↦ { u with phase := .done }
    t.fail "stuck: no further progress possible"

end Turn

/-! ## Verdicts on clusters -/

/-- What a unit contributes to the decision about a cluster with undecided units. -/
inductive Stance where
  /-- It runs, so undecided units cannot rely on it. -/
  | running
  /-- It reuses its previous result under a renaming. -/
  | reusing (p : Renaming)
  /-- It is undecided and would reuse its previous result as it is. -/
  | willing
  deriving DecidableEq

/-- What a unit contributes to the decision about its cluster. -/
def UnitNode.stance (u : UnitNode γ) : Stance :=
  match u.phase with
  | .created | .undecided => .willing
  | .released => .reusing u.reuseOrIdentity
  | .done => if u.trace = .released then .reusing u.reuseOrIdentity else .running
  | .started | .active => .running

end ScopeGraphs
