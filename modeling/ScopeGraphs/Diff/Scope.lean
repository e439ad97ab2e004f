import ScopeGraphs.Graph.Basic

/-!
# Differences between two runs

A `Differ` compares the graph of a unit with the one of its previous run, scope by scope. It starts
from known pairs of previous and current scopes and finds more along the edges: a target is paired
when it keeps its identity, or when a new scope of the unit takes the place of a previous one with
the same datum. Every pair found is kept in one renaming, and current scopes that were paired wait
in a queue until somebody diffs them.
-/

namespace ScopeGraphs

/-! ## Differences of a scope -/

/-- The difference between a current scope and its previous counterpart. -/
structure ScopeDiff where
  /-- The current scope. -/
  current : Scope
  /-- Its previous counterpart. -/
  previous : Scope
  /-- Edges without a previous counterpart, with their current targets. -/
  added : List (Label × Scope)
  /-- Previous edges without a current counterpart, with their previous targets. -/
  removed : List (Label × Scope)
  /-- Edges of both runs, with their current targets. -/
  matched : List (Label × Scope)
  /-- Whether the datum is another one, up to the renaming known so far. -/
  datumChanged : Bool
  /-- Whether the previous scope had a datum. -/
  hadDatum : Bool
  /-- Whether the current scope has a datum. -/
  hasDatum : Bool
  deriving DecidableEq, Repr

namespace ScopeDiff

/-- Whether nothing changed. -/
def isUnchanged (d : ScopeDiff) : Bool :=
  d.added.isEmpty && d.removed.isEmpty && !d.datumChanged

/-- The difference of a scope all of whose edges carried over. -/
def identical (current previous : Scope) (matched : List (Label × Scope)) (hasDatum : Bool) :
    ScopeDiff :=
  ⟨current, previous, [], [], matched, false, hasDatum, hasDatum⟩

end ScopeDiff

/-! ## The differ -/

/-- The comparison of a unit's graph with the one of its previous run. -/
structure Differ where
  /-- The unit. -/
  owner : UnitId
  /-- The graph of the previous run. -/
  previous : ScopeGraph
  /-- The current scopes that were paired from the start. -/
  seeds : SortedSet Scope
  /-- The pairs known so far. -/
  pairs : Renaming
  /-- The differences computed so far, by current scope. -/
  diffs : SortedMap Scope ScopeDiff
  /-- Paired current scopes, in the order in which they were paired, until they are taken up. -/
  frontier : List Scope
  deriving DecidableEq

namespace Differ

/-- The differ that knows some pairs. -/
def start (owner : UnitId) (previous : ScopeGraph) (pairs : Renaming) : Differ where
  owner := owner
  previous := previous
  seeds := SortedSet.ofList pairs.backward.keys
  pairs := pairs
  diffs := ∅
  frontier := pairs.backward.keys

/-- The current counterpart of a previous scope, as far as known. -/
def matchOf? (d : Differ) (previous : Scope) : Option Scope := d.pairs.get? previous

/-- The difference computed for a current scope. -/
def diffOf? (d : Differ) (current : Scope) : Option ScopeDiff := d.diffs[current]?

/-- The previous counterpart of a current scope: the one it is paired with, or else the scope
itself, provided that it was there before and is not paired with another scope. -/
def previousOf? (d : Differ) (current : Scope) : Option Scope :=
  (d.pairs.getInverse? current).orElse fun _ ↦
    if !d.pairs.containsOld current && d.previous.scopes.contains current then some current
    else none

/-- Records a pair, and queues the current scope if it had no partner. Refuses a pair in
conflict with known ones. -/
def pair? (d : Differ) (previous current : Scope) : Option Differ :=
  (d.pairs.put? previous current).map fun pairs ↦
    { d with
      pairs := pairs
      frontier := if d.pairs.containsNew current then d.frontier else d.frontier ++ [current] }

/-- Records a pair, or changes nothing when it is refused. -/
def pair (d : Differ) (previous current : Scope) : Differ := (d.pair? previous current).getD d

/-- Whether a scope is one that the differ takes up: a scope of its unit or a seed. -/
def isRelevant (d : Differ) (s : Scope) : Bool := s.owner = d.owner || d.seeds.contains s

/-- Takes the next scope of the queue that is relevant and has not been diffed. -/
def nextUnexplored (d : Differ) : Option Scope × Differ :=
  match d.frontier.dropWhile fun s ↦ !d.isRelevant s || d.diffs.contains s with
  | [] => (none, { d with frontier := [] })
  | s :: rest => (some s, { d with frontier := rest })

/-- The previous datum of a scope, renamed by the pairs known so far. -/
def previousDatum? (d : Differ) (previous : Scope) : Option Datum :=
  (d.previous.datum? previous).map (Datum.rename d.pairs)

/-! ### Matching the edges of one label -/

/-- The edges of a scope under one label, while they are matched. -/
structure Matching where
  /-- The differ, with the pairs found on the way. -/
  differ : Differ
  /-- Previous targets without a counterpart, in order. -/
  before : List Scope
  /-- Current targets that have a counterpart, in the order in which it was found. -/
  matched : List Scope
  /-- Current targets without a counterpart, in order. -/
  fresh : List Scope
  /-- Previous targets that were given up, in order. -/
  removed : List Scope

/-- The previous target that a current target stands for by known pairs or by identity. -/
def counterpart? (d : Differ) (before : List Scope) (target : Scope) : Option Scope :=
  (d.pairs.getInverse? target).orElse fun _ ↦
    if !d.pairs.containsOld target && target ∈ before then some target else none

/-- Matches a current target that stands for one of the previous targets, and puts any other one
aside. -/
def Matching.known (m : Matching) (target : Scope) : Matching :=
  match m.differ.counterpart? m.before target with
  | some previous =>
    if previous ∈ m.before then
      { m with
        differ := m.differ.pair previous target
        before := m.before.erase previous
        matched := m.matched ++ [target] }
    else { m with fresh := m.fresh ++ [target] }
  | none => { m with fresh := m.fresh ++ [target] }

/-- Whether a new scope may take the place of a previous one: both belong to the unit, neither is
paired, and their data agree. -/
def replaces (d : Differ) (graph : ScopeGraph) (previous current : Scope) : Bool :=
  current.owner = d.owner && !d.pairs.containsNew current &&
    d.previousDatum? previous = graph.datum? current

/-- Matches a previous target with the first new one that may take its place, or gives it up. -/
def Matching.replaced (graph : ScopeGraph) (m : Matching) (previous : Scope) : Matching :=
  let candidate :=
    if !m.differ.pairs.containsOld previous && previous.owner = m.differ.owner then
      m.fresh.find? (m.differ.replaces graph previous)
    else none
  match candidate with
  | some target =>
    { m with
      differ := m.differ.pair previous target
      fresh := m.fresh.erase target
      matched := m.matched ++ [target] }
  | none => { m with removed := m.removed ++ [previous] }

/-- Matches the edges of a scope under one label with those of its counterpart. -/
def matchLabel (d : Differ) (graph : ScopeGraph) (current previous : Scope) (l : Label) :
    Matching :=
  let known := (graph.targets current l).foldl Matching.known
    ⟨d, d.previous.targets previous l, [], [], []⟩
  known.before.foldl (Matching.replaced graph) { known with before := [] }

/-- Adds the edges under one label to the difference of a scope. -/
def diffLabel (graph : ScopeGraph) (acc : Differ × ScopeDiff) (l : Label) : Differ × ScopeDiff :=
  let m := acc.1.matchLabel graph acc.2.current acc.2.previous l
  (m.differ,
    { acc.2 with
      added := acc.2.added ++ m.fresh.map (l, ·)
      removed := acc.2.removed ++ m.removed.map (l, ·)
      matched := acc.2.matched ++ m.matched.map (l, ·) })

/-! ### Diffing -/

/-- Diffs a scope of the current graph against its previous counterpart, once. A scope without a
counterpart has no difference. -/
def diff (d : Differ) (s : Scope) (graph : ScopeGraph) (labels : List Label) :
    Option ScopeDiff × Differ :=
  match d.diffOf? s with
  | some known => (some known, d)
  | none =>
    match d.previousOf? s with
    | none => (none, d)
    | some previous =>
      let edges := labels.foldl (diffLabel graph)
        (d.pair previous s, ⟨s, previous, [], [], [], false, false, false⟩)
      let before := edges.1.previousDatum? previous
      let now := graph.datum? s
      let result : ScopeDiff :=
        { edges.2 with
          datumChanged := before ≠ now
          hadDatum := before.isSome
          hasDatum := now.isSome }
      (some result, { edges.1 with diffs := edges.1.diffs.insert s result })

/-- Diffs the queued scopes until the queue is empty, at most as often as given. -/
def explore (graph : ScopeGraph) (labels : List Label) (d : Differ) :
    Nat → List (Option ScopeDiff) × Differ
  | 0 => ([], d)
  | n + 1 =>
    match d.nextUnexplored with
    | (none, d) => ([], d)
    | (some s, d) =>
      let (first, d) := d.diff s graph labels
      let (rest, d) := d.explore graph labels n
      (first :: rest, d)

/-- Diffs the queued scopes until the queue is empty. Every scope that is queued on the way is in
one of the two graphs, was a seed or is in the queue already. -/
def exploreAll (graph : ScopeGraph) (labels : List Label) (d : Differ) :
    List (Option ScopeDiff) × Differ :=
  d.explore graph labels (d.frontier.length + 2 * graph.scopes.size + d.seeds.size + 1)

end Differ

end ScopeGraphs
