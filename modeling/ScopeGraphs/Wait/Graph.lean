import ScopeGraphs.Ident

/-!
# The wait-for graph

Units that wait for each other form a graph: an edge leads from a waiting unit to the unit that is
expected to grant what it waits for. Edges form a multiset, since a unit may wait several times
for the same thing.

A *terminal cluster* is a set of units that can only be unblocked from within: a strongly
connected component in which somebody waits, together with everything it reaches, provided that
nobody it reaches outside the component waits. Such a cluster gets no more input, so what it still
waits for can be taken as final.
-/

namespace ScopeGraphs

variable {τ : Type}

/-- A unit waiting for another one. -/
structure WaitEdge (τ : Type) where
  /-- The unit that waits. -/
  waiter : UnitId
  /-- The unit expected to grant. -/
  holder : UnitId
  /-- What is awaited. -/
  resource : τ
  deriving DecidableEq, Repr

/-- A multiset of wait edges, in the order in which they arose. -/
structure WaitGraph (τ : Type) where
  /-- The edges. -/
  edges : List (WaitEdge τ)

namespace WaitGraph

/-- The graph without edges. -/
def empty : WaitGraph τ := ⟨[]⟩

instance : Inhabited (WaitGraph τ) := ⟨empty⟩

/-- The graph with one more edge. -/
def add (g : WaitGraph τ) (e : WaitEdge τ) : WaitGraph τ := ⟨g.edges ++ [e]⟩

/-- The graph with one occurrence of an edge less, or nothing if there is none. -/
def remove? [DecidableEq τ] (g : WaitGraph τ) (e : WaitEdge τ) : Option (WaitGraph τ) :=
  if e ∈ g.edges then some ⟨g.edges.erase e⟩ else none

/-- The number of edges. -/
def edgeCount (g : WaitGraph τ) : Nat := g.edges.length

/-- Whether there are no edges. -/
def isEmpty (g : WaitGraph τ) : Bool := g.edges.isEmpty

/-- The units that wait for a unit, in order. -/
def waitersOf (g : WaitGraph τ) (u : UnitId) : List UnitId :=
  (SortedSet.ofList ((g.edges.filter fun e ↦ e.holder = u).map WaitEdge.waiter)).toList

/-- The units that a unit waits for. -/
def holdersOf (g : WaitGraph τ) (u : UnitId) : List UnitId :=
  (g.edges.filter fun e ↦ e.waiter = u).map WaitEdge.holder

/-- Whether a unit waits for anything. -/
def waits (g : WaitGraph τ) (u : UnitId) : Bool := g.edges.any fun e ↦ e.waiter = u

/-- Every unit that waits or is waited for, in order. -/
def units (g : WaitGraph τ) : List UnitId :=
  (SortedSet.ofList (g.edges.flatMap fun e ↦ [e.waiter, e.holder])).toList

/-! ## Terminal clusters -/

/-- Adds what the units of a set wait for, a given number of times. -/
def spread (g : WaitGraph τ) : Nat → SortedSet UnitId → SortedSet UnitId
  | 0, us => us
  | n + 1, us =>
    let next := us.toList.foldl (fun s u ↦ (g.holdersOf u).foldl (fun s v ↦ s.insert v) s) us
    if next.size = us.size then us else spread g n next

/-- The units that can be reached from a unit, the unit itself included. A shortest way has fewer
steps than there are edges, so spreading that often reaches everything. -/
def reach (g : WaitGraph τ) (u : UnitId) : SortedSet UnitId :=
  g.spread (g.edges.length + 1) (SortedSet.ofList [u])

/-- The units that a unit reaches and that reach it. -/
def core (g : WaitGraph τ) (u : UnitId) : List UnitId :=
  (g.reach u).toList.filter fun v ↦ (g.reach v).contains u

/-- Whether the component of a unit is terminal. -/
def isTerminal (g : WaitGraph τ) (u : UnitId) : Bool :=
  let core := g.core u
  core.any g.waits && (g.reach u).toList.all fun v ↦ v ∈ core || !g.waits v

/-- The terminal clusters, each as the sorted list of its units, in the order of the least units
of their components. -/
def terminalClusters (g : WaitGraph τ) : List (List UnitId) :=
  (g.units.filter fun u ↦ (g.core u).head? = some u && g.isTerminal u).map fun u ↦
    (g.reach u).toList

/-- Whether a unit is in a cluster, which is sorted: as long as several units are left, the middle
one tells in which half to go on. -/
def clusterContains (cluster : List UnitId) (u : UnitId) : Bool :=
  let half := cluster.length / 2
  if _h : 1 < cluster.length then
    if Keyed.compare cluster[half] u = .gt then
      clusterContains (cluster.take (cluster.length - half)) u
    else
      clusterContains (cluster.drop half) u
  else
    cluster.head? = some u
termination_by cluster.length
decreasing_by
  all_goals
    simp only [List.length_take, List.length_drop]
    omega

end WaitGraph

/-! ## Detection -/

/-- The wait-for graph with an account of what was found in it and done about it. -/
structure Detector (τ : Type) where
  /-- The waits of all units. -/
  graph : WaitGraph τ
  /-- Clusters found. -/
  detected : Nat
  /-- Units told to reuse their previous results. -/
  released : Nat
  /-- Units told to run again. -/
  restarted : Nat
  /-- Closure tokens granted and shared slots closed. -/
  granted : Nat

namespace Detector

/-- The detector of a fresh run. -/
def empty : Detector τ := ⟨.empty, 0, 0, 0, 0⟩

instance : Inhabited (Detector τ) := ⟨empty⟩

/-- Notes that a unit waits. -/
def addWait (d : Detector τ) (e : WaitEdge τ) : Detector τ := { d with graph := d.graph.add e }

/-- Notes that a unit no longer waits, if it did. -/
def removeWait [DecidableEq τ] (d : Detector τ) (e : WaitEdge τ) : Detector τ :=
  { d with graph := (d.graph.remove? e).getD d.graph }

/-- The present clusters, which are counted. -/
def detect (d : Detector τ) : List (List UnitId) × Detector τ :=
  let clusters := d.graph.terminalClusters
  (clusters, { d with detected := d.detected + clusters.length })

/-- Counts a unit told to reuse its previous result. -/
def countRelease (d : Detector τ) : Detector τ := { d with released := d.released + 1 }

/-- Counts a unit told to run again. -/
def countRestart (d : Detector τ) : Detector τ := { d with restarted := d.restarted + 1 }

/-- Counts forced grants. -/
def countGrants (d : Detector τ) (n : Nat) : Detector τ := { d with granted := d.granted + n }

end Detector

end ScopeGraphs
