import ScopeGraphs.Datum

/-!
# Scope graphs

A scope graph is a set of labelled edges between scopes together with a partial map from scopes to
data. Edges form a set: there are no parallel edges with the same label. Both parts are sorted
containers, so two graphs are equal exactly when they have the same edges and the same data, and
every listing is in order.

Each unit owns a fragment of the whole graph. Fragments are put together by `ScopeGraph.union`,
in which the data of the second graph win.
-/

namespace ScopeGraphs

/-- A labelled edge. -/
structure Edge where
  /-- Where the edge starts. -/
  source : Scope
  /-- Its label. -/
  label : Label
  /-- Where it leads. -/
  target : Scope
  deriving DecidableEq, Inhabited, Repr

namespace Edge

/-- Edges are ordered by source, label and target. -/
instance : Keyed Edge :=
  Keyed.ofInjective (fun e ↦ (e.source, e.label, e.target)) fun {a b} h ↦ by
    cases a; cases b; simp_all

/-- The edge with its label between renamed scopes. -/
def rename (p : Renaming) (e : Edge) : Edge := ⟨p.apply e.source, e.label, p.apply e.target⟩

end Edge

/-- Labelled edges and data. -/
structure ScopeGraph where
  /-- The edges. -/
  edges : SortedSet Edge
  /-- The data, by scope. -/
  data : SortedMap Scope Datum
  deriving DecidableEq

namespace ScopeGraph

/-- The graph without edges and data. -/
def empty : ScopeGraph := ⟨∅, ∅⟩

instance : Inhabited ScopeGraph := ⟨empty⟩

/-- The graph with the given edges and data; of two data of one scope the later one counts. -/
def of (edges : List Edge) (data : List (Scope × Datum)) : ScopeGraph :=
  ⟨SortedSet.ofList edges, SortedMap.ofList data⟩

/-! ## Building -/

/-- The graph with one more edge. -/
def addEdge (g : ScopeGraph) (e : Edge) : ScopeGraph := { g with edges := g.edges.insert e }

/-- The graph in which a scope has the given datum, in place of any it had before. -/
def setDatum (g : ScopeGraph) (s : Scope) (d : Datum) : ScopeGraph :=
  { g with data := g.data.insert s d }

/-- The edges of both graphs, with the data of the second and, where it has none, of the first. -/
def union (g h : ScopeGraph) : ScopeGraph where
  edges := h.edges.toList.foldl (fun es e ↦ es.insert e) g.edges
  data := h.data.toList.foldl (fun ds e ↦ ds.insert e.1 e.2) g.data

/-! ## Reading -/

/-- The targets of the edges of a scope under a label, in order. -/
def targets (g : ScopeGraph) (s : Scope) (l : Label) : List Scope :=
  g.edges.toList.filterMap fun e ↦ if e.source = s ∧ e.label = l then some e.target else none

/-- The labels under which a scope has an edge, in order. -/
def labelsOf (g : ScopeGraph) (s : Scope) : List Label :=
  (SortedSet.ofList (g.edges.toList.filterMap fun e ↦
    if e.source = s then some e.label else none)).toList

/-- The datum of a scope. -/
def datum? (g : ScopeGraph) (s : Scope) : Option Datum := g.data[s]?

/-- Every scope with an edge, at the end of an edge or with a datum. -/
def scopes (g : ScopeGraph) : SortedSet Scope :=
  SortedSet.ofList (g.edges.toList.flatMap (fun e ↦ [e.source, e.target]) ++ g.data.keys)

/-- The number of edges. -/
def edgeCount (g : ScopeGraph) : Nat := g.edges.size

/-- Whether there are neither edges nor data. -/
def isEmpty (g : ScopeGraph) : Bool := g.edges.isEmpty && g.data.isEmpty

/-! ## Renaming -/

/-- The graph with every scope renamed, inside data as well. Where two scopes with data become
one, the datum of the later one counts. -/
def rename (p : Renaming) (g : ScopeGraph) : ScopeGraph :=
  .of (g.edges.toList.map (Edge.rename p))
    (g.data.toList.map fun e ↦ (p.apply e.1, e.2.rename p))

end ScopeGraph

end ScopeGraphs
