import ScopeGraphs.Datum

/-!
# Paths

A path is a walk through a scope graph: a source and the steps taken from it, each a label and the
scope it leads to. Walks that a query takes are extended by `Path.step?`, which refuses to visit a
scope a second time; that is what cuts cycles.
-/

namespace ScopeGraphs

/-- A walk: where it starts, and its steps in order. -/
structure Path where
  /-- The first scope. -/
  source : Scope
  /-- Each step: the label of the edge and the scope it leads to. -/
  steps : List (Label × Scope)
  deriving DecidableEq, Inhabited, Repr

namespace Path

/-- Paths are ordered by source and then step by step, a proper prefix first. -/
instance : Keyed Path :=
  Keyed.ofInjective (fun p ↦ (p.source, p.steps)) fun {a b} h ↦ by
    cases a; cases b; simp_all

/-- The path that stays at its source. -/
def start (s : Scope) : Path := ⟨s, []⟩

/-- The scope reached. -/
def target (p : Path) : Scope := (p.steps.getLast?.map Prod.snd).getD p.source

/-- The number of steps. -/
def length (p : Path) : Nat := p.steps.length

/-- Whether no step was taken. -/
def isEmpty (p : Path) : Bool := p.steps.isEmpty

/-- Every scope visited, the source first. -/
def scopes (p : Path) : List Scope := p.source :: p.steps.map Prod.snd

/-- The word spelt by the labels. -/
def labels (p : Path) : List Label := p.steps.map Prod.fst

/-- Whether a scope was visited. -/
def contains (p : Path) (s : Scope) : Bool := s ∈ p.scopes

/-- The path extended by one step, unless that leads to a scope visited before. -/
def step? (p : Path) (l : Label) (s : Scope) : Option Path :=
  if p.contains s then none else some ⟨p.source, p.steps ++ [(l, s)]⟩

/-- The path with every scope renamed. -/
def rename (r : Renaming) (p : Path) : Path :=
  ⟨r.apply p.source, p.steps.map fun e ↦ (e.1, r.apply e.2)⟩

/-- The form of a path inside descriptions. -/
def quoted (p : Path) : String :=
  p.source.quoted ++
    String.join (p.steps.map fun e ↦ " -" ++ ScopeGraphs.quoted e.1 ++ "-> " ++ e.2.quoted)

end Path

/-- A path together with the datum found at its end. -/
structure ResolvedPath where
  /-- The walk. -/
  path : Path
  /-- The datum of its last scope. -/
  datum : Datum
  deriving DecidableEq, Inhabited, Repr

namespace ResolvedPath

/-- Resolved paths are ordered by path, then by datum. -/
instance : Keyed ResolvedPath :=
  Keyed.ofInjective (fun r ↦ (r.path, r.datum)) fun {a b} h ↦ by
    cases a; cases b; simp_all

/-- The resolved path with every scope renamed, in the path and in the datum. -/
def rename (p : Renaming) (r : ResolvedPath) : ResolvedPath := ⟨r.path.rename p, r.datum.rename p⟩

end ResolvedPath

end ScopeGraphs
