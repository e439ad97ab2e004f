import ScopeGraphs.Graph.Path

/-!
# Environments

The answer to a query: the resolved paths it accepts, and the ones it found and rejected because
a preferred one hides them.
-/

namespace ScopeGraphs

/-- Accepted and rejected resolved paths. -/
structure Env where
  /-- The answer proper. -/
  accepted : SortedSet ResolvedPath
  /-- What the answer hides. -/
  rejected : SortedSet ResolvedPath
  deriving DecidableEq

namespace Env

/-- The environment without any path. -/
def empty : Env := ⟨∅, ∅⟩

instance : Inhabited Env := ⟨empty⟩

/-- The environment that accepts one path. -/
def single (r : ResolvedPath) : Env := ⟨SortedSet.ofList [r], ∅⟩

/-- The environment with the given paths. -/
def of (accepted rejected : List ResolvedPath) : Env :=
  ⟨SortedSet.ofList accepted, SortedSet.ofList rejected⟩

/-- Whether no path is accepted. -/
def isEmpty (e : Env) : Bool := e.accepted.isEmpty

/-- The number of accepted paths. -/
def size (e : Env) : Nat := e.accepted.size

/-- The accepted paths, in order. -/
def paths (e : Env) : List ResolvedPath := e.accepted.toList

/-- The data at the ends of the accepted paths, in the order of the paths. -/
def data (e : Env) : List Datum := e.paths.map ResolvedPath.datum

/-- The data at the ends of the accepted paths, in the order of data. -/
def sortedData (e : Env) : List Datum := e.data.mergeSort Datum.le

/-- The environment that also accepts a path. -/
def accept (e : Env) (r : ResolvedPath) : Env := { e with accepted := e.accepted.insert r }

/-- The environment that also rejects a path. -/
def reject (e : Env) (r : ResolvedPath) : Env := { e with rejected := e.rejected.insert r }

/-- What either environment accepts, and what either rejects. -/
def union (e f : Env) : Env where
  accepted := f.accepted.toList.foldl (fun s r ↦ s.insert r) e.accepted
  rejected := f.rejected.toList.foldl (fun s r ↦ s.insert r) e.rejected

/-- The union of several environments. -/
def unions (es : List Env) : Env := es.foldl union empty

/-- The environment with every scope renamed. -/
def rename (p : Renaming) (e : Env) : Env :=
  .of (e.accepted.toList.map (ResolvedPath.rename p))
    (e.rejected.toList.map (ResolvedPath.rename p))

end Env

end ScopeGraphs
