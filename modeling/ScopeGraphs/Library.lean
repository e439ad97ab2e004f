import ScopeGraphs.Fault
import ScopeGraphs.Graph.Basic

/-!
# Libraries

A library is a scope graph built beforehand. Its root scopes are placeholders: when the library is
bound, each becomes the scope given for it, and every other scope of the library becomes a scope
of the unit that serves it.
-/

namespace ScopeGraphs

/-- A scope graph with placeholders for the scopes it will be attached to. -/
structure Library where
  /-- The placeholders, in the order in which scopes are given for them. -/
  roots : List Scope
  /-- The graph. -/
  graph : ScopeGraph
  deriving DecidableEq

namespace Library

/-- The scope made for the library scope number `i` that is not a root. -/
def freshScope (owner : UnitId) (i : Nat) : Scope := ⟨owner, "lib-" ++ toString i⟩

/-- Binds a library to given roots on behalf of the unit `owner`. The answer is the list of the
scopes made for it and the graph over them and the given roots. -/
def bind (lib : Library) (owner : UnitId) (given : List Scope) :
    Except Fault (List Scope × ScopeGraph) :=
  if given.length ≠ lib.roots.length then
    .error (.illegalState (.libraryRootCount lib.roots.length given.length))
  else
    match Renaming.of? (lib.roots.zip given) with
    | none => .error (.illegalState .libraryRoots)
    | some roots =>
      let free := lib.graph.scopes.toList.filter fun s ↦ !roots.containsOld s
      let own := (List.range free.length).map (freshScope owner)
      .ok (own, lib.graph.rename (roots.putEach (free.zip own)))

end Library

end ScopeGraphs
