import ScopeGraphs.Wait.Graph

/-!
# Waits by waiter and by holder

A wait-for graph is asked who waits for a unit as often as what a unit waits for. A `WaitIndex`
answers both from a map: the edges are filed under their waiters, in the order in which they arose,
and each holder has the set of the units that wait for it.

A unit may wait for another one in several ways at once. It leaves the set of the other one with
the last of these edges, and entries that have become empty are taken out of both maps.
-/

namespace ScopeGraphs

variable {τ : Type}

/-- A multiset of wait edges, filed under waiters, with the waiters of every holder. -/
structure WaitIndex (τ : Type) where
  /-- The edges of every unit that waits. -/
  waits : SortedMap UnitId (List (WaitEdge τ))
  /-- The units that wait for every unit that is waited for. -/
  waiters : SortedMap UnitId (SortedSet UnitId)

namespace WaitIndex

/-- The index without edges. -/
def empty : WaitIndex τ := ⟨∅, ∅⟩

instance : Inhabited (WaitIndex τ) := ⟨empty⟩

/-- The edges of a unit, in the order in which they arose. -/
def edgesOf (x : WaitIndex τ) (u : UnitId) : List (WaitEdge τ) := (x.waits[u]?).getD []

/-- The set of the units that wait for a unit. -/
def waiterSet (x : WaitIndex τ) (u : UnitId) : SortedSet UnitId := (x.waiters[u]?).getD ∅

/-- The units that wait for a unit, in order. -/
def waitersOf (x : WaitIndex τ) (u : UnitId) : List UnitId := (x.waiterSet u).toList

/-- The number of edges. -/
def edgeCount (x : WaitIndex τ) : Nat := x.waits.toList.foldr (fun a n ↦ a.2.length + n) 0

/-- Whether there are no edges. -/
def isEmpty (x : WaitIndex τ) : Bool := x.waits.isEmpty

/-- The edges, one waiter after the other. -/
def graph (x : WaitIndex τ) : WaitGraph τ := ⟨x.waits.toList.flatMap Prod.snd⟩

/-! ## Changes -/

/-- The index with one more edge. -/
def add (x : WaitIndex τ) (e : WaitEdge τ) : WaitIndex τ where
  waits := x.waits.insert e.waiter (x.edgesOf e.waiter ++ [e])
  waiters := x.waiters.insert e.holder ((x.waiterSet e.holder).insert e.waiter)

/-- The waiters of all units when one unit no longer waits for another one. -/
def dropWaiter (waiters : SortedMap UnitId (SortedSet UnitId)) (holder waiter : UnitId) :
    SortedMap UnitId (SortedSet UnitId) :=
  match waiters[holder]? with
  | none => waiters
  | some us =>
    let us := us.erase waiter
    if us.isEmpty then waiters.erase holder else waiters.insert holder us

/-- Edges without the first one that has a given holder and is about a given thing, or nothing if
there is no such edge. -/
def dropEdge? [DecidableEq τ] (es : List (WaitEdge τ)) (holder : UnitId) (resource : τ) :
    Option (List (WaitEdge τ)) :=
  (es.findIdx? fun e ↦ e.holder = holder && e.resource = resource).map es.eraseIdx

/-- The index when only some edges of a unit are left, after one towards a holder was dropped. -/
def refile (x : WaitIndex τ) (waiter holder : UnitId) (es : List (WaitEdge τ)) : WaitIndex τ where
  waits := if es.isEmpty then x.waits.erase waiter else x.waits.insert waiter es
  waiters :=
    if es.any fun e ↦ e.holder = holder then x.waiters else dropWaiter x.waiters holder waiter

/-- The index with one occurrence of an edge less, or nothing if there is none. -/
def remove? [DecidableEq τ] (x : WaitIndex τ) (e : WaitEdge τ) : Option (WaitIndex τ) := do
  let es ← x.waits[e.waiter]?
  let rest ← dropEdge? es e.holder e.resource
  some (x.refile e.waiter e.holder rest)

end WaitIndex

end ScopeGraphs
