import ScopeGraphs.Order.Keyed
import ScopeGraphs.Text.Quoted

/-!
# Identities

Units form a tree, and the id of a unit is the path to it: the id of a sub-unit is the id of its
parent, a slash and the local name. The same logical unit has the same id in every run, which is
how a previous result finds its successor.

A scope belongs to the unit that made it, its *owner*; the name tells the scopes of one owner
apart. Scopes are ordered by owner, then by name.
-/

namespace ScopeGraphs

/-! ## Units -/

/-- The id of a unit: its path from the root, with slashes between the local names. -/
structure UnitId where
  /-- The path as one text. -/
  text : String
  deriving DecidableEq, Inhabited, Repr

namespace UnitId

/-- The id of the sub-unit `name` of `u`. -/
def child (u : UnitId) (name : String) : UnitId := ⟨u.text ++ "/" ++ name⟩

/-- The local name of a unit: what follows the last slash of its id. -/
def localName (u : UnitId) : String :=
  String.ofList (u.text.toList.reverse.takeWhile (· ≠ '/')).reverse

instance : Keyed UnitId := Keyed.ofInjective text fun {a b} h ↦ by
  cases a; cases b; simp_all

instance : ToString UnitId := ⟨text⟩

/-- The form of a unit id inside messages about scopes. -/
def quoted (u : UnitId) : String := "UnitId(" ++ ScopeGraphs.quoted u.text ++ ")"

end UnitId

/-! ## Scopes and labels -/

/-- A scope: a node of the scope graph, owned by the unit that created it. -/
structure Scope where
  /-- The unit that created the scope. -/
  owner : UnitId
  /-- A name unique among the scopes of the owner. -/
  name : String
  deriving DecidableEq, Inhabited, Repr

namespace Scope

instance : Keyed Scope :=
  Keyed.ofInjective (fun s ↦ (s.owner, s.name)) fun {a b} h ↦ by
    cases a; cases b; simp_all

/-- The short form of a scope. -/
protected def toString (s : Scope) : String := "#" ++ s.owner.text ++ "-" ++ s.name

instance : ToString Scope := ⟨Scope.toString⟩

/-- The form of a scope inside messages. -/
def quoted (s : Scope) : String :=
  "Scope \x7b owner: " ++ s.owner.quoted ++ ", name: " ++ ScopeGraphs.quoted s.name ++ " \x7d"

end Scope

/-- The label of an edge. -/
abbrev Label := String

/-- What a scope can be asked for: its datum, or its edges under one label. The datum orders
before every label. -/
inductive Slot where
  /-- The datum of a scope. -/
  | datum
  /-- The outgoing edges of a scope under one label. -/
  | edge (label : Label)
  deriving DecidableEq, Inhabited, Repr

namespace Slot

/-- The label of an edge slot. -/
def label? : Slot → Option Label
  | datum => none
  | edge l => some l

/-- Whether this is the slot of the datum. -/
def isDatum : Slot → Bool
  | datum => true
  | edge _ => false

instance : Keyed Slot := Keyed.ofInjective label? fun {a b} h ↦ by
  cases a <;> cases b <;> simp_all [label?]

/-- The form of a slot inside descriptions of queries. -/
def quoted : Slot → String
  | datum => "Data"
  | edge l => "Edge(" ++ ScopeGraphs.quoted l ++ ")"

end Slot

end ScopeGraphs
