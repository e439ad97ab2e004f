import ScopeGraphs.Checkpoint.Shape
import ScopeGraphs.Library
import ScopeGraphs.Query.Params
import ScopeGraphs.Units.Report

/-!
# Checker scripts

Checkers given as programs: lists of statements that act on a unit one after the other. Scopes are
mentioned by reference, answers are kept under names, and a call whose answer takes time may be made
first and awaited later.
-/

namespace ScopeGraphs

namespace Script

/-- How a scope is mentioned. -/
inductive Ref where
  /-- A root scope of the unit, by its position. -/
  | root (i : Nat)
  /-- A scope that the checker has created, by its name. -/
  | var (name : String)
  /-- A scope itself. -/
  | scope (s : Scope)
  deriving DecidableEq, Repr

/-- What the names of a program stand for so far. -/
structure Bindings where
  /-- The root scopes. -/
  roots : List Scope
  /-- The scopes created. -/
  scopes : SortedMap String Scope
  /-- The answers to queries. -/
  envs : SortedMap String Env
  /-- The reports of sub-units. -/
  reports : SortedMap String Report

namespace Bindings

/-- The scope that a reference stands for. -/
def scope? (b : Bindings) : Ref → Option Scope
  | .root i => b.roots[i]?
  | .var name => b.scopes[name]?
  | .scope s => some s

/-- The scopes that several references stand for. -/
def scopes? (b : Bindings) (rs : List Ref) : Option (List Scope) := rs.mapM b.scope?

end Bindings

/-- An expression for a datum. -/
inductive Expr where
  /-- A datum. -/
  | datum (d : Datum)
  /-- A scope. -/
  | scope (r : Ref)
  /-- The data that a query found, in order. -/
  | data (query : String)
  /-- The number of paths that a query found. -/
  | count (query : String)
  /-- The result of a sub-unit, if it has one. -/
  | result (sub : String)
  /-- The failures of a sub-unit. -/
  | failures (sub : String)
  /-- A list. -/
  | list (es : List Expr)
  /-- A pair. -/
  | pair (a b : Expr)
  /-- A present optional value. -/
  | present (e : Expr)

mutual

/-- The value of an expression, if all it mentions is known. -/
def Expr.value? (b : Bindings) : Expr → Option Datum
  | .datum d => some d
  | .scope r => (b.scope? r).map .scope
  | .data q => (b.envs[q]?).map fun e ↦ .list e.sortedData
  | .count q => (b.envs[q]?).map fun e ↦ .int e.size
  | .result s => (b.reports[s]?).map fun r ↦ .ofOption r.result
  | .failures s => (b.reports[s]?).map fun r ↦ .list (r.failures.map .text)
  | .list es => (Expr.values? b es).map .list
  | .pair x y => do
    let v ← x.value? b
    let w ← y.value? b
    some (.pair v w)
  | .present e => (e.value? b).map .some

/-- The values of several expressions. -/
def Expr.values? (b : Bindings) : List Expr → Option (List Datum)
  | [] => some []
  | e :: es => do
    let v ← e.value? b
    let vs ← Expr.values? b es
    some (v :: vs)

end

/-- The parameters of a query that mentions scopes by reference. -/
abbrev QueryTemplate := (Ref → Option Scope) → Option QueryParams

/-- A call whose answer takes time. -/
inductive Call where
  /-- Asks a query from a scope. -/
  | query (scope : Ref) (params : QueryTemplate)
  /-- Adds a sub-unit that runs a program. -/
  | add (name program : String) (roots : List Ref) (changed : Bool)
  /-- Adds a sub-unit that serves a library. -/
  | library (name : String) (roots : List Ref) (lib : Library)
  /-- Asks for reuse of the previous result. -/
  | reuse

/-- What a statement does. -/
inductive Instruction where
  /-- Asks who the unit is. -/
  | info
  /-- Creates a scope and names it. -/
  | fresh (base : String) (labels : List Label) (hasDatum sharing : Bool) (name : Option String)
  /-- Initialises a scope. -/
  | init (scope : Ref) (labels : List Label) (sharing : Bool)
  /-- Announces an initialisation. -/
  | share (scope : Ref)
  /-- Sets a datum. -/
  | datum (scope : Ref) (value : Expr)
  /-- Adds an edge. -/
  | edge (source : Ref) (label : Label) (target : Ref)
  /-- Closes a label of a scope. -/
  | close (scope : Ref) (label : Label)
  /-- Closes a scope for sharing. -/
  | closeScope (scope : Ref)
  /-- Makes a call. Its answer is awaited now, or later under a name. -/
  | call (c : Call) (name : Option String) (later : Bool)
  /-- Awaits the answer to a call made before. -/
  | await (name : String)
  /-- Awaits the answers to several calls made before. -/
  | join (names : List String)
  /-- Gives up a call made before. -/
  | forget (name : String)
  /-- Looks at the previous result. -/
  | previous
  /-- Writes down the state of the checker. -/
  | state (text : String)
  /-- Lets others go on first. -/
  | yield
  /-- Waits for ever. -/
  | never
  /-- Fails. -/
  | fail (text : String)
  /-- Ends the checker with a result. -/
  | result (value : Expr)

/-- A statement. -/
structure Statement where
  /-- What it does. -/
  instruction : Instruction
  /-- The unit on behalf of which it acts, if not the unit of the checker. -/
  via : Option UnitId
  /-- Whether a failure is the failure of the checker. -/
  must : Bool
  /-- Whether the checker goes on although its previous result is reused. -/
  goOn : Bool

/-- How a checker presents the data of its unit to other units. -/
inductive External where
  /-- As they are. -/
  | plain
  /-- Paired with a text. -/
  | tagged (tag : String)
  /-- Not at all. -/
  | failing (text : String)
  deriving DecidableEq, Repr

/-- A checker. -/
structure Program where
  /-- What it does. -/
  body : List Statement
  /-- How it presents data. -/
  external : External
  /-- The state it starts with. -/
  state : Option String

/-- How the data of a unit with a program are presented to other units. -/
def Program.presented (p : Program) (d : Datum) : Except String Datum :=
  match p.external with
  | .plain => .ok d
  | .tagged tag => .ok (.pair (.text tag) d)
  | .failing text => .error ("external datum: " ++ text)

/-- The word for a call in journals. -/
def Call.word : Call → String
  | query _ _ => "query"
  | add _ _ _ _ => "add"
  | library _ _ _ => "library"
  | reuse => "incr"

/-- The word for an instruction in journals. -/
def Instruction.word : Instruction → String
  | info => "info"
  | fresh _ _ _ _ _ => "fresh"
  | init _ _ _ => "init"
  | share _ => "share"
  | datum _ _ => "datum"
  | edge _ _ _ => "edge"
  | close _ _ => "close"
  | closeScope _ => "close_scope"
  | call c _ _ => c.word
  | await _ => "await"
  | join _ => "join"
  | forget _ => "forget"
  | previous => "previous"
  | state _ => "state"
  | yield => "yield"
  | never => "never"
  | fail _ => "fail"
  | result _ => "return"

end Script

end ScopeGraphs
