import ScopeGraphs.Query.Params

/-!
# Recorded queries

A query is kept together with its answer, so that a later run can find out whether the answer
still holds. With it are kept the queries it caused: those forwarded to other units, and those that
its rules asked.
-/

namespace ScopeGraphs

/-- A query with its answer and the queries it caused. -/
inductive QueryRecord where
  /-- The starting path, the parameters, the answer, the forwarded queries and those of rules. -/
  | mk (path : Path) (params : QueryParams) (env : Env) (transitive predicate : List QueryRecord)

namespace QueryRecord

/-- The path the query started with. -/
def path : QueryRecord → Path
  | mk p _ _ _ _ => p

/-- The parameters. -/
def params : QueryRecord → QueryParams
  | mk _ q _ _ _ => q

/-- The answer. -/
def env : QueryRecord → Env
  | mk _ _ e _ _ => e

/-- The queries forwarded to other units. -/
def transitive : QueryRecord → List QueryRecord
  | mk _ _ _ t _ => t

/-- The queries asked by rules. -/
def predicate : QueryRecord → List QueryRecord
  | mk _ _ _ _ p => p

/-- Whether nothing was accepted. -/
def isEmpty (q : QueryRecord) : Bool := q.env.isEmpty

instance : Inhabited QueryRecord := ⟨mk (.start default) default .empty [] []⟩

end QueryRecord

/-- An answer on its way between units: the environment and the queries it took. -/
structure QueryAnswer where
  /-- The environment. -/
  env : Env
  /-- The queries forwarded to other units. -/
  transitive : List QueryRecord
  /-- The queries asked by rules. -/
  predicate : List QueryRecord

/-- The record of a query that got an answer. -/
def QueryAnswer.record (a : QueryAnswer) (path : Path) (q : QueryParams) : QueryRecord :=
  .mk path q a.env a.transitive a.predicate

end ScopeGraphs
