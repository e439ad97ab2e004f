import ScopeGraphs.Graph.Basic
import ScopeGraphs.Resolution.Resolver

/-!
# Resolution in a fixed graph

The resolver over a complete graph that does not change. Nothing is resolved elsewhere and nothing
has to be awaited, so the only effect left is failure.
-/

namespace ScopeGraphs

namespace ScopeGraph

/-- The context in which the rules of a query on a fixed graph ask no queries. -/
def noQueries : PredicateContext (Except Fault) := .noQueries 0 (pure true)

/-- The resolver over a fixed graph. -/
def resolver (g : ScopeGraph) (labels : List Label) (q : QueryParams)
    (ctx : PredicateContext (Except Fault)) : Resolver (Except Fault) where
  labels := labels
  preference := q.preference
  elsewhere _ _ := pure none
  targets s l := pure (g.targets s l)
  datum? s := pure (g.datum? s)
  accepts d := q.dataRule.holds ctx d
  covers d₁ d₂ := q.coverRule.covers ctx d₁ d₂
  coversAll := q.coverRule.isAlways
  together _ es := es.mapM id

/-- The environment of a path in a fixed graph. No extension of the path is longer than the graph
has scopes. -/
def envOf (g : ScopeGraph) (labels : List Label) (path : Path) (q : QueryParams)
    (ctx : PredicateContext (Except Fault) := noQueries) : Except Fault Env :=
  (g.resolver labels q ctx).env (g.scopes.size + 1) path q.pattern

/-- The answer to a query from a scope of a fixed graph. -/
def resolve (g : ScopeGraph) (labels : List Label) (source : Scope) (q : QueryParams) :
    Except Fault Env :=
  g.envOf labels (.start source) q

/-- The context whose queries are answered in a fixed graph; the rules of those queries ask no
further ones. -/
def predicateContext (g : ScopeGraph) (labels : List Label) :
    PredicateContext (Except Fault) where
  query s q := g.resolve labels s q
  silence := pure true
  run := 0

end ScopeGraph

/-- Shadowing of environments found elsewhere, under a rule whose probes ask no queries. -/
def Env.shadowed (rule : CoverRule QueryParams) (preferred candidates : Env) : Except Fault Env :=
  Resolver.shadow (rule.covers ScopeGraph.noQueries) preferred candidates

end ScopeGraphs
