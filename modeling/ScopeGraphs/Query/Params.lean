import ScopeGraphs.Fault
import ScopeGraphs.Query.Env
import ScopeGraphs.Query.Pattern
import ScopeGraphs.Query.Preference

/-!
# Query parameters

Everything a query needs besides its starting point: the pattern its paths must match, the
preference between slots, the rule its data must satisfy, and the rule that says when one datum
covers another, so that a preferred path to the second hides a path to the first.

Rules are tests on data, or probes. A probe may ask a query of its own, fail, or fall silent, so
rules are evaluated in a `PredicateContext`, over any monad in which queries are asked. Probes hold
parameters in turn; `QueryParams.height` bounds how deep they nest.
-/

namespace ScopeGraphs

universe u

/-! ## Rules -/

/-- A predicate on data that does more than look at them. `π` is the type of the parameters of
the queries it asks. -/
inductive Probe (π : Type) where
  /-- Asks a query from the given scope, or else from the one the datum points at, and holds if
  the answer is nonempty, or if it is empty, as expected. Without any scope it does not hold. -/
  | query (scope : Option Scope) (params : π) (expectSome : Bool)
  /-- Fails on the given datum, or on every datum, and holds for all others. -/
  | fail (text : String) (on : Option Datum)
  /-- Holds, but from the given run on never answers. -/
  | silentFrom (run : Nat)

/-- Which data a query accepts. -/
inductive DataRule (π : Type) where
  /-- All. -/
  | any
  /-- Those that pass a named test. -/
  | test (name : String) (holds : Datum → Bool)
  /-- Those for which a probe holds. -/
  | probe (name : String) (p : Probe π)

/-- When a datum adds nothing to another one. -/
inductive CoverRule (π : Type) where
  /-- Always: whatever is preferred hides everything else. -/
  | always
  /-- Never: nothing is hidden. -/
  | never
  /-- When the two pass a named test. -/
  | test (name : String) (covers : Datum → Datum → Bool)
  /-- When a probe holds of the first. -/
  | probe (name : String) (p : Probe π)

/-- The parameters of a query. -/
inductive QueryParams where
  /-- Pattern, preference and the two rules. -/
  | mk (pattern : Pattern) (preference : Preference) (dataRule : DataRule QueryParams)
    (coverRule : CoverRule QueryParams)

namespace QueryParams

/-- The pattern that paths must match. -/
def pattern : QueryParams → Pattern
  | mk p _ _ _ => p

/-- The preference between slots. -/
def preference : QueryParams → Preference
  | mk _ o _ _ => o

/-- The rule for data. -/
def dataRule : QueryParams → DataRule QueryParams
  | mk _ _ d _ => d

/-- The rule that says when a datum is covered. -/
def coverRule : QueryParams → CoverRule QueryParams
  | mk _ _ _ c => c

/-- A query without preferences, in which nothing is hidden. -/
def unordered (p : Pattern) (d : DataRule QueryParams) : QueryParams := mk p .none d .never

/-- The query for every datum at the end of a path that matches. -/
def all (p : Pattern) : QueryParams := unordered p .any

instance : Inhabited QueryParams := ⟨all .epsilon⟩

/-- The same query for another pattern. -/
def withPattern (q : QueryParams) (p : Pattern) : QueryParams :=
  mk p q.preference q.dataRule q.coverRule

end QueryParams

/-- The name of a data rule in descriptions of queries. -/
def DataRule.describe {π : Type} : DataRule π → String
  | any => "AnyData"
  | test name _ | probe name _ => "DataWf(" ++ name ++ ")"

/-- The name of a cover rule in descriptions of queries. -/
def CoverRule.describe {π : Type} : CoverRule π → String
  | always => "AlwaysLeq"
  | never => "NeverLeq"
  | test name _ | probe name _ => "DataLeq(" ++ name ++ ")"

/-- A description of a query. -/
def QueryParams.describe (q : QueryParams) : String :=
  "QueryParams \x7b label_wf: " ++ q.pattern.describe ++
    ", label_order: " ++ q.preference.describe ++
    ", data_wf: " ++ q.dataRule.describe ++
    ", data_leq: " ++ q.coverRule.describe ++ " \x7d"

/-! ## Nesting -/

mutual

/-- How deep queries nest inside the rules of a query. -/
def QueryParams.height : QueryParams → Nat
  | .mk _ _ d c => max (dataHeight d) (coverHeight c)

/-- How deep queries nest inside a data rule. -/
def QueryParams.dataHeight : DataRule QueryParams → Nat
  | .any | .test _ _ => 0
  | .probe _ p => probeHeight p

/-- How deep queries nest inside a cover rule. -/
def QueryParams.coverHeight : CoverRule QueryParams → Nat
  | .always | .never | .test _ _ => 0
  | .probe _ p => probeHeight p

/-- How deep queries nest inside a probe. -/
def QueryParams.probeHeight : Probe QueryParams → Nat
  | .query _ q _ => q.height + 1
  | .fail _ _ | .silentFrom _ => 0

end

/-! ## Evaluation -/

/-- What rules need from where they are evaluated. -/
structure PredicateContext (m : Type → Type u) where
  /-- Asks a query on behalf of a rule. -/
  query : Scope → QueryParams → m Env
  /-- The answer that never comes. -/
  silence : m Bool
  /-- The number of the current run. -/
  run : Nat

section

variable {m : Type → Type u} [Monad m] [MonadExceptOf Fault m]

/-- The context in which rules must not ask queries. -/
def PredicateContext.noQueries (run : Nat) (silence : m Bool) : PredicateContext m where
  query _ _ := throw (.predicate "queries are not available in this context")
  silence := silence
  run := run

/-- Whether a probe holds of a datum. -/
def Probe.holds (ctx : PredicateContext m) (d : Datum) : Probe QueryParams → m Bool
  | query scope params expectSome =>
    match scope.orElse fun _ ↦ d.target? with
    | none => pure false
    | some s => do
      let env ← ctx.query s params
      pure (env.isEmpty != expectSome)
  | fail text on => if on.all (· = d) then throw (.predicate text) else pure true
  | silentFrom n => if ctx.run < n then pure true else ctx.silence

/-- Whether a rule accepts a datum. -/
def DataRule.holds (ctx : PredicateContext m) (d : Datum) : DataRule QueryParams → m Bool
  | any => pure true
  | test _ holds => pure (holds d)
  | probe _ p => p.holds ctx d

/-- Whether the first datum is covered by the second. -/
def CoverRule.covers (ctx : PredicateContext m) (d₁ d₂ : Datum) :
    CoverRule QueryParams → m Bool
  | always => pure true
  | never => pure false
  | test _ covers => pure (covers d₁ d₂)
  | probe _ p => p.holds ctx d₁

end

/-- Whether a rule is declared to cover everything. -/
def CoverRule.isAlways {π : Type} : CoverRule π → Bool
  | always => true
  | _ => false

end ScopeGraphs
