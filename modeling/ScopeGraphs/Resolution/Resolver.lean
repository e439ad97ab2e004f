import ScopeGraphs.Query.Params

/-!
# Name resolution

The environment of a path under a pattern: every datum that can be reached from the end of the
path along a continuation that the pattern accepts, where what is found through a preferred slot
hides what it covers among the finds through the other slots.

Resolution is written once, over any monad, against a `Resolver`: the access to the graph and the
evaluation of the two rules. A resolver may know the answer for a path by other means, typically
because the path has left the part of the graph at hand.

Two measures make it end. A path never visits a scope twice, so the recursion on extended paths is
bounded by the number of scopes; that bound is the `depth` of `Resolver.env`. And below a slot
there are strictly fewer slots than in the list it was taken from, which bounds the recursion of
`Resolver.layered` on slots.
-/

namespace ScopeGraphs

universe u

/-- The graph, and the rules of a query, as a resolution sees them. -/
structure Resolver (m : Type → Type u) where
  /-- The labels a query may follow, in the order in which they are tried. -/
  labels : List Label
  /-- The preference between slots. -/
  preference : Preference
  /-- The environment of a path that is not resolved here. -/
  elsewhere : Path → Pattern → m (Option Env)
  /-- The targets of the edges of a scope under a label. -/
  targets : Scope → Label → m (List Scope)
  /-- The datum of a scope. -/
  datum? : Scope → m (Option Datum)
  /-- Whether the query accepts a datum. -/
  accepts : Datum → m Bool
  /-- Whether the first datum is covered by the second. -/
  covers : Datum → Datum → m Bool
  /-- Whether every datum is declared to be covered by every other one. -/
  coversAll : Bool
  /-- Runs several resolutions side by side, at most as many as given; a failure ends them all. -/
  together : Nat → List (m Env) → m (List Env)

namespace Resolver

/-- The slots through which a path may go on, or end. -/
def slots (labels : List Label) (p : Pattern) : List Slot :=
  (if p.accepting then [.datum] else []) ++
    (labels.filter fun l ↦ (p.step? l).isSome).map .edge

variable {m : Type → Type u} [Monad m]

/-! ## Shadowing -/

/-- Whether one of the winners covers a path. -/
def isShadowed (covers : Datum → Datum → m Bool) (r : ResolvedPath) :
    List ResolvedPath → m Bool
  | [] => pure false
  | w :: ws => do if ← covers r.datum w.datum then pure true else isShadowed covers r ws

/-- Adds candidates to an environment: a candidate that a winner covers is rejected, unless it is
among the winners itself, and every other one is accepted. -/
def addCandidates (covers : Datum → Datum → m Bool) (winners : List ResolvedPath) :
    List ResolvedPath → Env → m Env
  | [], env => pure env
  | r :: rs, env => do
    if ← isShadowed covers r winners then
      addCandidates covers winners rs (if r ∈ winners then env else env.reject r)
    else addCandidates covers winners rs (env.accept r)

/-- A preferred environment together with what it leaves of less preferred candidates. -/
def shadow (covers : Datum → Datum → m Bool) (preferred candidates : Env) : m Env :=
  addCandidates covers preferred.paths candidates.paths
    (candidates.rejected.toList.foldl Env.reject preferred)

/-! ## Environments -/

variable (r : Resolver m)

/-- The environment of the datum at the end of a path. -/
def ofDatum (path : Path) : m Env := do
  match ← r.datum? path.target with
  | none => pure .empty
  | some d => if ← r.accepts d then pure (.single ⟨path, d⟩) else pure .empty

/-- The environment through the edges under one label, given how extended paths resolve. -/
def ofEdges (descend : Path → Pattern → m Env) (path : Path) (p : Pattern) (l : Label) : m Env :=
  match p.step? l with
  | none => pure .empty
  | some next => do
    let targets ← r.targets path.target l
    let parts ← r.together targets.length
      ((targets.filterMap (path.step? l)).map fun q ↦ descend q next)
    pure (.unions parts)

/-- The environment through one slot. -/
def ofSlot (descend : Path → Pattern → m Env) (path : Path) (p : Pattern) : Slot → m Env
  | .datum => r.ofDatum path
  | .edge l => r.ofEdges descend path p l

/-- The environment through several slots. Each slot over which nothing is preferred less is
resolved below the slots preferred over it, layer by layer, and shadowed by what they find. -/
def layered (descend : Path → Pattern → m Env) (path : Path) (p : Pattern) :
    Nat → List Slot → m Env
  | 0, _ => pure .empty
  | n + 1, slots => do
    let maximal := r.preference.maximal slots
    let parts ← r.together maximal.length (maximal.map fun slot ↦ do
      let preferred ← layered descend path p n (r.preference.below slots slot)
      if !preferred.isEmpty && r.coversAll then pure preferred
      else
        let own ← r.ofSlot descend path p slot
        shadow r.covers preferred own)
    pure (.unions parts)

/-- The environment of a path under a pattern, for paths that can be extended `depth` times at
most. -/
def env : Nat → Path → Pattern → m Env
  | 0, _, _ => pure .empty
  | depth + 1, path, p => do
    match ← r.elsewhere path p with
    | some found => pure found
    | none =>
      let slots := slots r.labels p
      r.layered (env depth) path p slots.length slots

end Resolver

end ScopeGraphs
