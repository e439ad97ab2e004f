import ScopeGraphs.Diff.Scope
import ScopeGraphs.Query.Params

/-!
# Differences of environments

What changed in the part of a graph that a query could have seen. The walk follows the edges that
are matched with previous ones, within one unit and along the pattern of the query, and lists every
place where something may have appeared or vanished, or where the path goes on in another unit.
Whether a listed change affects the answer is for others to find out.
-/

namespace ScopeGraphs

universe u

/-- What kind of change was found. -/
inductive ChangeKind where
  /-- A current path without a previous counterpart. -/
  | added
  /-- A previous path, in previous identities, that is gone. -/
  | removed
  /-- A path that goes on in another unit. -/
  | external
  deriving DecidableEq, Repr

/-- The word for a kind of change. -/
def ChangeKind.text : ChangeKind → String
  | added => "added"
  | removed => "removed"
  | external => "external"

/-- A change that a query could see. -/
structure EnvChange where
  /-- The kind of change. -/
  kind : ChangeKind
  /-- The path to it. -/
  path : Path
  /-- How paths may continue from there. -/
  pattern : Pattern
  /-- The data the query accepts. -/
  dataRule : DataRule QueryParams

/-- The description of a change. -/
def EnvChange.describe (c : EnvChange) : String :=
  c.kind.text ++ " " ++ c.path.quoted ++ " under " ++ c.pattern.describe

/-- What a walk found. -/
structure EnvDiff where
  /-- The pairs of scopes that the walk relied on. -/
  pairs : Renaming
  /-- The changes, in the order of the walk. -/
  changes : List EnvChange

namespace EnvDiff

/-- Nothing found. -/
def empty : EnvDiff := ⟨.identity, []⟩

instance : Inhabited EnvDiff := ⟨empty⟩

/-- Whether there are no changes. -/
def isUnchanged (d : EnvDiff) : Bool := d.changes.isEmpty

/-- Takes over what another walk found; pairs in conflict with known ones are left out. -/
def absorb (d e : EnvDiff) : EnvDiff := ⟨d.pairs.putEach e.pairs.pairs, d.changes ++ e.changes⟩

/-- The changes at the datum of a scope, the last one of a path. -/
def datumChanges (path : Path) (p : Pattern) (rule : DataRule QueryParams) (d : ScopeDiff) :
    List EnvChange :=
  if p.accepting && d.datumChanged then
    (if d.hasDatum then [⟨.added, path, .epsilon, rule⟩] else []) ++
      (if d.hadDatum then [⟨.removed, .start d.previous, .epsilon, rule⟩] else [])
  else []

/-- The changes at edges, from the end of a path on, that the pattern can follow. -/
def edgeChanges (kind : ChangeKind) (path : Path) (p : Pattern) (rule : DataRule QueryParams)
    (edges : List (Label × Scope)) : List EnvChange :=
  edges.filterMap fun e ↦
    match p.step? e.1, path.step? e.1 e.2 with
    | some next, some longer => some ⟨kind, longer, next, rule⟩
    | _, _ => none

/-- The changes at the end of a path, without those behind matched edges. -/
def changesAt (path : Path) (p : Pattern) (rule : DataRule QueryParams) (d : ScopeDiff) :
    List EnvChange :=
  datumChanges path p rule d ++ edgeChanges .added path p rule d.added ++
    edgeChanges .removed (.start d.previous) p rule d.removed

end EnvDiff

/-- The differences of the scopes of a unit, as a walk asks for them. -/
structure DiffContext (m : Type → Type u) where
  /-- The unit. -/
  owner : UnitId
  /-- The difference of a scope of the unit, or nothing if it was not there before. -/
  scopeDiff : Scope → m (Option ScopeDiff)

namespace DiffContext

variable {m : Type → Type u} [Monad m] (ctx : DiffContext m)

/-- Takes over what is found behind matched edges, one edge after the other. -/
def behind (descend : Path → Pattern → m EnvDiff) (path : Path) (p : Pattern) :
    List (Label × Scope) → EnvDiff → m EnvDiff
  | [], out => pure out
  | e :: es, out =>
    match p.step? e.1, path.step? e.1 e.2 with
    | some next, some longer => do behind descend path p es (out.absorb (← descend longer next))
    | _, _ => behind descend path p es out

/-- Walks from the end of a path, for paths that can be extended `depth` times at most. -/
def walk (rule : DataRule QueryParams) : Nat → Path → Pattern → m EnvDiff
  | 0, _, _ => pure .empty
  | depth + 1, path, p =>
    if path.target.owner ≠ ctx.owner then pure ⟨.identity, [⟨.external, path, p, rule⟩]⟩
    else do
      match ← ctx.scopeDiff path.target with
      | none => pure ⟨.identity, [⟨.added, path, p, rule⟩]⟩
      | some d =>
        behind (walk rule depth) path p d.matched
          ⟨Renaming.identity.put d.previous d.current, EnvDiff.changesAt path p rule d⟩

end DiffContext

end ScopeGraphs
