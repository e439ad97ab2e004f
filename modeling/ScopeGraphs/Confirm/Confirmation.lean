import ScopeGraphs.Confirm.Verdict
import ScopeGraphs.Diff.Walk
import ScopeGraphs.Query.Record
import ScopeGraphs.Settings

/-!
# Confirmation

Do the queries of a previous run still have the same answers, and under which renaming of scopes?
There are two ways to find out.

*Asking again* repeats every recorded query from the current counterpart of its source, and
compares the answer with the recorded one under the renaming collected so far.

*Looking at changes* repeats nothing. It walks over what changed in the part of the graph that the
query could see: what was added must not lead to anything the query accepts, what was removed must
not have led to anything, and what goes on in another unit is confirmed there. The queries that
the recorded one caused are confirmed in the same way; renamings found for queries of rules do not
carry over.

Both are written over any monad, against a `ConfirmContext`.
-/

namespace ScopeGraphs

universe u

/-- What confirmation needs from where it runs. -/
structure ConfirmContext (m : Type → Type u) where
  /-- Resolves in the current graph. -/
  query : Path → QueryParams → m Env
  /-- Resolves in the previous graph. -/
  queryPrevious : Path → QueryParams → m Env
  /-- The verdict of the unit that owns the end of a path, or nothing if that is the unit at
  hand. The last argument tells whether the previous answer was empty. -/
  external : Path → Pattern → DataRule QueryParams → Bool → m (Option Verdict)
  /-- What changed in what a query could see. -/
  envDiff : Path → Pattern → DataRule QueryParams → m EnvDiff
  /-- The current counterpart of a previous scope. -/
  counterpart : Scope → m (Option Scope)

namespace ConfirmContext

variable {m : Type → Type u} [Monad m] (ctx : ConfirmContext m)

/-! ## Asking again -/

/-- Asks recorded queries again, under a renaming known so far. -/
def askAgain : List QueryRecord → Renaming → m Verdict
  | [], p => pure (.confirm p)
  | q :: qs, p => do
    match ← ctx.counterpart q.path.target with
    | none => pure .deny
    | some current =>
      match p.put? q.path.target current with
      | none => pure .deny
      | some p =>
        let env ← ctx.query (.start current) q.params
        if env.accepted = (q.env.rename p).accepted then askAgain qs p else pure .deny

/-! ## Looking at changes -/

/-- The verdict on one change. A path that goes on elsewhere is confirmed there. -/
def confirmChange (prevEmpty : Bool) (c : EnvChange) : m Verdict :=
  match c.kind with
  | .added => do
    let env ← ctx.query c.path (.unordered c.pattern c.dataRule)
    pure (.ofEmpty env.isEmpty)
  | .removed =>
    if prevEmpty then pure .confirmed
    else do
      let env ← ctx.queryPrevious c.path (.unordered c.pattern c.dataRule)
      pure (.ofEmpty env.isEmpty)
  | .external => do
    pure ((← ctx.external c.path c.pattern c.dataRule prevEmpty).getD .deny)

/-- The verdicts on several changes together; the first denial ends it. -/
def confirmChanges (prevEmpty : Bool) : List EnvChange → Verdict → m Verdict
  | [], v => pure v
  | c :: cs, v => do
    let v := v.and (← ctx.confirmChange prevEmpty c)
    if v.isConfirmed then confirmChanges prevEmpty cs v else pure v

/-- Confirms that a path leads to the same environment as before. -/
def confirmPath (path : Path) (p : Pattern) (rule : DataRule QueryParams) (prevEmpty : Bool) :
    m Verdict := do
  match ← ctx.external path p rule prevEmpty with
  | some v => pure v
  | none =>
    let d ← ctx.envDiff path p rule
    ctx.confirmChanges prevEmpty d.changes (.confirm d.pairs)

mutual

/-- Confirms a recorded query together with the queries it caused. -/
def confirmRecord : QueryRecord → m Verdict
  | .mk path params env transitive predicate => do
    match ← ctx.counterpart path.target with
    | none => pure .deny
    | some current =>
      let v ← ctx.confirmPath (.start current) params.pattern params.dataRule env.isEmpty
      let v ← confirmTransitive transitive v
      confirmPredicate predicate v

/-- Confirms forwarded queries as long as nothing is denied. -/
def confirmTransitive : List QueryRecord → Verdict → m Verdict
  | [], v => pure v
  | q :: qs, v =>
    if v.isConfirmed then do confirmTransitive qs (v.and (← confirmRecord q)) else pure v

/-- Confirms queries of rules as long as nothing is denied, and forgets their renamings. -/
def confirmPredicate : List QueryRecord → Verdict → m Verdict
  | [], v => pure v
  | q :: qs, v =>
    if v.isConfirmed then do
      confirmPredicate qs (v.and (← confirmRecord q).withoutRenaming)
    else pure v

end

/-! ## Both -/

/-- Confirms all recorded queries of a unit. -/
def confirmAll (mode : ConfirmationMode) (qs : List QueryRecord) : m Verdict :=
  match mode with
  | .trivial => ctx.askAgain qs .identity
  | .simpleEnvironment => ctx.confirmTransitive qs .confirmed

/-- Confirms that the environment of a path is unchanged. Asking again has no way to do that. -/
def confirm [MonadExceptOf Fault m] (mode : ConfirmationMode) (path : Path) (p : Pattern)
    (rule : DataRule QueryParams) (prevEmpty : Bool) : m Verdict :=
  match mode with
  | .trivial => throw (.illegalState .wholeQueriesOnly)
  | .simpleEnvironment => ctx.confirmPath path p rule prevEmpty

end ConfirmContext

end ScopeGraphs
