import ScopeGraphs.Engine.Process
import ScopeGraphs.Resolution.Resolver

/-!
# Answering queries

A unit resolves the part of a query that stays within its own fragment. It reads the edges of a
scope under a label, and its datum, only when nothing can be added to them any more; until then it
waits. A path that leaves the fragment is forwarded to the unit that owns its end. Every forwarded
query, and every query that a rule asks, is entered with its answer into the ledger of the query
that caused it.

Queries about the previous run work in the same way on the fragment of that run, which is complete,
so that nothing has to be awaited there.
-/

namespace ScopeGraphs

variable {γ : Type}

/-- How checkers present the data of their units to other units: each datum gets the form in which
it is handed out, or the text of a failure. -/
abbrev Presentation (γ : Type) := γ → Datum → Except String Datum

/-- More scopes than a unit can create while a query is on its way, and more than can be taken up
while the counterpart of a scope is searched for. -/
def headroom : Nat := 0x10000000000

namespace Flow

/-- Waits until a unit has decided about reuse. -/
def untilDecided (u : UnitId) : Flow γ PUnit := do
  match ← onUnit u .awaitDecided with
  | some c => discard (await c)
  | none => pure ⟨⟩

/-- Waits until a slot of a scope can no longer change in a unit. -/
def untilClosed (u : UnitId) (s : Scope) (slot : Slot) : Flow γ PUnit := do
  match ← onUnit u (.awaitClosed s slot) with
  | some c => discard (await c)
  | none => pure ⟨⟩

/-- Asks another unit on behalf of a unit, and waits for the answer. -/
def ask {α : Type} (u : UnitId) (q : Question) (open? : Parcel → Option (Except Fault α)) :
    Flow γ α := do
  let ticket ← onUnit u (.ask q)
  let parcel ← await ticket.reply
  onUnit u (.endAsking ticket)
  match parcel.bind open? with
  | some answer => ExceptT.mk (pure answer)
  | none => throw (.unitUnavailable ticket.holder)

/-- The form of a datum of a unit that is handed to another unit. -/
def present (presented : Presentation γ) (code : Option γ) (d : Datum) : Flow γ Datum :=
  match code with
  | none => pure d
  | some code =>
    match presented code d with
    | .ok d => pure d
    | .error text => throw (.checker text)

end Flow

/-- The answer to a query in a parcel. -/
def Parcel.answer? : Parcel → Option (Except Fault QueryAnswer)
  | answer a => some a
  | _ => none

/-- The answer to a query about the previous run in a parcel. -/
def Parcel.previous? : Parcel → Option (Except Fault Env)
  | previous e => some e
  | _ => none

namespace Answering

open ScopeGraphs.Flow

variable (presented : Presentation γ) (setup : Setup)

/-! ## The current run -/

/-- Forwards a query on behalf of a unit, and enters it into a ledger. -/
def forward (unit : UnitId) (l : LedgerId) (path : Path) (q : QueryParams) : Flow γ Env := do
  let a ← ask unit (.query path q) Parcel.answer?
  perform (.enter l false (a.record path q))
  pure a.env

/-- The datum of a scope as the asking unit gets to see it. -/
def readDatum (unit sender : UnitId) (s : Scope) : Flow γ (Option Datum) := do
  untilClosed unit s .datum
  let (datum, code) ← look unit fun u ↦ (u.graph.datum? s, u.code?)
  match datum with
  | none => pure none
  | some d => if sender = unit then pure (some d) else some <$> present presented code d

/-- The resolver of a query in a unit, on behalf of the unit that asked. -/
def resolver (unit sender : UnitId) (l : LedgerId) (q : QueryParams)
    (rules : PredicateContext (Flow γ)) : Resolver (Flow γ) where
  labels := setup.labels
  preference := q.preference
  elsewhere path p :=
    if path.target.owner = unit then pure none
    else some <$> forward unit l path (q.withPattern p)
  targets s label := do
    untilClosed unit s (.edge label)
    look unit fun u ↦ u.graph.targets s label
  datum? := readDatum presented unit sender
  accepts d := q.dataRule.holds rules d
  covers d₁ d₂ := q.coverRule.covers rules d₁ d₂
  coversAll := q.coverRule.isAlways
  together := Flow.together

/-- Resolves a query in a unit on behalf of the unit that asked. The first argument bounds how deep
queries nest inside rules. -/
def resolveNested : Nat → UnitId → UnitId → Path → QueryParams → Flow γ QueryAnswer
  | height, unit, sender, path, q => do
    let l ← perform .openLedger
    let depth ← look unit fun u ↦ u.graph.scopes.size + headroom
    let rules : PredicateContext (Flow γ) :=
      match height with
      | 0 => .noQueries setup.run never
      | n + 1 =>
        { query := fun s q => do
            let a ← resolveNested n unit unit (.start s) q
            perform (.enter l true (a.record (.start s) q))
            pure a.env
          silence := never
          run := setup.run }
    let env ← (resolver presented setup unit sender l q rules).env depth path q.pattern
    let entries ← perform (.closeLedger l)
    pure ⟨env, entries.transitive, entries.predicate⟩

/-- Resolves a query in a unit on behalf of the unit that asked. -/
def resolve (unit sender : UnitId) (path : Path) (q : QueryParams) : Flow γ QueryAnswer :=
  resolveNested presented setup q.height unit sender path q

/-! ## The previous run -/

/-- The resolver of a query about the previous run in a unit. Its rules ask no queries. -/
def previousResolver (unit : UnitId) (graph : ScopeGraph) (q : QueryParams) :
    Resolver (Flow γ) where
  labels := setup.labels
  preference := q.preference
  elsewhere path p :=
    if path.target.owner = unit then pure none
    else some <$> ask unit (.previous path (q.withPattern p)) Parcel.previous?
  targets s label := pure (graph.targets s label)
  datum? s := pure (graph.datum? s)
  accepts d := q.dataRule.holds (.noQueries setup.run never) d
  covers d₁ d₂ := q.coverRule.covers (.noQueries setup.run never) d₁ d₂
  coversAll := q.coverRule.isAlways
  together := Flow.together

/-- Resolves a query in the graph of the previous run, as seen from a unit. -/
def resolvePrevious (unit : UnitId) (path : Path) (q : QueryParams) : Flow γ Env := do
  let graph ← look unit UnitNode.previousGraph
  (previousResolver setup unit graph q).env (graph.scopes.size + 1) path q.pattern

/-! ## Tasks -/

/-- Answers a query as soon as the unit has decided about reuse. -/
def answerQuery (unit sender : UnitId) (path : Path) (q : QueryParams) :
    Flow γ QueryAnswer := do
  untilDecided unit
  resolve presented setup unit sender path q

end Answering

end ScopeGraphs
