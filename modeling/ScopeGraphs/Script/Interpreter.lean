import ScopeGraphs.Engine.Calls
import ScopeGraphs.Engine.Run
import ScopeGraphs.Script.Program

/-!
# Running checker scripts

A program runs as the checker of a unit. Every statement writes its answer into the journal of that
unit. A failure is only noted, unless the statement must succeed; a statement that mentions
something unknown does nothing. A checker that learns that its previous result is reused ends with
that result, unless it is told to go on.
-/

namespace ScopeGraphs

namespace Script

/-- What a checker keeps between two statements. -/
structure Frame where
  /-- Its unit. -/
  self : UnitId
  /-- What names stand for. -/
  names : Bindings
  /-- Calls whose answers have not been awaited, by name. -/
  pending : SortedMap String PendingCall

/-- What a statement came to. -/
inductive Outcome where
  /-- The checker goes on, with an answer for the journal. -/
  | next (reply : Reply) (f : Frame)
  /-- The checker ends with a reused result, and with an answer for the journal. -/
  | reused (reply : Reply) (result : Datum)
  /-- The checker ends with a result. -/
  | ended (result : Datum)

/-- The programs that sub-units run, by name. -/
abbrev Programs := SortedMap String Program

namespace Frame

/-- The frame of a checker that begins. -/
def start (self : UnitId) (roots : List Scope) : Frame := ⟨self, ⟨roots, ∅, ∅, ∅⟩, ∅⟩

/-- Gives a name to a scope. -/
def nameScope (f : Frame) (name : Option String) (s : Scope) : Frame :=
  match name with
  | some x => { f with names := { f.names with scopes := f.names.scopes.insert x s } }
  | none => f

/-- Keeps an answer under a name. -/
def nameAnswer (f : Frame) (name : Option String) (a : CallAnswer) : Frame :=
  match name, a with
  | some x, .env e => { f with names := { f.names with envs := f.names.envs.insert x e } }
  | some x, .report r => { f with names := { f.names with reports := f.names.reports.insert x r } }
  | _, _ => f

/-- Keeps a call that is awaited later. -/
def keepCall (f : Frame) (name : Option String) (c : PendingCall) : Frame :=
  match name with
  | some x => { f with pending := f.pending.insert x c }
  | none => f

/-- Forgets a call. -/
def dropCall (f : Frame) (name : String) : Frame := { f with pending := f.pending.erase name }

end Frame

/-! ## Answers -/

/-- The answer to a call for the journal. -/
def replyOf : CallAnswer → Reply
  | .env e => .env e
  | .report r => .report r
  | .decision (.reuse d p) => .reuse d p
  | .decision (.restart state) => .restart state

/-- The answer or the failure of an operation for the journal. -/
def replyOrFault {α : Type} (reply : α → Reply) : Except Fault α → Reply
  | .ok a => reply a
  | .error f => .fault f

/-- Goes on after an operation that may fail. -/
def attempt {α : Type} (f : Frame) (op : Flow Program α) (reply : α → Reply) :
    Proc Program Outcome := do
  let r ← op.run
  pure (.next (replyOrFault reply r) f)

/-- Does nothing, because something is unknown. -/
def unbound (f : Frame) : Proc Program Outcome := pure (.next .unbound f)

/-! ## Calls -/

variable (setup : Setup) (programs : Programs)

/-- Makes a call on behalf of a unit, if all it mentions is known. -/
def makeCall (unit : UnitId) (b : Bindings) : Call → Proc Program (Option PendingCall)
  | .query scope params =>
    match b.scope? scope, params b.scope? with
    | some s, some q => some <$> PendingCall.makeQuery unit s q
    | _, _ => pure none
  | .add name program roots changed =>
    match programs[program]?, b.scopes? roots with
    | some code, some roots =>
      some <$> PendingCall.addSubUnit unit name (.checker code) roots changed
    | _, _ => pure none
  | .library name roots lib =>
    match b.scopes? roots with
    | some roots => some <$> PendingCall.addSubUnit unit name (.library lib) roots false
    | none => pure none
  | .reuse => some <$> PendingCall.askForReuse unit

/-- Awaits the answer to a call and keeps it under a name. -/
def awaitCall (f : Frame) (goOn : Bool) (name : Option String) (c : PendingCall) :
    Proc Program Outcome := do
  match ← (c.answer Program.presented setup).run with
  | .error e => pure (.next (.fault e) f)
  | .ok (.decision (.reuse d p)) =>
    pure (if goOn then .next (.reuse d p) f else .reused (.reuse d p) d)
  | .ok a => pure (.next (replyOf a) (f.nameAnswer name a))

/-- Awaits the answers to several calls side by side. A failure is an answer like any other. -/
def joinCalls (cs : List PendingCall) : Flow Program (List Reply) :=
  Flow.together cs.length (cs.map fun c ↦
    ExceptT.mk (.ok <$> replyOrFault replyOf <$> (c.answer Program.presented setup).run))

/-! ## Statements -/

/-- Carries out an instruction on behalf of a unit. -/
def Instruction.run (unit : UnitId) (goOn : Bool) (f : Frame) :
    Instruction → Proc Program Outcome
  | .info => pure (.next (.identity unit setup.labels f.names.roots) f)
  | .fresh base labels hasDatum sharing name => do
    match ← (Flow.act unit (.freshScope base labels hasDatum sharing)).run with
    | .ok s => pure (.next (.scope s) (f.nameScope name s))
    | .error e => pure (.next (.fault e) f)
  | .init scope labels sharing =>
    match f.names.scope? scope with
    | some s => attempt f (Flow.act unit (.initScope s labels sharing)) fun _ ↦ .nothing
    | none => unbound f
  | .share scope =>
    match f.names.scope? scope with
    | some s => attempt f (Flow.act unit (.shareScope s)) fun _ ↦ .nothing
    | none => unbound f
  | .datum scope value =>
    match f.names.scope? scope, value.value? f.names with
    | some s, some d => attempt f (Flow.act unit (.setDatum s d)) fun _ ↦ .nothing
    | _, _ => unbound f
  | .edge source label target =>
    match f.names.scope? source, f.names.scope? target with
    | some s, some t => attempt f (Flow.act unit (.addEdge ⟨s, label, t⟩)) fun _ ↦ .nothing
    | _, _ => unbound f
  | .close scope label =>
    match f.names.scope? scope with
    | some s => attempt f (Flow.act unit (.closeLabel s label)) fun _ ↦ .nothing
    | none => unbound f
  | .closeScope scope =>
    match f.names.scope? scope with
    | some s => attempt f (Flow.act unit (.closeScope s)) fun _ ↦ .nothing
    | none => unbound f
  | .call c name later => do
    match ← makeCall programs unit f.names c with
    | none => unbound f
    | some p =>
      if later then pure (.next .later (f.keepCall name p))
      else awaitCall setup f goOn name p
  | .await name =>
    match f.pending[name]? with
    | none => unbound f
    | some c => awaitCall setup (f.dropCall name) goOn (some name) c
  | .join names =>
    match names.mapM fun n ↦ f.pending[n]? with
    | none => unbound f
    | some cs => attempt (names.foldl Frame.dropCall f) (joinCalls setup cs) .all
  | .forget name => pure (.next (.flag (f.pending.contains name)) (f.dropCall name))
  | .previous =>
    attempt f (Flow.look unit fun u ↦ u.previous.bind Report.result) .previous
  | .state text =>
    attempt f (Flow.onUnit f.self (.keepState (.ofText text))) fun _ ↦ .nothing
  | .yield => .yield (pure (.next .nothing f))
  | .never => .never
  | .fail text => pure (.next (.fault (.checker text)) f)
  | .result value =>
    match value.value? f.names with
    | some d => pure (.ended d)
    | none => unbound f

/-- The unit on behalf of which a statement acts, provided that its checker has begun. -/
def Statement.unit? (s : Statement) (self : UnitId) : Proc Program (Option UnitId) :=
  match s.via with
  | none => pure (some self)
  | some u => do
    match ← (Flow.look u UnitNode.begun).run with
    | .ok true => pure (some u)
    | _ => pure none

/-- Carries out a statement. -/
def Statement.run (s : Statement) (f : Frame) : Proc Program Outcome := do
  match ← s.unit? f.self with
  | some unit => s.instruction.run setup programs unit s.goOn f
  | none => unbound f

/-- Writes an answer into the journal of a unit. -/
def note (unit : UnitId) (call : String) (r : Reply) : Proc Program PUnit :=
  .perform (.write unit ⟨call, r⟩) .done

/-- Carries out statements one after the other, until the checker ends. -/
def runBody : List Statement → Frame → Proc Program (Except String Datum)
  | [], _ => pure (.ok .unit)
  | s :: rest, f => do
    match ← s.run setup programs f with
    | .ended d => pure (.ok d)
    | .reused r d => do
      note f.self Call.reuse.word r
      pure (.ok d)
    | .next r f => do
      note f.self s.instruction.word r
      match s.must, r with
      | true, .fault e => pure (.error e.message)
      | _, _ => runBody rest f

/-- Runs a program as the checker of a unit. -/
def Program.run (unit : UnitId) (p : Program) (roots : List Scope) :
    Proc Program (Except String Datum) :=
  .perform (.onUnit unit (.begin (p.state.map .ofText))) fun _ ↦
    runBody setup programs p.body (.start unit roots)

/-- How programs behave as checkers. -/
def behaviour : Behaviour Program := ⟨Program.run setup programs, Program.presented⟩

end Script

end ScopeGraphs
