import ScopeGraphs.Engine.Confirming
import ScopeGraphs.Engine.Quiescence

/-!
# Runs

A run starts with one unit and ends when that unit has finished and nothing is left to do. As long
as there are messages one is handled; otherwise a task is polled; and when there is neither,
quiescence is dealt with.

A checker whose first poll ends in waiting, without having asked for reuse, is taken to run its unit
afresh, and goes on at once.
-/

namespace ScopeGraphs

variable {γ : Type}

/-- What the engine has to know about the code of checkers. -/
structure Behaviour (γ : Type) where
  /-- Runs the checker of a unit with its root scopes, to a result or the text of a failure. -/
  run : UnitId → γ → List Scope → Proc γ (Except String Datum)
  /-- How it presents the data of its unit to other units. -/
  presented : Presentation γ

/-- A run: its state and what is left of the processes of suspended tasks. -/
structure Engine (γ : Type) where
  /-- The state. -/
  core : Core γ
  /-- The rest of the process of each task that has been polled and has not ended. -/
  suspended : SortedMap TaskId (Proc γ PUnit)

/-- The numbers that a run is judged by. -/
structure Statistics where
  /-- The number of units. -/
  units : Nat
  /-- The number of messages handled. -/
  delivered : Nat
  /-- The number of messages dropped. -/
  dropped : Nat
  /-- The number of tasks spawned. -/
  spawned : Nat
  /-- The number of tasks that ended. -/
  completed : Nat
  /-- The number of tasks dropped. -/
  abandoned : Nat
  /-- What the detector of deadlocks has found and done. -/
  detector : Detector Token

/-- The numbers of a run. -/
def Core.statistics (c : Core γ) : Statistics where
  units := c.units.size
  delivered := c.mail.delivered
  dropped := c.mail.dropped
  spawned := c.executor.spawned
  completed := c.executor.completed
  abandoned := c.executor.dropped
  detector := c.detector

namespace Engine

variable (b : Behaviour γ)

/-! ## Tasks -/

/-- Ends a process by sending its result. -/
def sendResult {α : Type} (reply : ChannelId) (wrap : Except Fault α → Parcel) (f : Flow γ α) :
    Proc γ PUnit := do
  let a ← f.run
  .perform (.answer reply (wrap a)) .done

/-- What a task does. -/
def process (setup : Setup) : Task γ → Proc γ PUnit
  | .runChecker unit code roots => do
    let result ← b.run unit code roots
    .perform (.onUnit unit (.checkerFinished result)) fun _ ↦ .done ⟨⟩
  | .confirmOwn unit => discard (Confirming.confirmOwn b.presented setup unit).run
  | .answerQuery unit sender path q reply =>
    sendResult reply .answer (Answering.answerQuery b.presented setup unit sender path q)
  | .answerPrevious unit path q reply =>
    sendResult reply .previous (Answering.resolvePrevious setup unit path q)
  | .answerConfirm unit sender path p rule prevEmpty reply =>
    sendResult reply .verdict
      (Confirming.answerConfirm b.presented setup unit sender path p rule prevEmpty)
  | .answerCounterpart unit s reply =>
    sendResult reply .counterpart (Confirming.answerCounterpart setup unit s)

/-- Polls a task for the first time. A checker that has to wait is started eagerly and polled once
more. -/
def pollFirst (id : TaskId) (task : Task γ) (c : Core γ) : Proc.Polled γ PUnit × Core γ :=
  match (process b c.setup task).poll id c with
  | (.done a, c) => (.done a, c)
  | (.pending p, c) =>
    match task with
    | .runChecker unit _ _ => p.poll id (c.atUnit unit .eagerStart).2
    | _ => (.pending p, c)

/-- Polls the next task that may go on; the answer tells whether there was one. -/
def pollNext (e : Engine γ) : Bool × Engine γ :=
  match e.core.executor.take with
  | (none, executor) => (false, { e with core := { e.core with executor := executor } })
  | (some (id, task), executor) =>
    let core : Core γ := { e.core with executor := executor }
    let (rest, core) := match e.suspended[id]? with
      | some p => p.poll id core
      | none => pollFirst b id task core
    match rest with
    | .done _ =>
      (true,
        { core := { core with executor := core.executor.settle id none }
          suspended := e.suspended.erase id })
    | .pending p =>
      (true,
        { core := { core with executor := core.executor.settle id (some task) }
          suspended := e.suspended.insert id p })

end Engine

/-- Handles the next message; the answer tells whether there was one. -/
def Core.deliverNext (c : Core γ) : Bool × Core γ :=
  match c.mail.next with
  | none => (false, c)
  | some ((u, m), mail) => (true, ({ c with mail := mail }.atUnit u (.handle m)).2)

namespace Engine

variable (b : Behaviour γ)

/-! ## Driving -/

/-- Handles a message or else polls a task; the answer tells whether there was anything to do. -/
def work (e : Engine γ) : Bool × Engine γ :=
  match e.core.deliverNext with
  | (true, core) => (true, { e with core := core })
  | (false, core) => pollNext b { e with core := core }

/-- Deals with quiescence; the answer tells whether anything was done. -/
def settle (e : Engine γ) : Bool × Engine γ :=
  match e.core.resolveQuiescence with
  | (true, core) => (true, { e with core := core })
  | (false, core) =>
    let (failed, core) := core.failStuckUnits
    (failed, { e with core := core })

/-- The fault of a run that ends without a report. -/
def unfinished : Fault := .stuck "the root unit did not finish"

/-- Goes on until the root unit has reported and nothing is left to do, at most as many steps as
given. -/
def drive : Nat → Engine γ → Except Fault Report × Core γ
  | 0, e => (.error unfinished, e.core)
  | n + 1, e =>
    match e.work b with
    | (true, e) => drive n e
    | (false, e) =>
      match e.core.rootReport with
      | some r => (.ok r, e.core)
      | none =>
        match e.settle with
        | (true, e) => drive n e
        | (false, e) => (.error unfinished, e.core)

/-- More steps than any run takes. -/
def patience : Nat := 0x1000000000000000

/-- Runs a tree of units from its root. A previous report must be that of the same unit. The final
state is returned with the report or the fault. -/
def run (setup : Setup) (root : UnitId) (code : γ) (previous : Option Report) :
    Except Fault Report × Core γ :=
  let start := Core.start setup root code previous
  match previous.map Report.id with
  | some owner =>
    if owner ≠ root then (.error (.illegalState (.foreignPrevious owner root)), start)
    else drive b patience ⟨start, ∅⟩
  | none => drive b patience ⟨start, ∅⟩

end Engine

end ScopeGraphs
