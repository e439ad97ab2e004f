import ScopeGraphs.Engine.Mailboxes
import ScopeGraphs.Units.Journal
import ScopeGraphs.Units.Operation
import ScopeGraphs.Wait.Graph

/-!
# The state of a run

All units of a run, the messages between them, the detector of deadlocks, the tasks and the channels
on which tasks wait. `Core.atUnit` carries out an operation on a unit together with everything the
unit wants to happen next: waits are reported to the detector, new units are added, messages are
sent, and the report of a unit that has finished goes to its parent, which may finish in turn.
-/

namespace ScopeGraphs

variable {γ : Type}

/-- What stays the same during a run. -/
structure Setup where
  /-- The settings. -/
  settings : Settings
  /-- The labels that queries follow. -/
  labels : List Label
  /-- The number of the run. -/
  run : Nat

/-- The queries that were asked while a query was answered. -/
structure Ledger where
  /-- Those forwarded to other units, in the order in which they were answered. -/
  transitive : List QueryRecord
  /-- Those asked by rules, in the order in which they were answered. -/
  predicate : List QueryRecord

/-- The number of a ledger. -/
abbrev LedgerId := Nat

/-- The state of a run, apart from what suspended tasks will do. -/
structure Core (γ : Type) where
  /-- What stays the same. -/
  setup : Setup
  /-- The units. -/
  units : SortedMap UnitId (UnitNode γ)
  /-- The messages between them. -/
  mail : Mailboxes Message
  /-- The waits between them. -/
  detector : Detector Token
  /-- The unit at the root. -/
  root : UnitId
  /-- Its report, once it has finished. -/
  rootReport : Option Report
  /-- The tasks. -/
  executor : Executor (Task γ)
  /-- The channels on which tasks wait. -/
  channels : Channels Parcel
  /-- The number of the next request. -/
  nextRequest : Nat
  /-- The ledgers of queries that are being answered. -/
  ledgers : SortedMap LedgerId Ledger
  /-- The number of the next ledger. -/
  nextLedger : LedgerId
  /-- The journals of the checkers. -/
  journals : SortedMap UnitId (List JournalEntry)

namespace Core

/-- A run with a root unit, which is told to start without root scopes. -/
def start (setup : Setup) (root : UnitId) (code : γ) (previous : Option Report) : Core γ where
  setup := setup
  units := SortedMap.ofList
    [(root, .new root none (.checker code) previous false setup.settings.incremental)]
  mail := Mailboxes.empty.enqueue root (.start [])
  detector := .empty
  root := root
  rootReport := none
  executor := .empty
  channels := .empty
  nextRequest := 0
  ledgers := ∅
  nextLedger := 0
  journals := ∅

/-! ## Tasks and channels -/

/-- Lets a task go on. -/
def wake (c : Core γ) (id : TaskId) : Core γ := { c with executor := c.executor.wake id }

/-- Ends the sending side of a channel, with a value or without one. -/
def fill (state : ChannelState Parcel) (c : Core γ) (channel : ChannelId) : Core γ :=
  let (waker, channels) := c.channels.fill channel state
  waker.toList.foldl wake { c with channels := channels }

/-- Spawns a task. -/
def spawn (c : Core γ) (t : Task γ) : Core γ := { c with executor := c.executor.spawn t }

/-! ## Operations on units -/

/-- Reports a change to what a unit waits for. -/
def noteWait (waiter : UnitId) (c : Core γ) : WaitEvent → Core γ
  | .raised t holder => { c with detector := c.detector.addWait ⟨waiter, holder, t⟩ }
  | .granted t holder => { c with detector := c.detector.removeWait ⟨waiter, holder, t⟩ }

/-- Adds a unit, unless there is one of that id. -/
def addUnit (c : Core γ) (u : UnitNode γ) : Core γ :=
  if c.units.contains u.id then c
  else { c with units := c.units.insert u.id u, mail := c.mail.unpark u.id }

/-- Sends a message. -/
def post (c : Core γ) (m : UnitId × Message) : Core γ :=
  { c with mail := c.mail.send (c.units.contains m.1) m.1 m.2 }

/-- Carries out an operation on a unit that exists. The effects that concern other units are still
to be applied. -/
def turn {α : Type} (c : Core γ) (u : UnitNode γ) (op : UnitOp γ α) :
    α × Effects γ × Core γ :=
  let (a, t) := op.run ⟨u, .none, c.setup.settings, c.channels, c.nextRequest⟩
  let c : Core γ :=
    { c with
      units := c.units.insert u.id t.unit
      channels := t.channels
      nextRequest := t.nextRequest }
  (a, t.effects, t.effects.woken.foldl wake c)

/-- Applies what a unit wants to happen next, apart from its tasks and its report. -/
def applyEffects (c : Core γ) (origin : UnitId) (e : Effects γ) : Core γ :=
  e.messages.foldl post (e.newUnits.foldl addUnit (e.waits.foldl (noteWait origin) c))

/-- Hands the report of a unit that has finished on, to its parent or as the report of the root.
The parent may finish in turn, and so on up to the root; the answer are the tasks that were spawned
on the way. -/
def handReport (c : Core γ) (origin : UnitId) (report : Report) : Nat → List (Task γ) × Core γ
  | 0 => ([], c)
  | n + 1 =>
    match (c.units[origin]?).bind UnitNode.parent with
    | none => ([], if origin = c.root then { c with rootReport := some report } else c)
    | some parent =>
      match c.units[parent]? with
      | none => ([], c)
      | some u =>
        let (_, e, c) := c.turn u (.subUnitFinished report)
        let c := c.applyEffects parent e
        match e.finished with
        | none => (e.tasks, c)
        | some report =>
          let (tasks, c) := handReport c parent report n
          (e.tasks ++ tasks, c)

/-- Carries out an operation on a unit together with everything that follows from it. Tasks are
spawned last. -/
def atUnit {α : Type} (c : Core γ) (id : UnitId) (op : UnitOp γ α) : Except Fault α × Core γ :=
  match c.units[id]? with
  | none => (.error (.unknownUnit id), c)
  | some u =>
    let (a, e, c) := c.turn u op
    let c := c.applyEffects id e
    match e.finished with
    | none => (.ok a, e.tasks.foldl spawn c)
    | some report =>
      let (tasks, c) := c.handReport id report (c.units.size + 1)
      (.ok a, (e.tasks ++ tasks).foldl spawn c)

/-! ## Ledgers and journals -/

/-- A new ledger. -/
def openLedger (c : Core γ) : LedgerId × Core γ :=
  (c.nextLedger,
    { c with
      ledgers := c.ledgers.insert c.nextLedger ⟨[], []⟩
      nextLedger := c.nextLedger + 1 })

/-- What is in a ledger. -/
def ledger (c : Core γ) (id : LedgerId) : Ledger := (c.ledgers[id]?).getD ⟨[], []⟩

/-- Enters a query into a ledger: one that a rule asked, or else one that was forwarded. -/
def enter (c : Core γ) (id : LedgerId) (ofRule : Bool) (q : QueryRecord) : Core γ :=
  let l := c.ledger id
  let l : Ledger := if ofRule then { l with predicate := l.predicate ++ [q] }
    else { l with transitive := l.transitive ++ [q] }
  { c with ledgers := c.ledgers.insert id l }

/-- Takes a ledger out of use. -/
def closeLedger (c : Core γ) (id : LedgerId) : Ledger × Core γ :=
  (c.ledger id, { c with ledgers := c.ledgers.erase id })

/-- Writes into the journal of a unit. -/
def write (c : Core γ) (u : UnitId) (e : JournalEntry) : Core γ :=
  { c with journals := c.journals.insert u (((c.journals[u]?).getD []) ++ [e]) }

end Core

end ScopeGraphs
