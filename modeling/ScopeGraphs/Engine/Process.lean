import ScopeGraphs.Engine.Core

/-!
# Processes

What a task does, as a tree: an operation and how to go on with its answer, a channel to wait on and
how to go on with what arrives, several processes side by side. Operations come from a closed list,
`Op`, so a property of the state of a run that every operation keeps is kept by every process.

A task is polled: its process runs without interruption until it ends or has to wait, and what is
left of it is kept for the next poll.

Processes side by side are polled one after the other. A few of them are all polled each time, and
the first that fails ends them all. Of a crowd only those are polled that may go on, in the order
in which that came to be; a failure counts when all processes before it have succeeded, and a crowd
none of which has ended lets the other tasks go on before it waits. Whenever processes side by side
are ended by a failure, the channels on which the others wait are closed.
-/

namespace ScopeGraphs

universe u

variable {γ : Type}

/-! ## Operations on the state of a run -/

/-- What a task can do in one go, by the type of the answer. -/
inductive Op (γ : Type) : Type → Type 1 where
  /-- Carries out an operation on a unit. -/
  | onUnit {α : Type} (u : UnitId) (op : UnitOp γ α) : Op γ (Except Fault α)
  /-- Looks at a unit. -/
  | look {α : Type} (u : UnitId) (f : UnitNode γ → α) : Op γ (Except Fault α)
  /-- Sends an answer. -/
  | answer (c : ChannelId) (p : Parcel) : Op γ PUnit
  /-- Opens a ledger. -/
  | openLedger : Op γ LedgerId
  /-- Enters a query into a ledger. -/
  | enter (l : LedgerId) (ofRule : Bool) (q : QueryRecord) : Op γ PUnit
  /-- Closes a ledger. -/
  | closeLedger (l : LedgerId) : Op γ Ledger
  /-- Writes into the journal of a unit. -/
  | write (u : UnitId) (e : JournalEntry) : Op γ PUnit

/-- What an operation does. -/
def Core.perform : {α : Type} → Op γ α → Core γ → α × Core γ
  | _, .onUnit u op, c => c.atUnit u op
  | _, .look u f, c =>
    match c.units[u]? with
    | some node => (.ok (f node), c)
    | none => (.error (.unknownUnit u), c)
  | _, .answer channel p, c => (⟨⟩, c.fill (.full p) channel)
  | _, .openLedger, c => c.openLedger
  | _, .enter l ofRule q, c => (⟨⟩, c.enter l ofRule q)
  | _, .closeLedger l, c => c.closeLedger l
  | _, .write u e, c => (⟨⟩, c.write u e)

/-! ## Processes -/

/-- Which of several processes side by side a poll lets go on. -/
inductive Turns where
  /-- All of them, by position. -/
  | each
  /-- Those that may go on, in the order in which that came to be: at first all of them, and later
  those for which something has arrived. -/
  | woken (first : Bool)
  deriving DecidableEq, Repr

/-- The same once the processes have been polled. -/
def Turns.later : Turns → Turns
  | each => each
  | woken _ => woken false

/-- A process, by the type of its result. -/
inductive Proc (γ : Type) : Type → Type 1 where
  /-- It has ended. -/
  | done {α : Type} (a : α) : Proc γ α
  /-- It does something. -/
  | perform {α β : Type} (op : Op γ β) (next : β → Proc γ α) : Proc γ α
  /-- It waits for what arrives on a channel; nothing arrives if the sender is gone. -/
  | await {α : Type} (c : ChannelId) (next : Option Parcel → Proc γ α) : Proc γ α
  /-- It lets the other tasks go on first. -/
  | yield {α : Type} (next : Proc γ α) : Proc γ α
  /-- It waits for ever. -/
  | never {α : Type} : Proc γ α
  /-- It runs several processes side by side. -/
  | together {α β : Type} {n : Nat} (turns : Turns) (parts : Fin n → Proc γ (Except Fault β))
      (next : Except Fault (List β) → Proc γ α) : Proc γ α

namespace Proc

/-- Goes on with another process. -/
def bind {α β : Type} (p : Proc γ α) (f : α → Proc γ β) : Proc γ β :=
  match p with
  | done a => f a
  | perform op next => perform op fun b ↦ (next b).bind f
  | await c next => await c fun v ↦ (next v).bind f
  | yield next => yield (next.bind f)
  | never => never
  | together turns parts next => together turns parts fun r ↦ (next r).bind f

instance : Monad (Proc γ) where
  pure := done
  bind := bind

instance {α : Type} : Inhabited (Proc γ α) := ⟨never⟩

/-! ## Polling -/

/-- What a poll leaves of a process. -/
inductive Polled (γ α : Type) where
  /-- Its result. -/
  | done (a : α)
  /-- The rest of it. -/
  | pending (p : Proc γ α)

/-- A process as a poll may have left it. -/
def Polled.ofProc {α : Type} : Proc γ α → Polled γ α
  | Proc.done a => done a
  | p => pending p

/-- The rest of a polled process, which is trivial if it has ended. -/
def Polled.rest {α : Type} : Polled γ α → Proc γ α
  | done a => Proc.done a
  | pending p => p

/-- Whether a polled process has not ended. -/
def Polled.isPending {α : Type} : Polled γ α → Bool
  | done _ => false
  | pending _ => true

/-- Drops a suspended process, and with it the channels on which it waits. -/
def abandon : {α : Type} → Proc γ α → Core γ → Core γ
  | _, await c _, core => { core with channels := core.channels.close c }
  | _, together _ parts _, core => (List.ofFn fun i ↦ abandon (parts i)).foldl (fun c f ↦ f c) core
  | _, _, core => core

/-- Drops several processes. -/
def abandonAll {α : Type} (ps : List (Polled γ α)) (c : Core γ) : Core γ :=
  ps.foldl (fun c p ↦ abandon p.rest c) c

/-- When the first of the things arrived for which a suspended process waits. -/
def arrival? (channels : Channels Parcel) : {α : Type} → Proc γ α → Option Nat
  | _, await c _ => channels.arrival? c
  | _, together _ parts _ => ((List.ofFn fun i ↦ arrival? channels (parts i)).filterMap id).min?
  | _, _ => none

/-- The results of processes that have all succeeded. -/
def results {β : Type} : List (Polled γ (Except Fault β)) → Option (List β)
  | [] => some []
  | .done (.ok b) :: ps => (results ps).map (b :: ·)
  | _ :: _ => none

/-- The failure of the first process that has not succeeded. -/
def firstFailure? {β : Type} : List (Polled γ (Except Fault β)) → Option Fault
  | .done (.ok _) :: ps => firstFailure? ps
  | .done (.error e) :: _ => some e
  | _ => none

/-- A process to be polled beside others: how to poll it, and how to drop it as it is. -/
structure Part (γ β : Type) where
  /-- Polls it. -/
  poll : Core γ → Polled γ (Except Fault β) × Core γ
  /-- Drops it. -/
  abandon : Core γ → Core γ

/-- Polls processes one after the other until one fails; then the others are dropped. -/
def pollEach {β : Type} (polled : List (Polled γ (Except Fault β))) :
    List (Part γ β) → Core γ → Except Fault (List (Polled γ (Except Fault β))) × Core γ
  | [], c => (.ok polled, c)
  | p :: ps, c =>
    match p.poll c with
    | (.done (.error e), c) => (.error e, ps.foldl (fun c q ↦ q.abandon c) (abandonAll polled c))
    | (q, c) => pollEach (polled ++ [q]) ps c

/-- Polls those processes of a crowd that may go on, until the first that has not succeeded has
failed; then all are dropped. `waits` counts the polls that ended in waiting since a process has
ended. A crowd all of which was found waiting is to be polled again. -/
def pollWoken {β : Type} (self : TaskId) (polled : List (Polled γ (Except Fault β)))
    (waits : Nat) :
    List (Nat × Part γ β) → Core γ → Except Fault (List (Polled γ (Except Fault β))) × Core γ
  | [], c =>
    (.ok polled,
      if 0 < waits ∧ waits = polled.countP Polled.isPending then c.wake self else c)
  | (i, p) :: ps, c =>
    match p.poll c with
    | (.pending q, c) => pollWoken self (polled.set i (.pending q)) (waits + 1) ps c
    | (.done r, c) =>
      let polled := polled.set i (.done r)
      match firstFailure? polled with
      | some e => (.error e, abandonAll polled c)
      | none => pollWoken self polled 0 ps c

/-- Those of several things for which something has arrived, with their positions, in the order of
arrival. -/
def inOrderOfArrival {α : Type u} (xs : List (Option Nat × α)) : List (Nat × α) :=
  let arrived := xs.zipIdx.filterMap fun e ↦ e.1.1.map fun n ↦ (n, e.2, e.1.2)
  (arrived.mergeSort fun a b ↦ a.1 ≤ b.1).map Prod.snd

/-- Polls processes side by side, given both as they are and by how to poll them. -/
def pollParts {β : Type} (self : TaskId) (turns : Turns) (ps : List (Proc γ (Except Fault β)))
    (parts : List (Part γ β)) (c : Core γ) :
    Except Fault (List (Polled γ (Except Fault β))) × Core γ :=
  match turns with
  | .each => pollEach [] parts c
  | .woken true => pollWoken self (ps.map .ofProc) 0 (parts.zipIdx.map Prod.swap) c
  | .woken false =>
    pollWoken self (ps.map .ofProc) 0
      (inOrderOfArrival ((ps.map fun p ↦ arrival? c.channels p).zip parts)) c

/-- Runs a process on behalf of a task until it ends or has to wait. -/
def poll (self : TaskId) : {α : Type} → Proc γ α → Core γ → Polled γ α × Core γ
  | _, done a, c => (.done a, c)
  | _, perform op next, c =>
    let (b, c) := c.perform op
    poll self (next b) c
  | _, await channel next, c =>
    match c.channels.receive channel self with
    | (.pending, channels) => (.pending (await channel next), { c with channels := channels })
    | (.done v, channels) => poll self (next v) { c with channels := channels }
  | _, yield next, c => (.pending next, c.wake self)
  | _, never, c => (.pending never, c)
  | _, together turns parts next, c =>
    match pollParts self turns (List.ofFn parts)
      (List.ofFn fun i ↦ ⟨poll self (parts i), abandon (parts i)⟩) c with
    | (.error e, c) => poll self (next (.error e)) c
    | (.ok polled, c) =>
      match results polled with
      | some bs => poll self (next (.ok bs)) c
      | none =>
        (.pending (together turns.later (fun i : Fin polled.length ↦ polled[i].rest) next), c)

end Proc

/-! ## Processes that may fail -/

/-- A process that may fail. -/
abbrev Flow (γ : Type) := ExceptT Fault (Proc γ)

namespace Flow

/-- Does something that cannot fail. -/
def perform {α : Type} (op : Op γ α) : Flow γ α :=
  ExceptT.mk (.perform op fun a ↦ .done (.ok a))

/-- Carries out an operation on a unit. -/
def onUnit {α : Type} (u : UnitId) (op : UnitOp γ α) : Flow γ α :=
  ExceptT.mk (.perform (.onUnit u op) .done)

/-- Lets the checker of a unit act. -/
def act {α : Type} (u : UnitId) (a : Action γ α) : Flow γ α :=
  ExceptT.mk (.perform (.onUnit u (.act a)) fun r ↦ .done (r.bind id))

/-- Looks at a unit. -/
def look {α : Type} (u : UnitId) (f : UnitNode γ → α) : Flow γ α :=
  ExceptT.mk (.perform (.look u f) .done)

/-- Waits for what arrives on a channel. -/
def await (c : ChannelId) : Flow γ (Option Parcel) :=
  ExceptT.mk (.await c fun v ↦ .done (.ok v))

/-- Waits for ever. -/
def never {α : Type} : Flow γ α := ExceptT.mk .never

/-- Runs several processes side by side, which may be fewer than were expected. -/
def together {α : Type} (expected : Nat) (ps : List (Flow γ α)) : Flow γ (List α) :=
  ExceptT.mk (.together (if expected ≤ crowd then .each else .woken true)
    (fun i : Fin ps.length ↦ ps[i].run) .done)

end Flow

end ScopeGraphs
