import ScopeGraphs.Ident

/-!
# Mailboxes

Every unit has a mailbox, a queue of the messages that were sent to it and that it has not handled.
The units with messages take turns: one message is handled, and a unit with more of them goes to
the end of the line. Messages to units that do not exist are parked until the unit is created, or
until nothing else is left to do and they are dropped.
-/

namespace ScopeGraphs

/-- The messages on their way to units. -/
structure Mailboxes (μ : Type) where
  /-- The queues of the units that exist. -/
  boxes : SortedMap UnitId (List μ)
  /-- The units with messages, in the order of their turns. -/
  runnable : List UnitId
  /-- The units that stand in that line. -/
  scheduled : SortedSet UnitId
  /-- The messages to units that do not exist. -/
  parked : SortedMap UnitId (List μ)
  /-- The number of messages handed over so far. -/
  delivered : Nat
  /-- The number of messages dropped so far. -/
  dropped : Nat

namespace Mailboxes

variable {μ : Type}

/-- No messages. -/
def empty : Mailboxes μ := ⟨∅, [], ∅, ∅, 0, 0⟩

instance : Inhabited (Mailboxes μ) := ⟨empty⟩

/-- The messages waiting for a unit that exists, in order. -/
def box (b : Mailboxes μ) (u : UnitId) : List μ := (b.boxes[u]?).getD []

/-- The messages parked for a unit, in order. -/
def parkedFor (b : Mailboxes μ) (u : UnitId) : List μ := (b.parked[u]?).getD []

/-- Puts a message into the mailbox of a unit, which joins the line unless it stands there. -/
def enqueue (b : Mailboxes μ) (u : UnitId) (m : μ) : Mailboxes μ :=
  { b with
    boxes := b.boxes.insert u (b.box u ++ [m])
    runnable := if b.scheduled.contains u then b.runnable else b.runnable ++ [u]
    scheduled := b.scheduled.insert u }

/-- Parks a message. -/
def park (b : Mailboxes μ) (u : UnitId) (m : μ) : Mailboxes μ :=
  { b with parked := b.parked.insert u (b.parkedFor u ++ [m]) }

/-- Sends a message to a unit, which exists or not. -/
def send (b : Mailboxes μ) (existing : Bool) (u : UnitId) (m : μ) : Mailboxes μ :=
  if existing then b.enqueue u m else b.park u m

/-- Hands the parked messages of a unit over to its mailbox, now that it exists. -/
def unpark (b : Mailboxes μ) (u : UnitId) : Mailboxes μ :=
  (b.parkedFor u).foldl (fun b m ↦ b.enqueue u m) { b with parked := b.parked.erase u }

/-- The mailboxes after a message has been taken out of the box of a unit. The rest of its messages
and the line behind it are given. -/
def taken (b : Mailboxes μ) (u : UnitId) (rest : List UnitId) (messages : List μ) : Mailboxes μ :=
  { b with
    boxes := b.boxes.insert u messages
    runnable := if messages.isEmpty then rest else rest ++ [u]
    scheduled := if messages.isEmpty then b.scheduled.erase u else b.scheduled
    delivered := b.delivered + 1 }

/-- Takes out the message of the first unit in a line that has one. Those without messages leave. -/
def nextOf (b : Mailboxes μ) : List UnitId → Option ((UnitId × μ) × Mailboxes μ)
  | [] => none
  | u :: rest =>
    match b.box u with
    | [] => nextOf { b with scheduled := b.scheduled.erase u } rest
    | m :: messages => some ((u, m), b.taken u rest messages)

/-- Takes the next message out. -/
def next (b : Mailboxes μ) : Option ((UnitId × μ) × Mailboxes μ) := b.nextOf b.runnable

/-- Whether nothing waits to be handled. -/
def isIdle (b : Mailboxes μ) : Bool := b.runnable.isEmpty

/-- Drops all parked messages, and tells which they were. -/
def dropParked (b : Mailboxes μ) : List μ × Mailboxes μ :=
  let messages := b.parked.toList.flatMap Prod.snd
  (messages, { b with parked := ∅, dropped := b.dropped + messages.length })

end Mailboxes

end ScopeGraphs
