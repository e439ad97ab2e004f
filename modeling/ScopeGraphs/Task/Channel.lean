import ScopeGraphs.Task.Executor

/-!
# Channels and promises

A channel carries one value from a sender to one receiving task. The task that finds it empty is
remembered and woken once the value is there, or once the sender has hung up. A receiver that is no
longer interested closes its channel; what is sent to it afterwards is lost and wakes nobody.

A promise is a value that is settled once and awaited by any number of tasks, each through a
channel of its own.
-/

namespace ScopeGraphs

universe u

/-! ## Channels -/

/-- The number of a channel. -/
abbrev ChannelId := Nat

/-- A channel that has not been read. -/
inductive ChannelState (π : Type u) where
  /-- Nothing was sent; the task to wake, if one has asked. -/
  | empty (waker : Option TaskId)
  /-- A value is there. -/
  | full (v : π)
  /-- The sender is gone. -/
  | hungUp

/-- The open channels. -/
structure Channels (π : Type u) where
  /-- The channels with their receivers. -/
  slots : SortedMap ChannelId (ChannelState π)
  /-- The number of the next channel. -/
  next : ChannelId
  /-- The channels that have been filled and have not been read, in the order of filling. -/
  arrived : List ChannelId

/-- What a receiver finds. -/
inductive Received (π : Type u) where
  /-- Nothing yet. -/
  | pending
  /-- The value, or nothing because the sender is gone. -/
  | done (v : Option π)

namespace Channels

variable {π : Type u}

/-- No channels. -/
def empty : Channels π := ⟨∅, 0, []⟩

instance : Inhabited (Channels π) := ⟨empty⟩

/-- A new channel, the number of which is `next`. -/
def create (c : Channels π) : Channels π :=
  { c with slots := c.slots.insert c.next (.empty none), next := c.next + 1 }

/-- Fills an empty channel with its final state; the answer is the task to wake. -/
def fill (c : Channels π) (id : ChannelId) (s : ChannelState π) : Option TaskId × Channels π :=
  match c.slots[id]? with
  | some (.empty waker) =>
    (waker, { c with slots := c.slots.insert id s, arrived := c.arrived ++ [id] })
  | _ => (none, c)

/-- Sends a value. -/
def send (c : Channels π) (id : ChannelId) (v : π) : Option TaskId × Channels π :=
  c.fill id (.full v)

/-- Gives up sending. -/
def hangUp (c : Channels π) (id : ChannelId) : Option TaskId × Channels π := c.fill id .hungUp

/-- Gives up receiving. -/
def close (c : Channels π) (id : ChannelId) : Channels π :=
  { c with slots := c.slots.erase id, arrived := c.arrived.erase id }

/-- Gives up receiving from every channel. -/
def closeAll (c : Channels π) : Channels π := { c with slots := ∅, arrived := [] }

/-- The place of a channel among those that have been filled and not been read. -/
def arrival? (c : Channels π) (id : ChannelId) : Option Nat := c.arrived.idxOf? id

/-- Looks into a channel on behalf of a task, which is woken later if nothing is there yet. -/
def receive (c : Channels π) (id : ChannelId) (task : TaskId) : Received π × Channels π :=
  match c.slots[id]? with
  | some (.empty _) => (.pending, { c with slots := c.slots.insert id (.empty (some task)) })
  | some (.full v) => (.done (some v), c.close id)
  | some .hungUp | none => (.done none, c.close id)

end Channels

/-! ## Promises -/

/-- A value settled once, or the channels of those who wait for it, in the order in which they
came. -/
inductive Promise (π : Type u) where
  /-- Not settled yet. -/
  | pending (waiters : List ChannelId)
  /-- Settled for good. -/
  | settled (v : π)

namespace Promise

variable {π : Type u}

/-- The promise nobody waits for yet. -/
def fresh : Promise π := pending []

instance : Inhabited (Promise π) := ⟨fresh⟩

/-- Whether the promise is settled. -/
def isSettled : Promise π → Bool
  | settled _ => true
  | pending _ => false

/-- The value, once settled. -/
def get? : Promise π → Option π
  | settled v => some v
  | pending _ => none

/-- The channels of those who wait. -/
def waiters : Promise π → List ChannelId
  | pending ws => ws
  | settled _ => []

/-- Settles a promise that is not settled yet; its waiters have to be sent the value. -/
def settle (p : Promise π) (v : π) : Promise π :=
  match p with
  | pending _ => settled v
  | settled w => settled w

/-- Adds a waiter to a promise that is not settled yet. -/
def await (p : Promise π) (c : ChannelId) : Promise π :=
  match p with
  | pending ws => pending (ws ++ [c])
  | settled w => settled w

end Promise

end ScopeGraphs
