import ScopeGraphs.Task.Channel
import ScopeGraphs.Task.Chronicle

/-!
# A promise in many hands

A promise belongs to everybody who has a handle to it. Handles are copied and dropped, and through
each of them the promise is settled, read and awaited. With the last handle an unsettled promise is
lost.

Settling a promise and letting its waiters know are two things: the waiters are taken out at once,
and then they are sent the value one by one, while others already find the promise settled. A
`SharedPromise` therefore also has what is still to be sent. What can happen to it, one thing after
the other, is `SharedPromise.Step`. The channels are not for this promise alone, but nobody else
touches those on which it is awaited.
-/

namespace ScopeGraphs

universe u

namespace SharedPromise

/-- A wait that has not been resolved. -/
inductive Wait (π : Type u) where
  /-- The promise was settled when the wait began. -/
  | ready (v : π)
  /-- The value is expected on a channel. -/
  | pending (c : ChannelId)

/-- The end of a channel: the value, or nothing because there will be none. -/
def ending {π : Type u} : Option π → ChannelState π
  | some v => .full v
  | none => .hungUp

end SharedPromise

open SharedPromise in
/-- A promise with everything that hangs on it. -/
structure SharedPromise (π : Type u) where
  /-- The promise. -/
  promise : Promise π
  /-- The number of handles to it. -/
  handles : Nat
  /-- What is still to be sent to waiters that have been taken out of the promise. -/
  outbox : List (ChannelId × ChannelState π)
  /-- The channels, among them those on which the promise is awaited. -/
  channels : Channels π
  /-- The waits that have not been resolved, by number. -/
  waits : SortedMap Nat (Wait π)
  /-- The number of waits that have begun, and so the number of the next one. -/
  begun : Nat

namespace SharedPromise

variable {π : Type u}

/-- A new promise, of which there is one handle. -/
def fresh : SharedPromise π := ⟨.fresh, 1, [], .empty, ∅, 0⟩

instance : Inhabited (SharedPromise π) := ⟨fresh⟩

/-- Settles the promise, if it is not settled, and takes its waiters out. -/
def complete (s : SharedPromise π) (v : π) : SharedPromise π :=
  { s with
    promise := s.promise.settle v
    outbox := s.outbox ++ s.promise.waiters.map fun c ↦ (c, .full v) }

/-- Begins a wait. -/
def wait (s : SharedPromise π) : SharedPromise π :=
  match s.promise with
  | .settled v => { s with waits := s.waits.insert s.begun (.ready v), begun := s.begun + 1 }
  | .pending _ =>
    { s with
      promise := s.promise.await s.channels.next
      channels := s.channels.create
      waits := s.waits.insert s.begun (.pending s.channels.next)
      begun := s.begun + 1 }

/-- Copies a handle. -/
def copy (s : SharedPromise π) : SharedPromise π := { s with handles := s.handles + 1 }

/-- Drops a handle, and with the last one the promise. -/
def release (s : SharedPromise π) : SharedPromise π :=
  { s with
    handles := s.handles - 1
    outbox :=
      if s.handles = 1 then s.outbox ++ s.promise.waiters.map fun c ↦ (c, .hungUp) else s.outbox }

/-- Sends to a waiter how the promise has ended. -/
def notify (s : SharedPromise π) (c : ChannelId) (state : ChannelState π)
    (rest : List (ChannelId × ChannelState π)) : SharedPromise π :=
  { s with channels := (s.channels.fill c state).2, outbox := rest }

/-- Looks whether a wait can be resolved, on behalf of a task. -/
def poll (s : SharedPromise π) (i : Nat) (task : TaskId) :
    Wait π → Received π × SharedPromise π
  | .ready v => (.done (some v), { s with waits := s.waits.erase i })
  | .pending c =>
    match s.channels.receive c task with
    | (.pending, channels) => (.pending, { s with channels := channels })
    | (.done o, channels) => (.done o, { s with channels := channels, waits := s.waits.erase i })

/-- Gives up a wait. -/
def forget (s : SharedPromise π) (i : Nat) : Wait π → SharedPromise π
  | .ready _ => { s with waits := s.waits.erase i }
  | .pending c => { s with channels := s.channels.close c, waits := s.waits.erase i }

/-- Something that happens, with the answer to those who ask. -/
inductive Event (π : Type u) where
  /-- The promise was to be settled; whether this was the first time. -/
  | completed (v : π) (first : Bool)
  /-- Somebody asked whether the promise is settled. -/
  | asked (settled : Bool)
  /-- Somebody asked for the value. -/
  | got (o : Option π)
  /-- A wait began. -/
  | waited (i : Nat)
  /-- A handle was copied. -/
  | copied
  /-- A handle was dropped. -/
  | released
  /-- A waiter was sent how the promise has ended, and a task was woken. -/
  | notified (c : ChannelId) (woken : Option TaskId)
  /-- A task looked whether a wait can be resolved. -/
  | polled (i : Nat) (task : TaskId) (r : Received π)
  /-- A wait was given up. -/
  | forgotten (i : Nat)
  /-- Something happened on the channels of others. -/
  | elsewhere

/-- The steps of a promise in many hands. Only who has a handle can use it; waits go on without. -/
inductive Step : SharedPromise π → Event π → SharedPromise π → Prop where
  | completed {s : SharedPromise π} (held : 0 < s.handles) (v : π) :
    Step s (.completed v !s.promise.isSettled) (s.complete v)
  | asked {s : SharedPromise π} (held : 0 < s.handles) : Step s (.asked s.promise.isSettled) s
  | got {s : SharedPromise π} (held : 0 < s.handles) : Step s (.got s.promise.get?) s
  | waited {s : SharedPromise π} (held : 0 < s.handles) : Step s (.waited s.begun) s.wait
  | copied {s : SharedPromise π} (held : 0 < s.handles) : Step s .copied s.copy
  | released {s : SharedPromise π} (held : 0 < s.handles) : Step s .released s.release
  | notified {s : SharedPromise π} {c : ChannelId} {state : ChannelState π}
    {rest : List (ChannelId × ChannelState π)} (outbox : s.outbox = (c, state) :: rest) :
    Step s (.notified c (s.channels.fill c state).1) (s.notify c state rest)
  | polled {s : SharedPromise π} {i : Nat} {w : Wait π} (wait : s.waits[i]? = some w)
    (task : TaskId) : Step s (.polled i task (s.poll i task w).1) (s.poll i task w).2
  | forgotten {s : SharedPromise π} {i : Nat} {w : Wait π} (wait : s.waits[i]? = some w) :
    Step s (.forgotten i) (s.forget i w)
  | elsewhere {s : SharedPromise π} {channels : Channels π}
    (next : s.channels.next ≤ channels.next)
    (slots : ∀ (i : Nat) c, s.waits[i]? = some (.pending c) →
      channels.slots[c]? = s.channels.slots[c]?) :
    Step s .elsewhere { s with channels := channels }

/-- What has happened since the promise was made, and what has become of it. -/
abbrev Runs : List (Event π) → SharedPromise π → Prop := Chronicle Step fresh

end SharedPromise

end ScopeGraphs
