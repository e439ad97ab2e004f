import ScopeGraphs.Task.Chronicle
import ScopeGraphs.Task.Executor

/-!
# The executor at work

Between two polls an executor only has its table of tasks and its queue. While it is at work there
is more to tell: an entry has been taken off the queue and not been looked up yet, or a task is out
of the table because it is being polled. At any of these moments tasks are spawned and woken, the
polled task among them.

A `Dispatcher` is an executor at such a moment. It also has the set in which a waker looks whether
its task is queued already. What can happen to it, one thing after the other, is `Dispatcher.Step`.
-/

namespace ScopeGraphs

universe u

/-- What an executor has in hand. -/
inductive Hand where
  /-- Nothing: it is between two polls. -/
  | free
  /-- An entry that has been taken off the queue and has not been looked up yet. -/
  | popped (id : TaskId)
  /-- A task that is being polled. -/
  | polling (id : TaskId)
  deriving DecidableEq, Repr

/-- The number of tasks in hand. -/
def Hand.tasks : Hand → Nat
  | polling _ => 1
  | _ => 0

/-- An executor at work. -/
structure Dispatcher (τ : Type u) where
  /-- Its tasks, its queue and its counters. -/
  executor : Executor τ
  /-- The tasks that a waker finds queued. -/
  queued : SortedSet TaskId
  /-- What it has in hand. -/
  hand : Hand

namespace Dispatcher

variable {τ : Type u}

/-- Nothing has happened. -/
def empty : Dispatcher τ := ⟨.empty, ∅, .free⟩

instance : Inhabited (Dispatcher τ) := ⟨empty⟩

/-- Queues a task, unless it is queued already. -/
def push (d : Dispatcher τ) (id : TaskId) : Dispatcher τ :=
  if id ∈ d.queued then d
  else
    { d with
      executor := { d.executor with ready := d.executor.ready ++ [id] }
      queued := d.queued.insert id }

/-- Adds a task to the table. -/
def add (d : Dispatcher τ) (t : τ) : Dispatcher τ :=
  { d with
    executor :=
      { d.executor with
        tasks := d.executor.tasks.insert d.executor.spawned t
        spawned := d.executor.spawned + 1 } }

/-- Adds a task and queues it. -/
def spawn (d : Dispatcher τ) (t : τ) : Dispatcher τ := (d.add t).push d.executor.spawned

/-- Takes the front off the queue, which leaves the rest. -/
def pop (d : Dispatcher τ) (id : TaskId) (rest : List TaskId) : Dispatcher τ where
  executor := { d.executor with ready := rest }
  queued := d.queued.erase id
  hand := .popped id

/-- Passes over what is in hand. -/
def skip (d : Dispatcher τ) : Dispatcher τ := { d with hand := .free }

/-- Takes a task out of the table, to be polled. -/
def start (d : Dispatcher τ) (id : TaskId) : Dispatcher τ where
  executor :=
    { d.executor with
      tasks := d.executor.tasks.erase id
      polls := d.executor.polls + 1 }
  queued := d.queued
  hand := .polling id

/-- Puts a polled task back, or counts it as completed. -/
def finish (d : Dispatcher τ) (id : TaskId) (o : Option τ) : Dispatcher τ :=
  { d with executor := d.executor.settle id o, hand := .free }

/-- Drops every unfinished task and empties the queue. -/
def clear (d : Dispatcher τ) : Dispatcher τ :=
  { d with executor := d.executor.clear, queued := ∅ }

/-- Something that happens. -/
inductive Event (τ : Type u) where
  /-- A task was spawned. -/
  | spawned (id : TaskId) (t : τ)
  /-- A task was woken, whether it was there or not. -/
  | woken (id : TaskId)
  /-- An entry was taken off the queue. -/
  | popped (id : TaskId)
  /-- There was no task to the entry. -/
  | skipped (id : TaskId)
  /-- The poll of a task began. -/
  | started (id : TaskId)
  /-- It ended, with what is left of the task unless it has completed. -/
  | finished (id : TaskId) (left : Option τ)
  /-- All tasks were dropped. -/
  | cleared

/-- The steps of an executor at work. Tasks may be spawned and woken at any time; they are dropped
by whoever asks for the polls, so between two of these. -/
inductive Step : Dispatcher τ → Event τ → Dispatcher τ → Prop where
  | spawned (d : Dispatcher τ) (t : τ) : Step d (.spawned d.executor.spawned t) (d.spawn t)
  | woken (d : Dispatcher τ) (id : TaskId) : Step d (.woken id) (d.push id)
  | popped {d : Dispatcher τ} {id : TaskId} {rest : List TaskId} (hand : d.hand = .free)
    (ready : d.executor.ready = id :: rest) : Step d (.popped id) (d.pop id rest)
  | skipped {d : Dispatcher τ} {id : TaskId} (hand : d.hand = .popped id)
    (gone : d.executor.tasks[id]? = none) : Step d (.skipped id) d.skip
  | started {d : Dispatcher τ} {id : TaskId} {t : τ} (hand : d.hand = .popped id)
    (task : d.executor.tasks[id]? = some t) : Step d (.started id) (d.start id)
  | finished {d : Dispatcher τ} {id : TaskId} (hand : d.hand = .polling id) (left : Option τ) :
    Step d (.finished id left) (d.finish id left)
  | cleared {d : Dispatcher τ} (hand : d.hand = .free) : Step d .cleared d.clear

/-- What has happened since the executor was made, and what it has become. -/
abbrev Runs : List (Event τ) → Dispatcher τ → Prop := Chronicle Step empty

end Dispatcher

end ScopeGraphs
