import ScopeGraphs.Order.Keyed

/-!
# Tasks and their executor

Tasks run one at a time and are interrupted only where they wait. The executor keeps the unfinished
tasks and the queue of those that may go on. A task enters the queue when it is spawned or woken,
at most once, and is taken from its front; while it is polled it is not among the unfinished tasks,
and afterwards it is put back unless it has completed. Ids of tasks that are gone may remain in
the queue and are passed over.
-/

namespace ScopeGraphs

universe u

/-- The number of a task, in the order of spawning. -/
abbrev TaskId := Nat

/-- The largest number of things that a task looks at one by one while it waits for all of them.
Of more than these it looks only at those that have news, and it is polled once more before it
waits. -/
def crowd : Nat := 30

/-- Unfinished tasks, and the queue of those that may go on. `τ` is what is known about a task. -/
structure Executor (τ : Type u) where
  /-- The unfinished tasks that are not being polled. -/
  tasks : SortedMap TaskId τ
  /-- The tasks that may go on, without repetition. -/
  ready : List TaskId
  /-- The number of tasks spawned so far, and so the number of the next one. -/
  spawned : Nat
  /-- The number of tasks that have completed. -/
  completed : Nat
  /-- The number of tasks dropped before they completed. -/
  dropped : Nat
  /-- The number of polls. -/
  polls : Nat

namespace Executor

variable {τ : Type u}

/-- The executor without tasks. -/
def empty : Executor τ := ⟨∅, [], 0, 0, 0, 0⟩

instance : Inhabited (Executor τ) := ⟨empty⟩

/-- Lets a task go on, as soon as those queued before it have. -/
def wake (e : Executor τ) (id : TaskId) : Executor τ :=
  if id ∈ e.ready then e else { e with ready := e.ready ++ [id] }

/-- Adds a task. -/
def spawn (e : Executor τ) (t : τ) : Executor τ :=
  { e with tasks := e.tasks.insert e.spawned t, spawned := e.spawned + 1 }.wake e.spawned

/-- Whether the queue has an entry. -/
def hasReady (e : Executor τ) : Bool := !e.ready.isEmpty

/-- The number of unfinished tasks. -/
def pending (e : Executor τ) : Nat := e.tasks.size

/-- Drops entries from the front of a queue until one is an unfinished task. -/
def firstLive (tasks : SortedMap TaskId τ) : List TaskId → Option (TaskId × τ) × List TaskId
  | [] => (none, [])
  | id :: rest =>
    match tasks[id]? with
    | some t => (some (id, t), rest)
    | none => firstLive tasks rest

/-- Takes the next task out, to be polled. -/
def take (e : Executor τ) : Option (TaskId × τ) × Executor τ :=
  match firstLive e.tasks e.ready with
  | (none, rest) => (none, { e with ready := rest })
  | (some (id, t), rest) =>
    (some (id, t), { e with ready := rest, tasks := e.tasks.erase id, polls := e.polls + 1 })

/-- Puts a polled task back, or counts it as completed. -/
def settle (e : Executor τ) (id : TaskId) : Option τ → Executor τ
  | some t => { e with tasks := e.tasks.insert id t }
  | none => { e with completed := e.completed + 1 }

/-- Drops every unfinished task and empties the queue. -/
def clear (e : Executor τ) : Executor τ :=
  { e with tasks := ∅, ready := [], dropped := e.dropped + e.tasks.size }

end Executor

end ScopeGraphs
