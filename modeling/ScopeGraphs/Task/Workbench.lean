import ScopeGraphs.Datum
import ScopeGraphs.Task.Channel

/-!
# A workbench for tasks

Tasks given as lists of instructions, run by the executor over named promises of integers. The
table of names holds the only handle of a promise: when a name is dropped, or given to a fresh
promise, an unsettled promise is lost and its waiters hear that there will be no value.

What tasks do is kept in a log.
-/

namespace ScopeGraphs

namespace Workbench

/-- An instruction of a task. -/
inductive Instruction where
  /-- Logs a value. -/
  | log (v : Datum)
  /-- Waits for a promise. -/
  | wait (name : String)
  /-- Waits for the first of two promises. -/
  | waitAny (first second : String)
  /-- Waits for several promises. -/
  | waitAll (names : List String)
  /-- Settles a promise. -/
  | complete (name : String) (v : Int)
  /-- Looks at a promise. -/
  | get (name : String)
  /-- Drops a name. -/
  | drop (name : String)
  /-- Lets the other tasks go on first. -/
  | yield
  /-- Wakes the task itself and goes on. -/
  | wake
  /-- Spawns a task. -/
  | spawn (name : String) (code : List Instruction)
  /-- Waits for ever. -/
  | never
  deriving Inhabited, Repr

/-- What a task did. -/
inductive Event where
  /-- It logged a value. -/
  | logged (v : Datum)
  /-- It waited for a promise. -/
  | waited (name : String) (v : Option Int)
  /-- It waited for the first of two promises. -/
  | waitedAny (v : Option Int)
  /-- It waited for several promises. -/
  | waitedAll (vs : List (Option Int))
  /-- It settled a promise, if there was one and it was the first to do so. -/
  | completed (name : String) (first : Option Bool)
  /-- It looked at a promise. -/
  | got (name : String) (v : Option Int)
  /-- It dropped a name, which was there or not. -/
  | dropped (existed : Bool)
  deriving Repr

/-- One of the things a task waits for: a value at hand, or a channel. -/
inductive Leg where
  /-- At hand. -/
  | ready (v : Option Int)
  /-- On its way. -/
  | pending (c : ChannelId)
  deriving Repr

/-- Whether a leg is at hand. -/
def Leg.isReady : Leg → Bool
  | ready _ => true
  | pending _ => false

/-- Whether a task that starts to wait for several legs is to be polled once more before it waits:
there are many of them, and none is at hand after one that is not. -/
def Leg.pollAgain (ls : List Leg) : Bool :=
  let rest := ls.dropWhile isReady
  crowd < ls.length && !rest.isEmpty && !rest.any isReady

/-- What a task waits for. -/
inductive Waiting where
  /-- Nothing. -/
  | nothing
  /-- One promise. -/
  | one (name : String) (leg : Leg)
  /-- The first of two. -/
  | any (first second : Leg)
  /-- Several. -/
  | all (legs : List Leg)
  /-- Something that never comes. -/
  | ever
  deriving Repr

/-- A suspended task. -/
structure Task where
  /-- Its name. -/
  name : String
  /-- What it waits for. -/
  waiting : Waiting
  /-- What it does then. -/
  code : List Instruction

end Workbench

open Workbench in
/-- The executor, the promises and the log. -/
structure Workbench where
  /-- The tasks. -/
  executor : Executor Task
  /-- The promises by name. -/
  promises : SortedMap String (Promise Int)
  /-- The channels of those who wait. -/
  channels : Channels Int
  /-- What was done, by which task. -/
  log : List (String × Event)

namespace Workbench

/-- The workbench without anything on it. -/
def empty : Workbench := ⟨.empty, ∅, .empty, []⟩

instance : Inhabited Workbench := ⟨empty⟩

/-! ## Promises -/

/-- Wakes a task, if there is one to wake. -/
def wakeSome (w : Workbench) : Option TaskId → Workbench
  | some id => { w with executor := w.executor.wake id }
  | none => w

/-- Lets every waiter of a promise know how it ended. -/
def notify (state : ChannelState Int) (w : Workbench) (c : ChannelId) : Workbench :=
  let (waker, channels) := w.channels.fill c state
  { w with channels := channels }.wakeSome waker

/-- Drops the promise of a name. -/
def drop (w : Workbench) (name : String) : Workbench :=
  match w.promises[name]? with
  | some p =>
    p.waiters.foldl (notify .hungUp) { w with promises := w.promises.erase name }
  | none => w

/-- Gives a name to a fresh promise. -/
def new (w : Workbench) (name : String) : Workbench :=
  let w := w.drop name
  { w with promises := w.promises.insert name .fresh }

/-- Settles a promise: whether this was the first time, if there is such a promise. -/
def complete (w : Workbench) (name : String) (v : Int) : Option Bool × Workbench :=
  match w.promises[name]? with
  | some p =>
    (some (!p.isSettled), p.waiters.foldl (notify (.full v))
      { w with promises := w.promises.insert name (p.settle v) })
  | none => (none, w)

/-- The value of a promise. -/
def get (w : Workbench) (name : String) : Option Int := (w.promises[name]?).bind Promise.get?

/-- Starts to wait for a promise. Without one, or with a settled one, there is nothing to wait
for. -/
def leg (w : Workbench) (name : String) : Leg × Workbench :=
  match w.promises[name]? with
  | some (.pending ws) =>
    (.pending w.channels.next,
      { w with
        channels := w.channels.create
        promises := w.promises.insert name (.pending (ws ++ [w.channels.next])) })
  | some (.settled v) => (.ready (some v), w)
  | none => (.ready none, w)

/-- Starts to wait for several promises, in order. -/
def legs (w : Workbench) : List String → List Leg × Workbench
  | [] => ([], w)
  | n :: ns =>
    let (l, w) := w.leg n
    let (ls, w) := w.legs ns
    (l :: ls, w)

/-! ## Running tasks -/

/-- Looks whether a leg has arrived, on behalf of a task. -/
def poll (id : TaskId) (w : Workbench) : Leg → Leg × Workbench
  | .ready v => (.ready v, w)
  | .pending c =>
    match w.channels.receive c id with
    | (.pending, channels) => (.pending c, { w with channels := channels })
    | (.done v, channels) => (.ready v, { w with channels := channels })

/-- Looks whether legs have arrived, one after the other. -/
def pollEach (id : TaskId) (w : Workbench) : List Leg → List Leg × Workbench
  | [] => ([], w)
  | l :: ls =>
    let (l, w) := w.poll id l
    let (ls, w) := w.pollEach id ls
    (l :: ls, w)

/-- The values of legs that have all arrived. -/
def arrived : List Leg → Option (List (Option Int))
  | [] => some []
  | .ready v :: ls => (arrived ls).map (v :: ·)
  | .pending _ :: _ => none

/-- Forgets about a leg. -/
def forget (w : Workbench) : Leg → Workbench
  | .ready _ => w
  | .pending c => { w with channels := w.channels.close c }

/-- Adds an entry to the log. -/
def note (w : Workbench) (task : String) (e : Event) : Workbench :=
  { w with log := w.log ++ [(task, e)] }

/-- Looks whether a task may go on; if not, what it waits for now. -/
def resume (id : TaskId) (name : String) (w : Workbench) : Waiting → Option Waiting × Workbench
  | .nothing => (none, w)
  | .one promise l =>
    match w.poll id l with
    | (.ready v, w) => (none, w.note name (.waited promise v))
    | (l, w) => (some (.one promise l), w)
  | .any first second =>
    match w.poll id first with
    | (.ready v, w) => (none, (w.forget second).note name (.waitedAny v))
    | (first, w) =>
      match w.poll id second with
      | (.ready v, w) => (none, (w.forget first).note name (.waitedAny v))
      | (second, w) => (some (.any first second), w)
  | .all ls =>
    let (ls, w) := w.pollEach id ls
    match arrived ls with
    | some vs => (none, w.note name (.waitedAll vs))
    | none => (some (.all ls), w)
  | .ever => (some .ever, w)

/-- Runs a list of instructions until it ends or has to wait; the suspended task, if it waits. -/
def run (id : TaskId) (name : String) : List Instruction → Workbench → Option Task × Workbench
  | [], w => (none, w)
  | i :: code, w =>
    let suspend (waiting : Waiting) (w : Workbench) : Option Task × Workbench :=
      match w.resume id name waiting with
      | (none, w) => run id name code w
      | (some waiting, w) => (some ⟨name, waiting, code⟩, w)
    match i with
    | .log v => run id name code (w.note name (.logged v))
    | .wait promise =>
      let (l, w) := w.leg promise
      suspend (.one promise l) w
    | .waitAny first second =>
      let (l, w) := w.leg first
      let (r, w) := w.leg second
      suspend (.any l r) w
    | .waitAll names =>
      let (ls, w) := w.legs names
      suspend (.all ls) (if Leg.pollAgain ls then w.wakeSome id else w)
    | .complete promise v =>
      let (first, w) := w.complete promise v
      run id name code (w.note name (.completed promise first))
    | .get promise => run id name code (w.note name (.got promise (w.get promise)))
    | .drop promise =>
      let existed := w.promises.contains promise
      run id name code ((w.drop promise).note name (.dropped existed))
    | .yield => (some ⟨name, .nothing, code⟩, { w with executor := w.executor.wake id })
    | .wake => run id name code { w with executor := w.executor.wake id }
    | .spawn name' code' =>
      run id name code { w with executor := w.executor.spawn ⟨name', .nothing, code'⟩ }
    | .never => (some ⟨name, .ever, code⟩, w)

/-- Lets a suspended task go on as far as it can. -/
def advance (id : TaskId) (t : Task) (w : Workbench) : Option Task × Workbench :=
  match w.resume id t.name t.waiting with
  | (none, w) => run id t.name t.code w
  | (some waiting, w) => (some { t with waiting := waiting }, w)

/-- Polls the next task that may go on, if there is one. -/
def pollNext (w : Workbench) : Bool × Workbench :=
  match w.executor.take with
  | (none, executor) => (false, { w with executor := executor })
  | (some (id, t), executor) =>
    let (t, w) := advance id t { w with executor := executor }
    (true, { w with executor := w.executor.settle id t })

/-- Polls until no task may go on, at most as often as given; the number of polls. -/
def pollAll : Nat → Workbench → Nat × Workbench
  | 0, w => (0, w)
  | n + 1, w =>
    match w.pollNext with
    | (false, w) => (0, w)
    | (true, w) =>
      let (k, w) := pollAll n w
      (k + 1, w)

mutual

/-- The number of instructions in a list, those of spawned tasks included. -/
def Instruction.sizes : List Instruction → Nat
  | [] => 0
  | i :: is => i.size + sizes is

/-- The number of instructions in an instruction, those of a spawned task included. -/
def Instruction.size : Instruction → Nat
  | .spawn _ code => 2 + Instruction.sizes code
  | _ => 1

end

/-- The number of instructions left and tasks there are. Every instruction causes at most that
many wakes, so the square bounds the number of polls to come. -/
def work (w : Workbench) : Nat :=
  w.executor.ready.length + 2 + 2 * w.executor.pending +
    Instruction.sizes (w.executor.tasks.toList.flatMap fun t ↦ t.2.code)

/-- Polls until no task may go on; the number of polls. -/
def settle (w : Workbench) : Nat × Workbench := pollAll (w.work * w.work) w

/-- Spawns a task. -/
def spawn (w : Workbench) (name : String) (code : List Instruction) : Workbench :=
  { w with executor := w.executor.spawn ⟨name, .nothing, code⟩ }

/-- Drops all tasks, and with them the channels on which they wait. -/
def clear (w : Workbench) : Workbench :=
  { w with executor := w.executor.clear, channels := w.channels.closeAll }

/-- The log since it was last taken. -/
def takeLog (w : Workbench) : List (String × Event) × Workbench := (w.log, { w with log := [] })

end Workbench

end ScopeGraphs
