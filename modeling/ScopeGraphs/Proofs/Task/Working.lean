import ScopeGraphs.Proofs.Task.Dispatching
import ScopeGraphs.Proofs.Task.Instructing
import ScopeGraphs.Proofs.Task.Taking

/-!
# Executors in use

Whoever uses an executor does not see the steps of `Dispatcher.Step`: a waker looks for its task in
the queue itself, and the next task is taken out in one go, whatever is passed over on the way. Here
all that is done to an executor is taken apart into such steps. `Executor.Occurs` says of an
executor that it has come about by them, so that what holds of every run of a dispatcher
(`Dispatcher.Keeps`) holds of it.

A workbench uses its executor in no other way, whatever its tasks do (`Workbench.occurs_serve`).
-/

namespace ScopeGraphs

universe u

/-! ## Whole operations -/

namespace Dispatcher

variable {τ : Type u} {es : List (Event τ)} {d : Dispatcher τ}

theorem Queues.executor_push (h : d.Queues es) (id : TaskId) :
    (d.push id).executor = d.executor.wake id := by
  rw [Dispatcher.push, Executor.wake]
  by_cases hid : id ∈ d.executor.ready
  · rw [if_pos ((h.mem_queued id).2 hid), if_pos hid]
  · rw [if_neg (mt (h.mem_queued id).1 hid), if_neg hid]

theorem Queues.executor_spawn (h : d.Queues es) (t : τ) :
    (d.spawn t).executor = d.executor.spawn t := by
  have hadd : (d.add t).Queues es := ⟨h.mem_queued, h.mem_ready, h.sorted⟩
  exact hadd.executor_push d.executor.spawned

/-- If there is nothing to poll, then no unfinished task has news. -/
theorem Runs.not_hasNews (h : Runs es d) (hhand : d.hand = .free) (htake : d.executor.take.1 = none)
    {i : TaskId} (hi : Unfinished es i) : ¬ HasNews es i := by
  intro hnews
  have hready : i ∈ d.executor.ready :=
    (h.keeps.news i hi hnews).resolve_right (by rw [hhand]; nofun)
  have htask := (h.keeps.isSome_task i).2 ⟨hi, by rw [hhand]; nofun⟩
  rcases d.executor.take_cases with hdead | ⟨id, t, e', hsome, -⟩
  · rw [hdead i hready] at htask
    cases htask
  · rw [hsome] at htake
    cases htake

end Dispatcher

namespace Executor

variable {τ : Type u} {e e' : Executor τ} {hand : Hand} {id : TaskId}

/-- An executor has come about step by step, and has something in hand. -/
def Occurs (e : Executor τ) (hand : Hand) : Prop :=
  ∃ es d, Dispatcher.Runs es d ∧ d.executor = e ∧ d.hand = hand

namespace Occurs

protected theorem empty : (empty : Executor τ).Occurs .free := ⟨[], _, .nil, rfl, rfl⟩

protected theorem wake (h : e.Occurs hand) (id : TaskId) : (e.wake id).Occurs hand := by
  obtain ⟨es, d, run, rfl, rfl⟩ := h
  exact ⟨_, _, run.cons (.woken d id), (Dispatcher.Runs.keeps run).executor_push id, d.hand_push id⟩

protected theorem spawn (h : e.Occurs hand) (t : τ) : (e.spawn t).Occurs hand := by
  obtain ⟨es, d, run, rfl, rfl⟩ := h
  exact ⟨_, _, run.cons (.spawned d t), (Dispatcher.Runs.keeps run).executor_spawn t,
    Dispatcher.hand_push _ _⟩

protected theorem clear (h : e.Occurs .free) : e.clear.Occurs .free := by
  obtain ⟨es, d, run, rfl, hhand⟩ := h
  exact ⟨_, _, run.cons (.cleared hhand), rfl, hhand⟩

protected theorem settle (h : e.Occurs (.polling id)) (left : Option τ) :
    (e.settle id left).Occurs .free := by
  obtain ⟨es, d, run, rfl, hhand⟩ := h
  exact ⟨_, _, run.cons (.finished hhand left), rfl, rfl⟩

/-- The search for the next task takes entries off the queue one by one. -/
protected theorem take (h : e.Occurs .free) :
    e.take.1 = none ∧ e.take.2.Occurs .free ∨
      ∃ id t e', e.take = (some (id, t), e') ∧ e'.Occurs (.polling id) := by
  obtain ⟨es, d, run, rfl, hhand⟩ := h
  generalize hready : d.executor.ready = ready
  induction ready generalizing es d with
  | nil =>
    refine .inl ?_
    rw [Executor.take, hready, firstLive]
    refine ⟨rfl, es, d, run, ?_, hhand⟩
    rw [← hready]
  | cons id rest ih =>
    have popped := run.cons (.popped hhand hready)
    cases htask : d.executor.tasks[id]? with
    | some t =>
      refine .inr ⟨id, t, _, ?_, _, _, popped.cons (.started rfl htask), rfl, rfl⟩
      rw [Executor.take, hready, firstLive, htask]
      rfl
    | none =>
      have hrest : d.executor.take = (d.pop id rest).skip.executor.take := by
        rw [Executor.take, hready, firstLive, htask]
        rfl
      rw [hrest]
      exact ih _ _ (popped.cons (.skipped rfl htask)) rfl rfl

end Occurs

end Executor

/-! ## The workbench -/

namespace Workbench

variable {w : Workbench} {hand : Hand} {id : TaskId}

theorem executor_leg (w : Workbench) (name : String) : (w.leg name).2.executor = w.executor := by
  rw [leg]
  split <;> rfl

theorem executor_poll (id : TaskId) (w : Workbench) (l : Leg) :
    (poll id w l).2.executor = w.executor := by
  cases l with
  | ready v => rfl
  | pending c =>
    rw [poll]
    split <;> rfl

theorem executor_forget (w : Workbench) (l : Leg) : (w.forget l).executor = w.executor := by
  cases l <;> rfl

theorem occurs_wakeSome (h : w.executor.Occurs hand) (o : Option TaskId) :
    (w.wakeSome o).executor.Occurs hand := by
  cases o with
  | none => exact h
  | some id => exact h.wake id

theorem occurs_foldl_notify (h : w.executor.Occurs hand) (s : ChannelState Int)
    (cs : List ChannelId) : (cs.foldl (notify s) w).executor.Occurs hand := by
  induction cs generalizing w with
  | nil => exact h
  | cons c cs ih => exact ih (occurs_wakeSome (by exact h) _)

theorem occurs_drop (h : w.executor.Occurs hand) (name : String) :
    (w.drop name).executor.Occurs hand := by
  rw [drop]
  split
  · exact occurs_foldl_notify (by exact h) _ _
  · exact h

theorem occurs_complete (h : w.executor.Occurs hand) (name : String) (v : Int) :
    (w.complete name v).2.executor.Occurs hand := by
  rw [complete]
  split
  · exact occurs_foldl_notify (by exact h) _ _
  · exact h

/-- While a task runs, other tasks are spawned and woken, and so may the task itself be. -/
theorem tasksKeep_occurs (hand : Hand) : TasksKeep fun w ↦ w.executor.Occurs hand where
  note h _ _ := h
  wake h id := h.wake id
  spawn h t := h.spawn t
  leg h name := (executor_leg _ name).symm ▸ h
  poll h id l := (executor_poll id _ l).symm ▸ h
  forget h l := (executor_forget _ l).symm ▸ h
  complete h name v := occurs_complete h name v
  drop h name := occurs_drop h name

theorem occurs_pollNext (h : w.executor.Occurs .free) : w.pollNext.2.executor.Occurs .free := by
  rw [pollNext]
  rcases h.take with ⟨hnone, hrest⟩ | ⟨id, t, e', htake, htaken⟩
  · split
    · rename_i heq
      rw [heq] at hrest
      exact hrest
    · rename_i heq
      rw [heq] at hnone
      cases hnone
  · rw [htake]
    exact ((tasksKeep_occurs _).advance (w := { w with executor := e' }) htaken id t).settle _

theorem requestsKeep_occurs : RequestsKeep fun w ↦ w.executor.Occurs .free where
  new h name := occurs_drop h name
  complete h name v := occurs_complete h name v
  drop h name := occurs_drop h name
  spawn h _ _ := h.spawn _
  pollNext h := occurs_pollNext h
  clear h := h.clear

/-- Whatever is asked of a workbench, and whatever its tasks do, its executor comes about by the
steps of a dispatcher. -/
theorem occurs_serve (rs : List Request) : (rs.foldl serve empty).executor.Occurs .free :=
  requestsKeep_occurs.serve .empty rs

end Workbench

end ScopeGraphs
