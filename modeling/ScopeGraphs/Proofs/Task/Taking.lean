import ScopeGraphs.Order.Keyed
import ScopeGraphs.Task.Executor

/-!
# Waking and taking

What a wake does to an executor, and what the executor takes out when it is to poll the next task.
-/

namespace ScopeGraphs

namespace Executor

universe u

variable {τ : Type u} {e : Executor τ} {id id' : TaskId}

/-! ## Waking a task -/

theorem mem_ready_wake : id' ∈ (e.wake id).ready ↔ id' ∈ e.ready ∨ id' = id := by
  rw [wake]
  split
  · rename_i hid
    exact ⟨.inl, fun h ↦ h.elim (fun h ↦ h) (· ▸ hid)⟩
  · rw [List.mem_append, List.mem_singleton]

theorem tasks_wake (e : Executor τ) (id : TaskId) : (e.wake id).tasks = e.tasks := by
  rw [wake]
  split <;> rfl

theorem spawned_wake (e : Executor τ) (id : TaskId) : (e.wake id).spawned = e.spawned := by
  rw [wake]
  split <;> rfl

/-! ## Taking the next task out -/

/-- A task that may go on is taken out. -/
structure Takes (e : Executor τ) (id : TaskId) (t : τ) (e' : Executor τ) : Prop where
  task : e.tasks[id]? = some t
  mem : id ∈ e.ready
  tasks : e'.tasks = e.tasks.erase id
  spawned : e'.spawned = e.spawned
  shorter : e'.ready.length < e.ready.length
  kept : ∀ x ∈ e.ready, e.tasks[x]? ≠ none → x = id ∨ x ∈ e'.ready
  rest : ∀ x ∈ e'.ready, x ∈ e.ready

/-- The queue is searched for a task that is there. -/
theorem firstLive_cases {tasks : SortedMap TaskId τ} {ready : List TaskId} :
    (firstLive tasks ready).1 = none ∧ (∀ id ∈ ready, tasks[id]? = none) ∨
      ∃ id t rest, firstLive tasks ready = (some (id, t), rest) ∧ tasks[id]? = some t ∧
        id ∈ ready ∧ rest.length < ready.length ∧ (∀ x ∈ rest, x ∈ ready) ∧
        ∀ x ∈ ready, tasks[x]? ≠ none → x = id ∨ x ∈ rest := by
  induction ready with
  | nil => exact .inl ⟨rfl, nofun⟩
  | cons id ready ih =>
    rw [firstLive]
    cases hid : tasks[id]? with
    | some t =>
      refine .inr ⟨id, t, ready, rfl, hid, List.mem_cons_self, Nat.lt_succ_self _,
        fun x ↦ List.mem_cons_of_mem id, fun x hx _ ↦ ?_⟩
      exact List.mem_cons.1 hx
    | none =>
      dsimp only
      rcases ih with ⟨hnone, hdead⟩ | ⟨id', t, rest, hfirst, htask, hid', hlt, hrest, hready⟩
      · refine .inl ⟨hnone, fun x hx ↦ ?_⟩
        rcases List.mem_cons.1 hx with rfl | hx
        · exact hid
        · exact hdead x hx
      · refine .inr ⟨id', t, rest, hfirst, htask, List.mem_cons_of_mem _ hid',
          Nat.lt_succ_of_lt hlt, fun x hx ↦ List.mem_cons_of_mem _ (hrest x hx),
          fun x hx hlive ↦ ?_⟩
        rcases List.mem_cons.1 hx with rfl | hx
        · exact absurd hid hlive
        · exact hready x hx hlive

/-- Either nothing may go on, or a task is taken out. -/
theorem take_cases (e : Executor τ) : (∀ id ∈ e.ready, e.tasks[id]? = none) ∨
    ∃ id t e', e.take = (some (id, t), e') ∧ e.Takes id t e' := by
  rcases firstLive_cases with ⟨-, hdead⟩ | ⟨id, t, rest, hfirst, htask, hid, hlt, hrest, hready⟩
  · exact .inl hdead
  · have htake : e.take = (some (id, t),
        { e with ready := rest, tasks := e.tasks.erase id, polls := e.polls + 1 }) := by
      rw [take, hfirst]
    exact .inr ⟨id, t, _, htake, htask, hid, rfl, rfl, hlt, hready, hrest⟩

end Executor

end ScopeGraphs
