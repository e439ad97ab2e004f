import ScopeGraphs.Proofs.Sorted
import ScopeGraphs.Task.Dispatcher

/-!
# No wake is lost

A task may be woken at any moment: while it waits, while it is queued, between the moment at which
it is taken off the queue and its poll, during its poll, and after it has completed. Nothing is
remembered of a wake but the entry in the queue, so the entry must not be missing when the task
has news.

The history of an executor says when a task became ready (`readySince`), whether it is unfinished
(`Unfinished`), and whether it has been spawned or woken since its last poll began (`HasNews`).
`Keeps` ties the executor to its history, and every step keeps it.

## Why the gap does no harm

An entry leaves the queue before its task is polled. A wake that falls in between finds the task
not queued and queues it again, so it is polled once more than needed. A wake that came before is
answered by the poll that follows: what is in hand is polled next, unless the task is gone
(`Keeps.news`).
-/

namespace ScopeGraphs

universe u

namespace Dispatcher

variable {τ : Type u} {es later earlier : List (Event τ)} {e : Event τ} {d d' : Dispatcher τ}
  {id i : TaskId} {m n : Nat}

/-! ## Histories

The latest event comes first. -/

/-- The task that an event lets go on. -/
def Event.readied : Event τ → Option TaskId
  | spawned id _ | woken id => some id
  | _ => none

/-- Whether a task was spawned. -/
def Event.isSpawn : Event τ → Bool
  | spawned _ _ => true
  | _ => false

/-- When a task that is ready became so: the number of events before it was spawned or woken for
the first time since it was last taken off the queue. -/
def readySince : List (Event τ) → TaskId → Option Nat
  | [], _ => none
  | e :: es, i =>
    match e with
    | .spawned id _ | .woken id =>
      if id = i then (readySince es i).or (some es.length) else readySince es i
    | .popped id => if id = i then none else readySince es i
    | .cleared => none
    | .skipped _ | .started _ | .finished _ _ => readySince es i

/-- A task was spawned, and has neither completed nor been dropped since. -/
def Unfinished : List (Event τ) → TaskId → Prop
  | [], _ => False
  | e :: es, i =>
    match e with
    | .spawned id _ => id = i ∨ Unfinished es i
    | .finished id none => id ≠ i ∧ Unfinished es i
    | .cleared => False
    | .woken _ | .popped _ | .skipped _ | .started _ | .finished _ (some _) => Unfinished es i

/-- A task was spawned or woken since its last poll began. -/
def HasNews : List (Event τ) → TaskId → Prop
  | [], _ => False
  | e :: es, i =>
    match e with
    | .spawned id _ | .woken id => id = i ∨ HasNews es i
    | .started id => id ≠ i ∧ HasNews es i
    | .popped _ | .skipped _ | .finished _ _ | .cleared => HasNews es i

@[simp] theorem not_unfinished_nil : ¬ Unfinished ([] : List (Event τ)) i := id

@[simp] theorem unfinished_spawned {t : τ} :
    Unfinished (.spawned id t :: es) i ↔ id = i ∨ Unfinished es i := .rfl

@[simp] theorem unfinished_popped : Unfinished (.popped id :: es) i ↔ Unfinished es i := .rfl

@[simp] theorem unfinished_skipped : Unfinished (.skipped id :: es) i ↔ Unfinished es i := .rfl

@[simp] theorem unfinished_started : Unfinished (.started id :: es) i ↔ Unfinished es i := .rfl

@[simp] theorem unfinished_finished_some {t : τ} :
    Unfinished (.finished id (some t) :: es) i ↔ Unfinished es i := .rfl

@[simp] theorem unfinished_finished_none :
    Unfinished (.finished id (none : Option τ) :: es) i ↔ id ≠ i ∧ Unfinished es i := .rfl

@[simp] theorem not_unfinished_cleared : ¬ Unfinished (.cleared :: es) i := id

theorem readySince_cons_of_readied (h : e.readied = some id) (i : TaskId) :
    readySince (e :: es) i =
      if id = i then (readySince es i).or (some es.length) else readySince es i := by
  cases e with
  | spawned id' t | woken id' =>
    obtain rfl : id' = id := Option.some.inj h
    rfl
  | _ => exact absurd h nofun

theorem readySince_lt (h : readySince es i = some n) : n < es.length := by
  induction es generalizing n with
  | nil => exact absurd h nofun
  | cons e es ih =>
    have hrest (h : readySince es i = some n) : n < (e :: es).length :=
      Nat.lt_succ_of_lt (ih h)
    rw [readySince.eq_def] at h
    cases e with
    | spawned id t | woken id =>
      dsimp only at h
      split at h
      · rcases Option.or_eq_some_iff.1 h with h | ⟨-, h⟩
        · exact hrest h
        · cases h
          exact Nat.lt_succ_self _
      · exact hrest h
    | popped id =>
      dsimp only at h
      split at h
      · cases h
      · exact hrest h
    | cleared => cases h
    | skipped id | started id | finished id left => exact hrest h

/-! ## The queue -/

/-- The queue holds what the history says, in that order, and so does the set. -/
structure Queues (d : Dispatcher τ) (es : List (Event τ)) : Prop where
  /-- A waker finds a task queued if it is. -/
  mem_queued : ∀ i, i ∈ d.queued ↔ i ∈ d.executor.ready
  /-- A task is queued if it is ready. -/
  mem_ready : ∀ i, i ∈ d.executor.ready ↔ (readySince es i).isSome = true
  /-- The queue has the tasks in the order in which they became ready. -/
  sorted : d.executor.ready.Pairwise fun i j ↦
    ∀ m n, readySince es i = some m → readySince es j = some n → m < n

namespace Queues

theorem nodup (h : d.Queues es) : d.executor.ready.Nodup :=
  h.sorted.imp_of_mem fun {i j} hi _ hlt heq ↦ by
    subst heq
    obtain ⟨n, hn⟩ := Option.isSome_iff_exists.1 ((h.mem_ready i).1 hi)
    exact Nat.lt_irrefl n (hlt n n hn hn)

theorem congr (h : d.Queues es) (hready : d'.executor.ready = d.executor.ready)
    (hqueued : d'.queued = d.queued) (hsince : ∀ i, readySince (e :: es) i = readySince es i) :
    d'.Queues (e :: es) where
  mem_queued i := by rw [hqueued, hready, h.mem_queued]
  mem_ready i := by rw [hready, hsince, h.mem_ready]
  sorted := by
    simp only [hready, hsince]
    exact h.sorted

theorem push (h : d.Queues es) (he : e.readied = some id) : (d.push id).Queues (e :: es) := by
  have hsince (i : TaskId) : readySince (e :: es) i =
      if id = i then (readySince es i).or (some es.length) else readySince es i :=
    readySince_cons_of_readied he i
  rw [Dispatcher.push]
  split
  · rename_i hid
    rw [h.mem_queued, h.mem_ready, Option.isSome_iff_exists] at hid
    obtain ⟨n, hn⟩ := hid
    refine h.congr rfl rfl fun i ↦ ?_
    rw [hsince]
    split
    · rename_i heq
      rw [← heq, hn]
      rfl
    · rfl
  · rename_i hid
    have hnot : id ∉ d.executor.ready := fun hmem ↦ hid ((h.mem_queued id).2 hmem)
    have hnone : readySince es id = none := by
      rw [h.mem_ready, Option.not_isSome_iff_eq_none] at hnot
      exact hnot
    have hold : ∀ i ∈ d.executor.ready, readySince (e :: es) i = readySince es i := by
      rintro i hi
      rw [hsince, if_neg]
      rintro rfl
      exact hnot hi
    exact {
      mem_queued := fun i ↦ by
        rw [SortedSet.mem_insert_iff, h.mem_queued, List.mem_append, List.mem_singleton, or_comm]
      mem_ready := fun i ↦ by
        rw [List.mem_append, List.mem_singleton, hsince]
        split
        · rename_i heq
          simp [heq]
        · rename_i hne
          rw [or_iff_left (Ne.symm hne), h.mem_ready]
      sorted := by
        rw [List.pairwise_append]
        refine ⟨h.sorted.imp_of_mem fun hi hj hlt ↦ ?_, List.pairwise_singleton .., ?_⟩
        · rw [hold _ hi, hold _ hj]
          exact hlt
        · intro i hi j hj m n hm hn
          rw [List.mem_singleton] at hj
          rw [hold i hi] at hm
          rw [hj, hsince, if_pos rfl, hnone, Option.none_or, Option.some.injEq] at hn
          exact hn ▸ readySince_lt hm }

theorem pop {rest : List TaskId} (h : d.Queues es) (hready : d.executor.ready = id :: rest) :
    (d.pop id rest).Queues (.popped id :: es) := by
  have hnodup := h.nodup
  have hsorted := h.sorted
  rw [hready, List.nodup_cons] at hnodup
  rw [hready, List.pairwise_cons] at hsorted
  have hold : ∀ i ∈ rest, readySince (.popped id :: es) i = readySince es i := by
    rintro i hi
    rw [readySince, if_neg]
    rintro rfl
    exact hnodup.1 hi
  exact {
    mem_queued := fun i ↦ by
      rw [Dispatcher.pop, SortedSet.mem_erase_iff, h.mem_queued, hready, List.mem_cons]
      constructor
      · rintro ⟨hne, hi⟩
        exact hi.resolve_left hne
      · intro hi
        refine ⟨?_, .inr hi⟩
        rintro rfl
        exact hnodup.1 hi
    mem_ready := fun i ↦ by
      have hmem := h.mem_ready i
      rw [hready, List.mem_cons] at hmem
      rw [Dispatcher.pop, readySince]
      split
      · rename_i heq
        rw [← heq]
        simpa using hnodup.1
      · rename_i hne
        rw [← hmem, or_iff_right (Ne.symm hne)]
    sorted := hsorted.2.imp_of_mem fun hi hj hlt ↦ by
      rw [hold _ hi, hold _ hj]
      exact hlt }

theorem clear : d.clear.Queues (.cleared :: es) where
  mem_queued i := by simp [Dispatcher.clear, Executor.clear]
  mem_ready i := by simp [Dispatcher.clear, Executor.clear, readySince]
  sorted := List.Pairwise.nil

/-- The front of the queue has been ready for longest. -/
theorem front {rest : List TaskId} (h : d.Queues es) (hready : d.executor.ready = id :: rest) :
    ∃ n, readySince es id = some n ∧ ∀ i m, i ≠ id → readySince es i = some m → n < m := by
  have hid : id ∈ d.executor.ready := hready ▸ List.mem_cons_self
  obtain ⟨n, hn⟩ := Option.isSome_iff_exists.1 ((h.mem_ready id).1 hid)
  refine ⟨n, hn, fun i m hne hm ↦ ?_⟩
  have hi : i ∈ d.executor.ready := (h.mem_ready i).2 (hm ▸ rfl)
  have hsorted := h.sorted
  rw [hready, List.mem_cons] at hi
  rw [hready, List.pairwise_cons] at hsorted
  exact hsorted.1 i (hi.resolve_left hne) n m hn hm

end Queues

/-! ## Queueing a task leaves the rest alone -/

@[simp] theorem tasks_push (d : Dispatcher τ) (id : TaskId) :
    (d.push id).executor.tasks = d.executor.tasks := by
  rw [push]
  split <;> rfl

@[simp] theorem spawned_push (d : Dispatcher τ) (id : TaskId) :
    (d.push id).executor.spawned = d.executor.spawned := by
  rw [push]
  split <;> rfl

@[simp] theorem completed_push (d : Dispatcher τ) (id : TaskId) :
    (d.push id).executor.completed = d.executor.completed := by
  rw [push]
  split <;> rfl

@[simp] theorem dropped_push (d : Dispatcher τ) (id : TaskId) :
    (d.push id).executor.dropped = d.executor.dropped := by
  rw [push]
  split <;> rfl

@[simp] theorem hand_push (d : Dispatcher τ) (id : TaskId) : (d.push id).hand = d.hand := by
  rw [push]
  split <;> rfl

theorem Queues.mem_ready_push (h : d.Queues es) :
    i ∈ (d.push id).executor.ready ↔ i ∈ d.executor.ready ∨ i = id := by
  rw [Dispatcher.push]
  split
  · rename_i hid
    rw [h.mem_queued] at hid
    exact ⟨.inl, fun hi ↦ hi.elim (fun hi ↦ hi) (· ▸ hid)⟩
  · rw [List.mem_append, List.mem_singleton]

/-! ## Keeping account of the tasks -/

/-- The entry in hand was taken off the queue, and nothing but spawns and wakes has come since. -/
def Holds (es : List (Event τ)) (id : TaskId) : Prop :=
  ∃ since before, es = since ++ .popped id :: before ∧ ∀ e ∈ since, e.readied.isSome = true

/-- An executor is as its history says. -/
structure Keeps (d : Dispatcher τ) (es : List (Event τ)) : Prop extends d.Queues es where
  /-- The unfinished tasks are in the table, but for the one that is being polled. -/
  isSome_task : ∀ i, (d.executor.tasks[i]?).isSome = true ↔ Unfinished es i ∧ d.hand ≠ .polling i
  /-- The task that is being polled is unfinished. -/
  polling : ∀ i, d.hand = .polling i → Unfinished es i
  /-- The entry in hand is next. -/
  popped : ∀ i, d.hand = .popped i → Holds es i
  /-- An unfinished task with news is queued, or it is next. -/
  news : ∀ i, Unfinished es i → HasNews es i → i ∈ d.executor.ready ∨ d.hand = .popped i
  /-- Tasks are numbered as they are spawned. -/
  lt_spawned : ∀ i, Unfinished es i → i < d.executor.spawned
  /-- Every spawned task is counted. -/
  spawned : d.executor.spawned = es.countP Event.isSpawn
  /-- Every spawned task has completed, has been dropped, is in the table or is in hand. -/
  counts : d.executor.spawned =
    d.executor.completed + d.executor.dropped + d.executor.pending + d.hand.tasks

namespace Keeps

theorem empty : (Dispatcher.empty : Dispatcher τ).Keeps [] where
  mem_queued i := by simp [Dispatcher.empty, Executor.empty]
  mem_ready i := by simp [Dispatcher.empty, Executor.empty, readySince]
  sorted := List.Pairwise.nil
  isSome_task i := by simp [Dispatcher.empty, Executor.empty]
  polling := nofun
  popped := nofun
  news _ hi := hi.elim
  lt_spawned _ hi := hi.elim
  spawned := rfl
  counts := by simp [Dispatcher.empty, Executor.empty, Executor.pending, Hand.tasks]

theorem holds_cons (h : Holds es id) (he : e.readied.isSome = true) : Holds (e :: es) id := by
  obtain ⟨since, before, rfl, hsince⟩ := h
  exact ⟨e :: since, before, rfl, List.forall_mem_cons.2 ⟨he, hsince⟩⟩

theorem woken (h : d.Keeps es) (id : TaskId) : (d.push id).Keeps (.woken id :: es) where
  toQueues := h.toQueues.push rfl
  isSome_task i := by
    rw [tasks_push, hand_push]
    exact h.isSome_task i
  polling i hi := h.polling i (d.hand_push id ▸ hi)
  popped i hi := holds_cons (h.popped i (d.hand_push id ▸ hi)) rfl
  news i hi hnews := by
    rw [hand_push, h.mem_ready_push]
    rcases hnews with rfl | hnews
    · exact .inl (.inr rfl)
    · exact (h.news i hi hnews).imp_left .inl
  lt_spawned i hi := by
    rw [spawned_push]
    exact h.lt_spawned i hi
  spawned := by
    rw [spawned_push]
    exact h.spawned
  counts := by
    rw [Executor.pending, spawned_push, completed_push, dropped_push, tasks_push, hand_push]
    exact h.counts

theorem spawned_cons (h : d.Keeps es) (t : τ) :
    (d.spawn t).Keeps (.spawned d.executor.spawned t :: es) := by
  have hnew : ¬ Unfinished es d.executor.spawned := fun hi ↦ Nat.lt_irrefl _ (h.lt_spawned _ hi)
  have hqueues : (d.add t).Queues es := ⟨h.mem_queued, h.mem_ready, h.sorted⟩
  exact {
    toQueues := hqueues.push rfl
    isSome_task := fun i ↦ by
      rw [spawn, tasks_push, hand_push, add, SortedMap.getElem?_insert_eq, unfinished_spawned]
      split
      · rename_i heq
        rw [← heq]
        exact iff_of_true rfl ⟨.inl rfl, fun hhand ↦ hnew (h.polling _ hhand)⟩
      · rename_i hne
        rw [or_iff_right hne, h.isSome_task]
    polling := fun i hi ↦ .inr (h.polling i (by rwa [spawn, hand_push] at hi))
    popped := fun i hi ↦ holds_cons (h.popped i (by rwa [spawn, hand_push] at hi)) rfl
    news := fun i hi hnews ↦ by
      rw [spawn, hand_push, hqueues.mem_ready_push]
      rcases hi with rfl | hi
      · exact .inl (.inr rfl)
      · rcases hnews with rfl | hnews
        · exact .inl (.inr rfl)
        · exact (h.news i hi hnews).imp_left .inl
    lt_spawned := fun i hi ↦ by
      rw [spawn, spawned_push]
      rcases hi with rfl | hi
      · exact Nat.lt_succ_self _
      · exact Nat.lt_succ_of_lt (h.lt_spawned i hi)
    spawned := by
      rw [spawn, spawned_push, List.countP_cons, ← h.spawned]
      rfl
    counts := by
      have hcounts := h.counts
      have hfree : d.executor.tasks[d.executor.spawned]? = none :=
        Option.not_isSome_iff_eq_none.1 fun htask ↦ hnew ((h.isSome_task _).1 htask).1
      rw [Executor.pending] at hcounts
      rw [Executor.pending, spawn, spawned_push, completed_push, dropped_push, tasks_push,
        hand_push, add, SortedMap.size_insert_of_eq_none hfree]
      dsimp only
      omega }

theorem popped_cons {rest : List TaskId} (h : d.Keeps es) (hhand : d.hand = .free)
    (hready : d.executor.ready = id :: rest) : (d.pop id rest).Keeps (.popped id :: es) where
  toQueues := h.toQueues.pop hready
  isSome_task i := by
    have htask := h.isSome_task i
    rw [hhand] at htask
    simpa [Dispatcher.pop] using htask
  polling i := nofun
  popped i hi := by
    obtain rfl : id = i := Hand.popped.inj hi
    exact ⟨[], es, rfl, nofun⟩
  news i hi hnews := by
    have hmem := h.news i hi hnews
    rw [hready, hhand, List.mem_cons] at hmem
    rcases hmem with (rfl | hmem) | hmem
    · exact .inr rfl
    · exact .inl hmem
    · cases hmem
  lt_spawned i hi := h.lt_spawned i hi
  spawned := h.spawned
  counts := by
    have hcounts := h.counts
    rw [hhand] at hcounts
    exact hcounts

theorem skipped_cons (h : d.Keeps es) (hhand : d.hand = .popped id)
    (hgone : d.executor.tasks[id]? = none) : d.skip.Keeps (.skipped id :: es) where
  toQueues := h.toQueues.congr rfl rfl fun i ↦ rfl
  isSome_task i := by
    have htask := h.isSome_task i
    rw [hhand] at htask
    simpa [Dispatcher.skip] using htask
  polling i := nofun
  popped i := nofun
  news i hi hnews := by
    rcases h.news i hi hnews with hmem | hmem
    · exact .inl hmem
    · -- An unfinished task is in the table while nothing is being polled.
      obtain rfl : id = i := Hand.popped.inj (hhand.symm.trans hmem)
      have htask := (h.isSome_task id).2 ⟨hi, by rw [hhand]; nofun⟩
      rw [hgone] at htask
      cases htask
  lt_spawned i hi := h.lt_spawned i hi
  spawned := h.spawned
  counts := by
    have hcounts := h.counts
    rw [hhand] at hcounts
    exact hcounts

theorem started_cons {t : τ} (h : d.Keeps es) (hhand : d.hand = .popped id)
    (htask : d.executor.tasks[id]? = some t) : (d.start id).Keeps (.started id :: es) := by
  have hstored : (d.executor.tasks[id]?).isSome = true := by rw [htask, Option.isSome_some]
  exact {
    toQueues := h.toQueues.congr rfl rfl fun i ↦ rfl
    isSome_task := fun i ↦ by
      have hi := h.isSome_task i
      rw [hhand] at hi
      rw [Dispatcher.start, SortedMap.getElem?_erase_eq, unfinished_started]
      split
      · rename_i heq
        simp [heq]
      · rename_i hne
        simpa [hne] using hi
    polling := fun i hi ↦ by
      obtain rfl : id = i := Hand.polling.inj hi
      exact ((h.isSome_task id).1 hstored).1
    popped := fun i ↦ nofun
    news := fun i hi hnews ↦ by
      rcases h.news i hi hnews.2 with hmem | hmem
      · exact .inl hmem
      · exact absurd (Hand.popped.inj (hhand.symm.trans hmem)) hnews.1
    lt_spawned := fun i hi ↦ h.lt_spawned i hi
    spawned := h.spawned
    counts := by
      have hcounts := h.counts
      have hsize := SortedMap.size_erase_of_eq_some htask
      rw [hhand, Executor.pending] at hcounts
      rw [Executor.pending, Dispatcher.start]
      dsimp only [Hand.tasks] at hcounts ⊢
      omega }

theorem finished_cons (h : d.Keeps es) (hhand : d.hand = .polling id) (left : Option τ) :
    (d.finish id left).Keeps (.finished id left :: es) := by
  have hunfinished := h.polling id hhand
  have hgone : d.executor.tasks[id]? = none :=
    Option.not_isSome_iff_eq_none.1 fun htask ↦ ((h.isSome_task id).1 htask).2 hhand
  have hcounts := h.counts
  rw [hhand, Executor.pending] at hcounts
  cases left with
  | some t =>
    exact {
      toQueues := h.toQueues.congr rfl rfl fun i ↦ rfl
      isSome_task := fun i ↦ by
        have hi := h.isSome_task i
        rw [hhand] at hi
        rw [Dispatcher.finish, Executor.settle, SortedMap.getElem?_insert_eq,
          unfinished_finished_some]
        split
        · rename_i heq
          simpa [← heq] using hunfinished
        · rename_i hne
          simpa [hne] using hi
      polling := fun i ↦ nofun
      popped := fun i ↦ nofun
      news := fun i hi hnews ↦ by
        rcases h.news i hi hnews with hmem | hmem
        · exact .inl hmem
        · exact absurd (hhand.symm.trans hmem) nofun
      lt_spawned := fun i hi ↦ h.lt_spawned i hi
      spawned := h.spawned
      counts := by
        rw [Executor.pending, Dispatcher.finish, Executor.settle,
          SortedMap.size_insert_of_eq_none hgone]
        dsimp only [Hand.tasks] at hcounts ⊢
        omega }
  | none =>
    exact {
      toQueues := h.toQueues.congr rfl rfl fun i ↦ rfl
      isSome_task := fun i ↦ by
        have hi := h.isSome_task i
        rw [hhand] at hi
        rw [Dispatcher.finish, Executor.settle, unfinished_finished_none]
        dsimp only
        rw [hi]
        simp [and_comm]
      polling := fun i ↦ nofun
      popped := fun i ↦ nofun
      news := fun i hi hnews ↦ by
        rcases h.news i hi.2 hnews with hmem | hmem
        · exact .inl hmem
        · exact absurd (hhand.symm.trans hmem) nofun
      lt_spawned := fun i hi ↦ h.lt_spawned i hi.2
      spawned := h.spawned
      counts := by
        rw [Executor.pending, Dispatcher.finish, Executor.settle]
        dsimp only [Hand.tasks] at hcounts ⊢
        omega }

theorem cleared_cons (h : d.Keeps es) (hhand : d.hand = .free) :
    d.clear.Keeps (.cleared :: es) where
  toQueues := Queues.clear
  isSome_task i := by simp [Dispatcher.clear, Executor.clear]
  polling i hi := by
    rw [Dispatcher.clear, hhand] at hi
    cases hi
  popped i hi := by
    rw [Dispatcher.clear, hhand] at hi
    cases hi
  news i hi := hi.elim
  lt_spawned i hi := hi.elim
  spawned := h.spawned
  counts := by
    have hcounts := h.counts
    rw [hhand, Executor.pending] at hcounts
    rw [Executor.pending, Dispatcher.clear, Executor.clear, hhand, Std.ExtTreeMap.size_empty]
    dsimp only at hcounts ⊢
    omega

theorem step (h : d.Keeps es) (hstep : Step d e d') : d'.Keeps (e :: es) := by
  cases hstep with
  | spawned t => exact h.spawned_cons t
  | woken id => exact h.woken id
  | popped hhand hready => exact h.popped_cons hhand hready
  | skipped hhand hgone => exact h.skipped_cons hhand hgone
  | started hhand htask => exact h.started_cons hhand htask
  | finished hhand left => exact h.finished_cons hhand left
  | cleared hhand => exact h.cleared_cons hhand

end Keeps

/-! ## Whole runs -/

namespace Runs

theorem keeps (h : Runs es d) : d.Keeps es := by
  induction h with
  | nil => exact .empty
  | cons _ hstep ih => exact ih.step hstep

/-- A task that is gone does not come back: its number is not given again. -/
theorem not_unfinished_append (h : Runs (later ++ earlier) d) (hgone : ¬ Unfinished earlier i)
    (hlt : i < earlier.countP Event.isSpawn) : ¬ Unfinished (later ++ earlier) i := by
  induction later generalizing d with
  | nil => exact hgone
  | cons e later ih =>
    rw [List.cons_append] at h ⊢
    obtain ⟨d', run, step⟩ := h.of_cons
    have hrest := ih run
    cases step with
    | spawned t =>
      rintro (rfl | hi)
      · have hspawned := (Runs.keeps run).spawned
        rw [hspawned, List.countP_append] at hlt
        exact absurd hlt (Nat.not_lt.2 (Nat.le_add_left _ _))
      · exact hrest hi
    | finished hhand left =>
      cases left with
      | none => exact fun hi ↦ hrest hi.2
      | some t => exact hrest
    | cleared hhand => exact fun hi ↦ hi
    | woken id | popped hhand hready | skipped hhand hgone | started hhand htask => exact hrest

/-- A poll begins with an unfinished task that was taken off the queue just before. -/
theorem started (h : Runs (later ++ .started id :: earlier) d) :
    Unfinished earlier id ∧ Holds earlier id := by
  obtain ⟨d₁, d₂, run, step⟩ := h.exists_step
  cases step with
  | started hhand htask =>
    refine ⟨(((Runs.keeps run).isSome_task id).1 ?_).1, (Runs.keeps run).popped id hhand⟩
    rw [htask, Option.isSome_some]

theorem not_started (h : Runs (later ++ earlier) d) (hgone : ¬ Unfinished earlier i)
    (hlt : i < earlier.countP Event.isSpawn) : .started i ∉ later := by
  intro hmem
  obtain ⟨later₁, later₂, rfl⟩ := List.append_of_mem hmem
  rw [List.append_assoc, List.cons_append] at h
  obtain ⟨d', -, run, -⟩ := h.exists_step
  exact not_unfinished_append run hgone hlt h.started.1

end Runs

/-- Tasks get what they are due. -/
structure Serves (d : Dispatcher τ) (es : List (Event τ)) : Prop where
  /-- No task is queued twice. -/
  nodup_ready : d.executor.ready.Nodup
  /-- A waker finds a task queued if it is. -/
  mem_queued : ∀ i, i ∈ d.queued ↔ i ∈ d.executor.ready
  /-- The table has the unfinished tasks, but for the one that is being polled. -/
  isSome_task : ∀ i, (d.executor.tasks[i]?).isSome = true ↔ Unfinished es i ∧ d.hand ≠ .polling i
  /-- An unfinished task that has been spawned or woken since its last poll began is queued, or it
  has just been taken off the queue. -/
  news : ∀ i, Unfinished es i → HasNews es i → i ∈ d.executor.ready ∨ d.hand = .popped i
  /-- What was taken off the queue had been ready for longest. -/
  popped : ∀ later id earlier, es = later ++ .popped id :: earlier →
    ∃ n, readySince earlier id = some n ∧ ∀ i m, i ≠ id → readySince earlier i = some m → n < m
  /-- Every poll was that of an unfinished task which had been taken off the queue just before. -/
  started : ∀ later id earlier, es = later ++ .started id :: earlier →
    Unfinished earlier id ∧ Holds earlier id
  /-- A task that had completed was not polled again. -/
  not_started_of_finished : ∀ later id earlier, es = later ++ .finished id none :: earlier →
    .started id ∉ later
  /-- A task that had been dropped was not polled again. -/
  not_started_of_cleared : ∀ later id earlier, es = later ++ .cleared :: earlier →
    Unfinished earlier id → .started id ∉ later
  /-- Every spawned task has completed, has been dropped, is in the table or is being polled. -/
  counts : d.executor.spawned =
    d.executor.completed + d.executor.dropped + d.executor.pending + d.hand.tasks

/-- Whatever is spawned, woken, polled and dropped, tasks get what they are due. -/
theorem Runs.no_wake_lost (h : Runs es d) : d.Serves es where
  nodup_ready := h.keeps.nodup
  mem_queued := h.keeps.mem_queued
  isSome_task := h.keeps.isSome_task
  news := h.keeps.news
  popped later id earlier heq := by
    subst heq
    obtain ⟨d₁, d₂, run, step⟩ := h.exists_step
    cases step with
    | popped hhand hready => exact (Runs.keeps run).front hready
  started later id earlier heq := (heq ▸ h).started
  not_started_of_finished later id earlier heq := by
    subst heq
    obtain ⟨d₁, d₂, run, step⟩ := h.exists_step
    cases step with
    | finished hhand left =>
      refine h.not_started (fun hi ↦ hi.1 rfl) ?_
      have hlt := (Runs.keeps run).lt_spawned id ((Runs.keeps run).polling id hhand)
      rwa [(Runs.keeps run).spawned] at hlt
  not_started_of_cleared later id earlier heq hid := by
    subst heq
    obtain ⟨d₁, d₂, run, -⟩ := h.exists_step
    refine h.not_started (fun hi ↦ hi) ?_
    have hlt := (Runs.keeps run).lt_spawned id hid
    rwa [(Runs.keeps run).spawned] at hlt
  counts := h.keeps.counts

/-- A task is woken while it is in hand and again during its own poll, and another one after it has
completed. -/
theorem serves_wakes : ∃ d : Dispatcher Nat, d.executor.ready = [] ∧ d.executor.completed = 2 ∧
    d.Serves [.skipped 1, .popped 1, .finished 0 none, .started 0, .popped 0, .woken 1,
      .finished 1 none, .started 1, .popped 1, .finished 0 (some 7), .woken 0, .woken 1, .started 0,
      .woken 0, .popped 0, .spawned 1 6, .spawned 0 5] := by
  have start : Runs [] (empty : Dispatcher Nat) := .nil
  have gap := start.cons (.spawned _ 5) |>.cons (.spawned _ 6) |>.cons (.popped rfl rfl)
    |>.cons (.woken _ 0) |>.cons (.started rfl rfl)
  have during := gap.cons (.woken _ 1) |>.cons (.woken _ 0) |>.cons (.finished rfl (some 7))
  have after := during.cons (.popped rfl rfl) |>.cons (.started rfl rfl)
    |>.cons (.finished rfl none) |>.cons (.woken _ 1)
  have ended := after.cons (.popped rfl rfl) |>.cons (.started rfl rfl)
    |>.cons (.finished rfl none) |>.cons (.popped rfl rfl) |>.cons (.skipped rfl rfl)
  exact ⟨_, rfl, rfl, Runs.no_wake_lost ended⟩

end Dispatcher

end ScopeGraphs
