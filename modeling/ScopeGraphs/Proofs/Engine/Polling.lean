import Mathlib.Algebra.BigOperators.Group.Multiset.Basic
import ScopeGraphs.Proofs.Engine.Delivering
import ScopeGraphs.Proofs.Engine.Mailing
import ScopeGraphs.Proofs.Task.Taking

/-!
# What a poll does

The poll of a process that answers queries changes the state of a run in a few ways only: it sends
queries to other units, makes channels for their answers, and reads the channels on which the
process waits. `Family.Advance` describes this together with the cost that the poll has met. A poll
that has met none has changed nothing that others could notice.

`Family.Polls` says of a process that a poll either ends it with what it delivers or leaves a
process that waits for an answer on every channel of its own, and will deliver the same.
-/

namespace ScopeGraphs

variable {γ α β : Type}

/-! ## Queries to be answered -/

/-- A query that was sent to a unit, with the cost of the answer. -/
structure Job where
  /-- The unit that is asked. -/
  unit : UnitId
  /-- The unit that asks. -/
  sender : UnitId
  /-- The path to be resolved. -/
  path : Path
  /-- The query. -/
  params : QueryParams
  /-- Where the answer is awaited. -/
  reply : ChannelId
  /-- What it costs to resolve the path. -/
  cost : Nat

namespace Job

/-- The message that asks. -/
def message (j : Job) : UnitId × Message := (j.unit, .query j.sender j.path j.params j.reply)

/-- The task that answers. -/
def task (j : Job) : Task γ := .answerQuery j.unit j.sender j.path j.params j.reply

/-- How the answer is found. -/
def flow (W : Family γ) (j : Job) : Flow γ QueryAnswer :=
  Answering.answerQuery W.presented W.setup j.unit j.sender j.path j.params

/-- The unit is able to give the answer that was promised. -/
structure Owed (W : Family γ) (Γ : Promises) (j : Job) : Prop where
  unit : (W.fragment? j.unit).isSome
  answer : ∃ env, Γ j.reply = some env ∧ W.Delivers j.cost (j.flow W).run (Answers env)

/-- The cost of several answers. Sending an answer counts, too. -/
def costs (jobs : Multiset Job) : Nat := (jobs.map fun j ↦ j.cost + 1).sum

theorem costs_add (jobs jobs' : Multiset Job) : costs (jobs + jobs') = costs jobs + costs jobs' := by
  rw [costs, Multiset.map_add, Multiset.sum_add]
  rfl

theorem Owed.mono {W : Family γ} {Γ Δ : Promises} (hgrows : Γ.Grows Δ) {j : Job}
    (h : j.Owed W Γ) : j.Owed W Δ where
  unit := h.unit
  answer := by
    obtain ⟨env, henv, hdelivers⟩ := h.answer
    exact ⟨env, hgrows _ _ henv, hdelivers⟩

end Job

/-! ## Tasks and channels -/

/-- Every channel on which a process waits is there. If nothing has arrived there, the task of the
process will be woken. -/
def Core.Watches (c : Core γ) (task : TaskId) (p : Proc γ α) : Prop :=
  ∀ ch, p.Awaits ch → c.channels.slots[ch]? = some (.empty (some task)) ∨
    ∃ v, c.channels.slots[ch]? = some (.full v)

namespace Family

/-- The state of a run in which promises are kept: the channels for which there is one hold nothing
yet, or what was promised. -/
structure Fits (W : Family γ) (Γ : Promises) (c : Core γ) : Prop where
  holds : W.Holds c
  lost_lt : ∀ ch, W.lost ch → ch < c.channels.next
  made : ∀ ch env, Γ ch = some env → ch < c.channels.next
  lt_next : ∀ ch s, c.channels.slots[ch]? = some s → ch < c.channels.next
  kept : ∀ ch env s, Γ ch = some env → c.channels.slots[ch]? = some s → (∃ w, s = .empty w) ∨
    ∃ a : QueryAnswer, a.env = env ∧ s = .full (.answer (.ok a))
  arrived : ∀ ch env, Γ ch = some env →
    (ch ∈ c.channels.arrived ↔ ∃ v, c.channels.slots[ch]? = some (.full v))
  arrived_lt : ∀ ch ∈ c.channels.arrived, ch < c.channels.next
  nodup : c.channels.arrived.Nodup

variable {W : Family γ} {Γ Δ Θ : Promises} {c c' c'' : Core γ}

/-- The state may change in ways that concern no channel. -/
theorem Holds.congr (h : W.Holds c) (hsetup : c'.setup = c.setup) (hunits : c'.units = c.units)
    (hchannels : c'.channels.Lose W.lost) : W.Holds c' where
  setup := hsetup.trans h.setup
  graph := hunits ▸ h.graph
  still := hunits ▸ h.still
  channels := hchannels

namespace Fits

theorem congr (h : W.Fits Γ c) (hholds : W.Holds c') (hchannels : c'.channels = c.channels) :
    W.Fits Γ c' where
  holds := hholds
  lost_lt := hchannels ▸ h.lost_lt
  made := hchannels ▸ h.made
  lt_next := hchannels ▸ h.lt_next
  kept := hchannels ▸ h.kept
  arrived := hchannels ▸ h.arrived
  arrived_lt := hchannels ▸ h.arrived_lt
  nodup := hchannels ▸ h.nodup

theorem stirs (h : W.Fits Γ c) (hstirs : W.Stirs c c') : W.Fits Γ c' :=
  h.congr hstirs.holds hstirs.channels

theorem wake (h : W.Fits Γ c) (id : TaskId) : W.Fits Γ (c.wake id) :=
  h.congr (h.holds.congr rfl rfl h.holds.channels) rfl

/-- An empty channel gets another state, in accordance with what is promised on it. -/
theorem put (h : W.Fits Γ c) {ch : ChannelId} {w : Option TaskId}
    (hslot : c.channels.slots[ch]? = some (.empty w)) {s : ChannelState Parcel}
    (hs : ∀ env, Γ ch = some env → (∃ w, s = .empty w) ∨
      ∃ a : QueryAnswer, a.env = env ∧ s = .full (.answer (.ok a))) {arrived : List ChannelId}
    (harrived : ∀ ch', ch' ∈ arrived ↔ ch' ∈ c.channels.arrived ∨ ch = ch' ∧ ∃ v, s = .full v)
    (hnodup : arrived.Nodup) (executor : Executor (Task γ)) :
    W.Fits Γ { c with
      channels := { c.channels with slots := c.channels.slots.insert ch s, arrived := arrived }
      executor := executor } := by
  have hlookup (ch' : ChannelId) : (c.channels.slots.insert ch s)[ch']? =
      if ch = ch' then some s else c.channels.slots[ch']? :=
    SortedMap.getElem?_insert_eq ..
  have hlt := h.lt_next ch _ hslot
  exact
    { holds := h.holds.congr rfl rfl fun ch' hch' ↦ by
        have hnone := h.holds.channels ch' hch'
        have hne : ch ≠ ch' := by
          rintro rfl
          exact nomatch hslot.symm.trans hnone
        rw [hlookup, if_neg hne, hnone]
      lost_lt := h.lost_lt
      made := h.made
      lt_next := fun ch' s' hs' ↦ by
        rw [hlookup] at hs'
        split at hs'
        · rename_i heq
          exact heq ▸ hlt
        · exact h.lt_next ch' s' hs'
      kept := fun ch' env s' henv hs' ↦ by
        rw [hlookup] at hs'
        split at hs'
        · rename_i heq
          exact Option.some.inj hs' ▸ hs env (heq ▸ henv)
        · exact h.kept ch' env s' henv hs'
      arrived := fun ch' env henv ↦ by
        rw [harrived, h.arrived ch' env henv, hlookup]
        split
        · rename_i heq
          -- Nothing had arrived on this channel, since it was empty.
          rw [← heq, hslot]
          simp
        · rename_i hne
          exact or_iff_left fun hch' ↦ hne hch'.1
      arrived_lt := fun ch' hch' ↦ by
        rcases (harrived ch').1 hch' with hch' | ⟨rfl, -⟩
        · exact h.arrived_lt ch' hch'
        · exact hlt
      nodup := hnodup }

/-- Looking into an empty channel leaves the number of the task there. -/
theorem look (h : W.Fits Γ c) {ch : ChannelId} {w : Option TaskId}
    (hslot : c.channels.slots[ch]? = some (.empty w)) (task : TaskId) :
    W.Fits Γ { c with channels := { c.channels with
      slots := c.channels.slots.insert ch (.empty (some task)) } } :=
  h.put hslot (fun _ _ ↦ .inl ⟨_, rfl⟩) (fun _ ↦ (or_iff_left nofun).symm) h.nodup c.executor

/-- Giving the answer that was promised fills a channel. -/
theorem fill (h : W.Fits Γ c) {ch : ChannelId} {a : QueryAnswer} (ha : Γ ch = some a.env)
    {w : Option TaskId} (hslot : c.channels.slots[ch]? = some (.empty w))
    (executor : Executor (Task γ)) :
    W.Fits Γ { c with
      channels := { c.channels with
        slots := c.channels.slots.insert ch (.full (.answer (.ok a)))
        arrived := c.channels.arrived ++ [ch] }
      executor := executor } := by
  have hnot : ch ∉ c.channels.arrived := by
    rw [h.arrived ch _ ha, hslot]
    exact fun ⟨v, hv⟩ ↦ nomatch hv
  refine h.put hslot (fun env henv ↦ ?_) (fun ch' ↦ ?_) ?_ executor
  · exact .inr ⟨a, Option.some.inj (ha.symm.trans henv), rfl⟩
  · rw [List.mem_append, List.mem_singleton, eq_comm]
    exact or_congr_right (and_iff_left ⟨_, rfl⟩).symm
  · exact List.nodup_append_comm.1 (List.nodup_cons.2 ⟨hnot, h.nodup⟩)

/-- Reading a channel takes it out of use. -/
theorem close (h : W.Fits Γ c) (ch : ChannelId) :
    W.Fits Γ { c with channels := c.channels.close ch } := by
  have hlookup (ch' : ChannelId) : (c.channels.close ch).slots[ch']? =
      if ch = ch' then none else c.channels.slots[ch']? :=
    SortedMap.getElem?_erase_eq ..
  have hopen {ch' : ChannelId} {s : ChannelState Parcel}
      (hs : (c.channels.close ch).slots[ch']? = some s) : c.channels.slots[ch']? = some s :=
    (SortedMap.getElem?_erase_eq_some_iff.1 hs).2
  exact
    { holds := h.holds.congr rfl rfl fun ch' hch' ↦ by
        rw [hlookup, h.holds.channels ch' hch']
        exact ite_self none
      lost_lt := h.lost_lt
      made := h.made
      lt_next := fun ch' s hs ↦ h.lt_next ch' s (hopen hs)
      kept := fun ch' env s henv hs ↦ h.kept ch' env s henv (hopen hs)
      arrived := fun ch' env henv ↦ by
        rw [hlookup]
        change ch' ∈ c.channels.arrived.erase ch ↔ _
        rw [h.nodup.mem_erase_iff, h.arrived ch' env henv]
        split
        · rename_i heq
          simp [heq]
        · rename_i hne
          exact and_iff_right (Ne.symm hne)
      arrived_lt := fun ch' hch' ↦ h.arrived_lt ch' (List.mem_of_mem_erase hch')
      nodup := h.nodup.erase ch }

/-- A new channel on which an answer is promised. -/
theorem create (h : W.Fits Γ c) (env : Env) (hholds : W.Holds c')
    (hchannels : c'.channels = c.channels.create) :
    Γ.Grows (Function.update Γ c.channels.next (some env)) ∧
      W.Fits (Function.update Γ c.channels.next (some env)) c' := by
  have hlookup (ch : ChannelId) : c'.channels.slots[ch]? =
      if c.channels.next = ch then some (.empty none) else c.channels.slots[ch]? := by
    rw [hchannels]
    exact SortedMap.getElem?_insert_eq ..
  have hnext : c'.channels.next = c.channels.next + 1 := by rw [hchannels]; rfl
  -- Promises were made on older channels only, so none is overwritten.
  have hgrows : Γ.Grows (Function.update Γ c.channels.next (some env)) := by
    intro ch env' henv'
    rw [Function.update_of_ne (Nat.ne_of_lt (h.made ch env' henv')), henv']
  refine ⟨hgrows, hholds, fun ch hch ↦ ?_, fun ch env' henv' ↦ ?_, fun ch s hs ↦ ?_,
    fun ch env' s henv' hs ↦ ?_, fun ch env' henv' ↦ ?_, fun ch hch ↦ ?_, ?_⟩
  · rw [hnext]
    exact Nat.lt_succ_of_lt (h.lost_lt ch hch)
  · rw [hnext]
    by_cases heq : ch = c.channels.next
    · rw [heq]
      exact Nat.lt_succ_self _
    · rw [Function.update_of_ne heq] at henv'
      exact Nat.lt_succ_of_lt (h.made ch env' henv')
  · rw [hlookup] at hs
    rw [hnext]
    split at hs
    · rename_i heq
      exact heq ▸ Nat.lt_succ_self _
    · exact Nat.lt_succ_of_lt (h.lt_next ch s hs)
  · rw [hlookup] at hs
    split at hs
    · exact .inl ⟨_, (Option.some.inj hs).symm⟩
    · rename_i hne
      rw [Function.update_of_ne (Ne.symm hne)] at henv'
      exact h.kept ch env' s henv' hs
  · rw [hlookup, hchannels]
    change ch ∈ c.channels.arrived ↔ _
    split
    · rename_i heq
      constructor
      · intro hch
        exact absurd heq.symm (Nat.ne_of_lt (h.arrived_lt ch hch))
      · rintro ⟨v, hv⟩
        exact nomatch hv
    · rename_i hne
      rw [Function.update_of_ne (Ne.symm hne)] at henv'
      exact h.arrived ch env' henv'
  · rw [hnext]
    rw [hchannels] at hch
    exact Nat.lt_succ_of_lt (h.arrived_lt ch hch)
  · rw [hchannels]
    exact h.nodup

end Fits

/-! ## Progress -/

/-- What a poll of a task does to the state of a run. The channels that it may read are given, and
so is the cost that is left before and after the poll. The jobs are the queries that it sends. -/
structure Advance (W : Family γ) (task : TaskId) (held : ChannelId → Prop) (n : Nat) (Γ : Promises)
    (c : Core γ) (jobs : Multiset Job) (n' : Nat) (Δ : Promises) (c' : Core γ) : Prop where
  grows : Γ.Grows Δ
  fresh : ∀ ch env, Δ ch = some env → Γ ch = some env ∨ c.channels.next ≤ ch
  fits : W.Fits Δ c'
  mail : ∀ ms, c.mail.Carries ms → c'.mail.Carries (jobs.map Job.message + ms)
  owed : ∀ j ∈ jobs, j.Owed W Δ
  tasks : c'.executor.tasks = c.executor.tasks
  spawned : c'.executor.spawned = c.executor.spawned
  ready : ∀ id ∈ c.executor.ready, id ∈ c'.executor.ready
  woken : ∀ id ∈ c'.executor.ready, id ∈ c.executor.ready ∨ id = task
  next : c.channels.next ≤ c'.channels.next
  frame : ∀ ch < c.channels.next, ¬ held ch → c'.channels.slots[ch]? = c.channels.slots[ch]?
  opened : ∀ ch w, c'.channels.slots[ch]? = some (.empty w) →
    c.channels.slots[ch]? = some (.empty w) ∨ w = some task ∧
      ((∃ w', c.channels.slots[ch]? = some (.empty w')) ∨ ∃ j ∈ jobs, j.reply = ch)
  cost : n' + Job.costs jobs ≤ n
  idle : n ≤ n' + Job.costs jobs → jobs = 0 ∧ c'.executor = c.executor

namespace Advance

variable {task : TaskId} {held held' : ChannelId → Prop} {n n' n'' : Nat}
  {jobs jobs' : Multiset Job}

/-- Nothing has happened that anybody else could notice. -/
theorem of_stirs (h : W.Fits Γ c) (hstirs : W.Stirs c c') (hle : n' ≤ n) :
    W.Advance task held n Γ c 0 n' Γ c' where
  grows := .refl Γ
  fresh _ _ := .inl
  fits := h.stirs hstirs
  mail ms hms := by
    rw [hstirs.mail, Multiset.map_zero, zero_add]
    exact hms
  owed j hj := absurd hj (Multiset.notMem_zero j)
  tasks := by rw [hstirs.executor]
  spawned := by rw [hstirs.executor]
  ready := by
    rw [hstirs.executor]
    exact fun _ ↦ id
  woken := by
    rw [hstirs.executor]
    exact fun _ ↦ .inl
  next := le_of_eq (by rw [hstirs.channels])
  frame ch _ _ := by rw [hstirs.channels]
  opened ch w hw := .inl (hstirs.channels ▸ hw)
  cost := hle
  idle _ := ⟨rfl, hstirs.executor⟩

theorem refl (h : W.Fits Γ c) : W.Advance task held n Γ c 0 n Γ c := of_stirs h h.holds.stirs le_rfl

theorem trans (h : W.Advance task held n Γ c jobs n' Δ c')
    (h' : W.Advance task held' n' Δ c' jobs' n'' Θ c'')
    (hheld : ∀ ch, held' ch → held ch ∨ c.channels.next ≤ ch) :
    W.Advance task held n Γ c (jobs + jobs') n'' Θ c'' where
  grows := h.grows.trans h'.grows
  fresh ch env henv := by
    rcases h'.fresh ch env henv with henv | hle
    · exact h.fresh ch env henv
    · exact .inr (h.next.trans hle)
  fits := h'.fits
  mail ms hms := by
    rw [Multiset.map_add, add_comm (jobs.map Job.message), add_assoc]
    exact h'.mail _ (h.mail ms hms)
  owed j hj := by
    rcases Multiset.mem_add.1 hj with hj | hj
    · exact (h.owed j hj).mono h'.grows
    · exact h'.owed j hj
  tasks := h'.tasks.trans h.tasks
  spawned := h'.spawned.trans h.spawned
  ready id hid := h'.ready id (h.ready id hid)
  woken id hid := (h'.woken id hid).elim (h.woken id) .inr
  next := h.next.trans h'.next
  frame ch hch hnot := by
    have hnot' : ¬ held' ch := fun hheld' ↦ (hheld ch hheld').elim hnot hch.not_ge
    rw [h'.frame ch (hch.trans_le h.next) hnot', h.frame ch hch hnot]
  opened ch w hw := by
    -- What is empty in between was empty in the beginning, or was made for a job of the first part.
    have hfirst : ∀ w, c'.channels.slots[ch]? = some (.empty w) →
        (∃ w', c.channels.slots[ch]? = some (.empty w')) ∨ ∃ j ∈ jobs + jobs', j.reply = ch := by
      intro w hw
      rcases h.opened ch w hw with hw | ⟨-, hopen | ⟨j, hj, hreply⟩⟩
      · exact .inl ⟨w, hw⟩
      · exact .inl hopen
      · exact .inr ⟨j, Multiset.mem_add.2 (.inl hj), hreply⟩
    rcases h'.opened ch w hw with hw | ⟨rfl, ⟨w', hw'⟩ | ⟨j, hj, hreply⟩⟩
    · exact (h.opened ch w hw).imp_right fun ⟨heq, _⟩ ↦ ⟨heq, hfirst w hw⟩
    · exact .inr ⟨rfl, hfirst w' hw'⟩
    · exact .inr ⟨rfl, .inr ⟨j, Multiset.mem_add.2 (.inr hj), hreply⟩⟩
  cost := by
    have hcost := h.cost
    have hcost' := h'.cost
    rw [Job.costs_add]
    omega
  idle hle := by
    have hcost := h.cost
    have hcost' := h'.cost
    rw [Job.costs_add] at hle
    -- If nothing is paid in the whole, nothing is paid in either part.
    obtain ⟨hjobs, hexecutor⟩ := h.idle (by omega)
    obtain ⟨hjobs', hexecutor'⟩ := h'.idle (by omega)
    exact ⟨by rw [hjobs, hjobs', add_zero], hexecutor'.trans hexecutor⟩

/-- The channels that the poll may read have changed. -/
theorem of_channels {channels : Channels Parcel} (hfits : W.Fits Γ { c with channels := channels })
    (hnext : channels.next = c.channels.next)
    (hframe : ∀ ch, ¬ held ch → channels.slots[ch]? = c.channels.slots[ch]?)
    (hopened : ∀ (ch : ChannelId) w, channels.slots[ch]? = some (.empty w) →
      c.channels.slots[ch]? = some (.empty w) ∨
        w = some task ∧ ∃ w', c.channels.slots[ch]? = some (.empty w')) (hle : n' ≤ n) :
    W.Advance task held n Γ c 0 n' Γ { c with channels := channels } where
  grows := .refl Γ
  fresh _ _ := .inl
  fits := hfits
  mail ms hms := by
    rw [Multiset.map_zero, zero_add]
    exact hms
  owed j hj := absurd hj (Multiset.notMem_zero j)
  tasks := rfl
  spawned := rfl
  ready _ := id
  woken _ := .inl
  next := hnext.ge
  frame ch _ := hframe ch
  opened ch w hw := (hopened ch w hw).imp_right fun ⟨heq, hopen⟩ ↦ ⟨heq, .inl hopen⟩
  cost := hle
  idle _ := ⟨rfl, rfl⟩

theorem look (h : W.Fits Γ c) {ch : ChannelId} {w : Option TaskId}
    (hslot : c.channels.slots[ch]? = some (.empty w)) (hheld : held ch) (task : TaskId) :
    W.Advance task held n Γ c 0 n Γ { c with channels := { c.channels with
      slots := c.channels.slots.insert ch (.empty (some task)) } } := by
  refine .of_channels (h.look hslot task) rfl (fun ch' hch' ↦ ?_) (fun ch' w' hw' ↦ ?_) le_rfl
  · have hne : ch ≠ ch' := fun heq ↦ hch' (heq ▸ hheld)
    exact (SortedMap.getElem?_insert_eq ..).trans (if_neg hne)
  · obtain ⟨rfl, hempty⟩ | ⟨-, hold⟩ := SortedMap.getElem?_insert_eq_some_iff.1 hw'
    · exact .inr ⟨(ChannelState.empty.inj hempty).symm, w, hslot⟩
    · exact .inl hold

theorem close (h : W.Fits Γ c) {ch : ChannelId} (hheld : held ch) :
    W.Advance task held (n + 1) Γ c 0 n Γ { c with channels := c.channels.close ch } := by
  refine .of_channels (h.close ch) rfl (fun ch' hch' ↦ ?_) (fun ch' w hw ↦ ?_) (Nat.le_succ n)
  · have hne : ch ≠ ch' := fun heq ↦ hch' (heq ▸ hheld)
    exact (SortedMap.getElem?_erase_eq ..).trans (if_neg hne)
  · exact .inl (SortedMap.getElem?_erase_eq_some_iff.1 hw).2

/-- The same among more that remains to be done. -/
theorem add_cost (h : W.Advance task held n Γ c jobs n' Δ c') (k : Nat) :
    W.Advance task held (n + k) Γ c jobs (n' + k) Δ c' :=
  { h with
    cost := by
      have hcost := h.cost
      omega
    idle := fun hle ↦ h.idle (by omega) }

/-- Less may be left to be done. -/
theorem drop (h : W.Advance task held n Γ c jobs n' Δ c') (hle : n'' ≤ n') :
    W.Advance task held n Γ c jobs n'' Δ c' :=
  { h with
    cost := by
      have hcost := h.cost
      omega
    idle := fun hle' ↦ h.idle (by omega) }

/-- A poll that has met some cost may wake its task. -/
theorem wake (h : W.Advance task held n Γ c jobs n' Δ c') (hlt : n' + Job.costs jobs < n) :
    W.Advance task held n Γ c jobs n' Δ (c'.wake task) :=
  { h with
    fits := h.fits.wake task
    tasks := (Executor.tasks_wake ..).trans h.tasks
    spawned := (Executor.spawned_wake ..).trans h.spawned
    ready := fun id hid ↦ Executor.mem_ready_wake.2 (.inl (h.ready id hid))
    woken := fun id hid ↦ (Executor.mem_ready_wake.1 hid).elim (h.woken id) .inr
    idle := fun hle ↦ absurd hlt hle.not_gt }

end Advance

/-! ## Polls -/

/-- What a poll leaves of a process: its result, or a process that waits for an answer on every
channel of its own. -/
def Leaves (W : Family γ) (task : TaskId) (Γ : Promises) (c : Core γ) (n : Nat) (P : α → Prop) :
    Proc.Polled γ α → Prop
  | .done a => P a
  | .pending p => W.Waits Γ n p P ∧ (∃ ch, p.Awaits ch) ∧
      ∀ ch, p.Awaits ch → c.channels.slots[ch]? = some (.empty (some task))

namespace Leaves

variable {task : TaskId} {n m m' : Nat} {P : α → Prop} {q : Proc.Polled γ α}
  {held : ChannelId → Prop} {jobs : Multiset Job}

theorem waits (h : W.Leaves task Γ c n P q) : W.Waits Γ n q.rest P := by
  cases q with
  | done a => exact .done h
  | pending p => exact h.1

theorem exists_awaits (h : W.Leaves task Γ c n P q) (hq : q.isPending = true) :
    ∃ ch, q.rest.Awaits ch := by
  cases q with
  | done a => exact nomatch hq
  | pending p => exact h.2.1

theorem slot (h : W.Leaves task Γ c n P q) {ch : ChannelId} (hch : q.rest.Awaits ch) :
    c.channels.slots[ch]? = some (.empty (some task)) := by
  cases q with
  | done a => exact absurd hch id
  | pending p => exact h.2.2 ch hch

theorem watches (h : W.Leaves task Γ c n P q) : c.Watches task q.rest :=
  fun _ hch ↦ .inl (h.slot hch)

/-- A process for which nothing has arrived waits. -/
theorem of_waits {p : Proc γ α} (h : W.Waits Γ n p P)
    (hslots : ∀ ch, p.Awaits ch → c.channels.slots[ch]? = some (.empty (some task))) :
    W.Leaves task Γ c n P (.ofProc p) := by
  cases h with
  | done h => exact h
  | await hc h => exact ⟨.await hc h, ⟨_, rfl⟩, hslots⟩
  | together hturns hsome hdisjoint k b hparts h =>
    exact ⟨.together hturns hsome hdisjoint k b hparts h, hsome, hslots⟩

/-- What waits is not affected by others. -/
theorem advance (h : W.Leaves task Γ c n P q) (hadvance : W.Advance task held m Γ c jobs m' Δ c')
    (hfits : W.Fits Γ c) (hheld : ∀ ch, q.rest.Awaits ch → ¬ held ch) :
    W.Leaves task Δ c' n P q := by
  cases q with
  | done a => exact h
  | pending p =>
    obtain ⟨hwaits, hsome, hslots⟩ := h
    refine ⟨hwaits.mono hadvance.grows, hsome, fun ch hch ↦ ?_⟩
    have hlt := hfits.lt_next ch _ (hslots ch hch)
    rw [hadvance.frame ch hlt (hheld ch hch), hslots ch hch]

end Leaves

/-- The outcome of the poll of a process in a certain state: the process has delivered, or is going
to. The poll has met some cost if something had arrived. -/
def PollsAt (W : Family γ) (task : TaskId) (Γ : Promises) (c : Core γ) (n : Nat) (p : Proc γ α)
    (P : α → Prop) : Prop :=
  ∃ Δ jobs n', W.Advance task p.Awaits n Γ c jobs n' Δ (p.poll task c).2 ∧
    W.Leaves task Δ (p.poll task c).2 n' P (p.poll task c).1 ∧
    (∀ ch, (p.poll task c).1.rest.Awaits ch → p.Awaits ch ∨ c.channels.next ≤ ch) ∧
    ∀ ch v, p.Awaits ch → c.channels.slots[ch]? = some (.full v) → n' + Job.costs jobs < n

/-- Every poll of a process has such an outcome, once certain promises have been made. -/
def Polls (W : Family γ) (task : TaskId) (Γ : Promises) (n : Nat) (p : Proc γ α) (P : α → Prop) :
    Prop :=
  ∀ Δ c, Γ.Grows Δ → W.Fits Δ c → c.Watches task p → W.PollsAt task Δ c n p P

section

variable {task : TaskId} {n m : Nat} {P : α → Prop} {p q : Proc γ α}

theorem Polls.mono (h : W.Polls task Γ n p P) (hgrows : Γ.Grows Δ) : W.Polls task Δ n p P :=
  fun _ c hgrows' ↦ h _ c (hgrows.trans hgrows')

theorem Polls.done {a : α} (h : P a) : W.Polls task Γ n (.done a) P :=
  fun Δ _ _ hfits _ ↦ ⟨Δ, 0, n, .refl hfits, h, fun _ hch ↦ absurd hch id,
    fun _ _ hch _ ↦ absurd hch id⟩

/-- A poll that gets to another process and goes on with it. -/
theorem Polls.after (h : W.Polls task Γ m q P) (hnot : ∀ ch, ¬ q.Awaits ch) {jobs : Multiset Job}
    (hgrows : Γ.Grows Θ) (hadvance : W.Advance task p.Awaits n Δ c jobs m Θ c')
    (hnews : ∀ ch v, p.Awaits ch → c.channels.slots[ch]? = some (.full v) → m + Job.costs jobs < n)
    (hpoll : p.poll task c = q.poll task c') :
    W.PollsAt task Δ c n p P := by
  obtain ⟨Θ', jobs', n', hadvance', hleaves, hown, -⟩ :=
    h Θ c' hgrows hadvance.fits fun ch hch ↦ absurd hch (hnot ch)
  rw [PollsAt, hpoll]
  refine ⟨Θ', jobs + jobs', n', hadvance.trans hadvance' fun ch hch ↦ absurd hch (hnot ch),
    hleaves, fun ch hch ↦ ?_, fun ch v hch hfull ↦ ?_⟩
  · exact (hown ch hch).elim (fun h ↦ absurd h (hnot ch)) fun h ↦ .inr (hadvance.next.trans h)
  · have hlt := hnews ch v hch hfull
    have hcost := hadvance'.cost
    rw [Job.costs_add]
    omega

/-- A quiet operation goes through at once. -/
theorem Polls.quiet {op : Op γ β} {next : β → Proc γ α} {good : β → Prop} (hop : W.IsQuiet op good)
    (hnext : ∀ b, good b → W.Delivers n (next b) P)
    (h : ∀ b, good b → W.Polls task Γ n (next b) P) :
    W.Polls task Γ (n + 1) (.perform op next) P := by
  intro Δ c hgrows hfits _
  obtain ⟨hgood, hstirs⟩ := hop c hfits.holds
  have hadvance : W.Advance task (Proc.perform op next).Awaits (n + 1) Δ c 0 n Δ (c.perform op).2 :=
    .of_stirs hfits hstirs (Nat.le_succ n)
  exact (h _ hgood).after (hnext _ hgood).not_awaits hgrows hadvance
    (fun _ _ _ _ ↦ Nat.lt_succ_self n) rfl

/-- What a unit does that forwards a path: it sends the query, makes a channel for the answer, and
finds nothing there. -/
theorem Fits.ask (h : W.Fits Γ c) (task : TaskId) {unit : UnitId}
    (hunit : (W.fragment? unit).isSome) {path : Path}
    (howner : (W.fragment? path.target.owner).isSome) (q : QueryParams) {env : Env} {k : Nat}
    (hjob : W.Delivers k
      (Answering.answerQuery W.presented W.setup path.target.owner unit path q).run (Answers env))
    (held : ChannelId → Prop) (n : Nat) :
    ∃ token asked, c.perform (.onUnit unit (.ask (.query path q))) =
        (.ok ⟨token, path.target.owner, c.channels.next⟩, asked) ∧
      asked.channels.slots[c.channels.next]? = some (.empty none) ∧
      W.Advance task held (n + k + 3) Γ c
        {⟨path.target.owner, unit, path, q, c.channels.next, k⟩} (n + 1)
        (Function.update Γ c.channels.next (some env))
        { asked with channels := { asked.channels with
          slots := asked.channels.slots.insert c.channels.next (.empty (some task)) } } := by
  obtain ⟨g, hg⟩ := Option.isSome_iff_exists.1 hunit
  obtain ⟨⟨token, hticket⟩, hholds, hmail, hexecutor, hchannels⟩ :=
    h.holds.ask hg (.query path q) howner fun hlost ↦
      Nat.lt_irrefl _ (h.lost_lt _ hlost)
  obtain ⟨hgrows, hfits⟩ := h.create env hholds hchannels
  have hslot : (c.atUnit unit (.ask (.query path q))).2.channels.slots[c.channels.next]? =
      some (.empty none) := by
    rw [hchannels, Channels.create, SortedMap.getElem?_insert_eq, if_pos rfl]
  refine ⟨token, _, Prod.ext hticket rfl, hslot, ?_⟩
  have hlookup (ch : ChannelId) (hne : c.channels.next ≠ ch) :
      ((c.atUnit unit (.ask (.query path q))).2.channels.slots.insert c.channels.next
        (.empty (some task)))[ch]? = c.channels.slots[ch]? := by
    rw [SortedMap.getElem?_insert_eq, if_neg hne, hchannels, Channels.create,
      SortedMap.getElem?_insert_eq, if_neg hne]
  have hcosts (j : Job) : Job.costs {j} = j.cost + 1 := by
    rw [Job.costs, Multiset.map_singleton, Multiset.sum_singleton]
  refine ⟨hgrows, fun ch env' henv' ↦ ?_, hfits.look hslot task, fun ms hms ↦ ?_, fun j hj ↦ ?_,
    congrArg _ hexecutor, congrArg _ hexecutor, fun id hid ↦ ?_, fun id hid ↦ ?_, ?_,
    fun ch hch _ ↦ hlookup ch (Nat.ne_of_gt hch), fun ch w hw ↦ ?_, ?_, fun hle ↦ ?_⟩
  · by_cases heq : ch = c.channels.next
    · exact .inr heq.ge
    · rw [Function.update_of_ne heq] at henv'
      exact .inl henv'
  · rw [Multiset.map_singleton, Multiset.singleton_add]
    exact hmail ▸ hms.enqueue _ _
  · rw [Multiset.mem_singleton.1 hj]
    exact ⟨howner, env, Function.update_self .., hjob⟩
  · exact hexecutor ▸ hid
  · exact .inl (hexecutor ▸ hid)
  · change _ ≤ (c.atUnit unit (.ask (.query path q))).2.channels.next
    rw [hchannels]
    exact Nat.le_succ _
  · by_cases heq : c.channels.next = ch
    · rw [← heq, SortedMap.getElem?_insert_eq, if_pos rfl] at hw
      exact .inr ⟨(ChannelState.empty.inj (Option.some.inj hw)).symm,
        .inr ⟨_, Multiset.mem_singleton_self _, heq⟩⟩
    · exact .inl (hlookup ch heq ▸ hw)
  · rw [hcosts]
    dsimp only
    omega
  · rw [hcosts] at hle
    dsimp only at hle
    omega

/-- A unit that forwards a path waits for the answer. -/
theorem Polls.ask {k : Nat} {unit : UnitId} {path : Path} {q : QueryParams} {env : Env}
    {next : Except Fault Ticket → Proc γ α} (hunit : (W.fragment? unit).isSome)
    (howner : (W.fragment? path.target.owner).isSome)
    (hjob : W.Delivers k
      (Answering.answerQuery W.presented W.setup path.target.owner unit path q).run (Answers env))
    {rest : Ticket → Option Parcel → Proc γ α} (hnext : ∀ t, next (.ok t) = .await t.reply (rest t))
    (h : ∀ t a, a.env = env → W.Delivers n (rest t (some (.answer (.ok a)))) P) :
    W.Polls task Γ (n + k + 3) (.perform (.onUnit unit (.ask (.query path q))) next) P := by
  intro Δ c _ hfits _
  obtain ⟨token, asked, hperform, hslot, hadvance⟩ :=
    hfits.ask task hunit howner q hjob (fun _ ↦ False) n
  let ticket : Ticket := ⟨token, path.target.owner, c.channels.next⟩
  have hpoll : (Proc.perform (.onUnit unit (.ask (.query path q))) next).poll task c =
      (.pending (.await c.channels.next (rest ticket)), { asked with channels :=
        { asked.channels with
          slots := asked.channels.slots.insert c.channels.next (.empty (some task)) } }) := by
    rw [Proc.poll, hperform]
    dsimp only
    rw [hnext, Proc.poll, Channels.receive, hslot]
  have hcosts : Job.costs {⟨path.target.owner, unit, path, q, c.channels.next, k⟩} = k + 1 := by
    rw [Job.costs, Multiset.map_singleton, Multiset.sum_singleton]
  rw [PollsAt, hpoll]
  refine ⟨_, _, _, hadvance, ⟨.await (Function.update_self ..) (h ticket), ⟨_, rfl⟩, ?_⟩, ?_, ?_⟩
  · rintro ch rfl
    exact (SortedMap.getElem?_insert_eq ..).trans (if_pos rfl)
  · rintro ch rfl
    exact .inr le_rfl
  · intro ch v hch
    exact absurd hch id

/-- A process that waits either still has to wait or reads the answer that was promised. -/
theorem Polls.await {ch : ChannelId} {env : Env} {next : Option Parcel → Proc γ α}
    (hpromise : Γ ch = some env)
    (hnext : ∀ a : QueryAnswer, a.env = env → W.Delivers n (next (some (.answer (.ok a)))) P)
    (h : ∀ a : QueryAnswer, a.env = env →
      W.Polls task Γ n (next (some (.answer (.ok a)))) P) :
    W.Polls task Γ (n + 1) (.await ch next) P := by
  intro Δ c hgrows hfits hwatches
  rcases hwatches ch rfl with hslot | ⟨v, hslot⟩
  · have hpoll : (Proc.await ch next).poll task c = (.pending (.await ch next), { c with
        channels := { c.channels with
          slots := c.channels.slots.insert ch (.empty (some task)) } }) := by
      rw [Proc.poll, Channels.receive, hslot]
    rw [PollsAt, hpoll]
    refine ⟨Δ, 0, n + 1, .look hfits hslot rfl task,
      ⟨.await (hgrows _ _ hpromise) hnext, ⟨ch, rfl⟩, ?_⟩, fun ch' hch' ↦ .inl hch', ?_⟩
    · rintro ch' rfl
      exact (SortedMap.getElem?_insert_eq ..).trans (if_pos rfl)
    · rintro ch' v rfl hfull
      rw [hslot] at hfull
      exact nomatch hfull
  · obtain ⟨w, hw⟩ | ⟨a, henv, hv⟩ := hfits.kept ch env _ (hgrows _ _ hpromise) hslot
    · exact nomatch hw
    · have hpoll : (Proc.await ch next).poll task c =
          (next (some (.answer (.ok a)))).poll task { c with channels := c.channels.close ch } := by
        rw [Proc.poll, Channels.receive, hslot]
        dsimp only
        rw [ChannelState.full.inj hv]
      exact (h a henv).after (hnext a henv).not_awaits hgrows (.close hfits rfl)
        (fun _ _ _ _ ↦ Nat.lt_succ_self n) hpoll

end

end Family

end ScopeGraphs
