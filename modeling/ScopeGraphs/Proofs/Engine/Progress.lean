import Mathlib.Data.Prod.Lex
import Mathlib.Logic.Relation
import ScopeGraphs.Engine.Run
import ScopeGraphs.Proofs.Engine.Crowds
import ScopeGraphs.Proofs.Task.Taking

/-!
# Every query is answered

While the engine of a family at rest works on a query, every unit that was asked has a message in
its mailbox, or a task that answers it. Each step of the engine either hands over a message, or
polls a task that meets some of the cost of what is still to be done, or finds that a task has to
wait. So it works until nothing is left to do.

It does not stop before the query is answered. A task that waits has asked for an answer on a
channel that is younger than the one on which its own answer is awaited; so if nothing can be done,
there is no youngest channel on which an answer is awaited.
-/

namespace ScopeGraphs

variable {γ α β : Type}

/-! ## Tasks that answer -/

/-- A poll of a process with a continuation. -/
theorem Proc.poll_bind (task : TaskId) (p : Proc γ α) (f : α → Proc γ β) (c : Core γ) :
    (p.bind f).poll task c =
      match p.poll task c with
      | (.done a, d) => (f a).poll task d
      | (.pending q, d) => (.pending (q.bind f), d) := by
  induction p generalizing c with
  | done a => rfl
  | perform op next ih =>
    rw [bind, poll, poll]
    exact ih _ f _
  | await ch next ih =>
    rw [bind, poll, poll]
    split
    · rfl
    · exact ih _ f _
  | yield => rfl
  | never => rfl
  | together turns parts next _ ih =>
    rw [bind, poll, poll]
    split
    · exact ih _ f _
    · split
      · exact ih _ f _
      · rfl

/-- How a task ends that answers a query. -/
def sendAnswer (reply : ChannelId) (r : Except Fault QueryAnswer) : Proc γ PUnit :=
  .perform (.answer reply (.answer r)) .done

theorem Job.reply_eq {j j' : Job} (h : (j.task : Task γ) = j'.task) : j.reply = j'.reply :=
  (Task.answerQuery.inj h).2.2.2.2

/-- The engine works on by itself: it handles messages and polls tasks. -/
def Engine.Works (b : Behaviour γ) : Engine γ → Engine γ → Prop :=
  Relation.ReflTransGen fun e e' ↦ e.work b = (true, e')

/-- An answer with a given environment has arrived on a channel. -/
def Engine.Answered (e : Engine γ) (ch : ChannelId) (env : Env) : Prop :=
  ∃ a : QueryAnswer, a.env = env ∧ e.core.channels.slots[ch]? = some (.full (.answer (.ok a)))

/-- Puts back what a poll has left of a task. -/
def Engine.put (e : Engine γ) (id : TaskId) (t : Task γ) :
    Proc.Polled γ PUnit × Core γ → Engine γ
  | (.done _, c) =>
    { core := { c with executor := c.executor.settle id none }
      suspended := e.suspended.erase id }
  | (.pending p, c) =>
    { core := { c with executor := c.executor.settle id (some t) }
      suspended := e.suspended.insert id p }

namespace Core

variable {c : Core γ} {s : ChannelState Parcel} {ch : ChannelId}

/-- An empty channel is filled, and the task that looked into it last is woken. -/
theorem fill_of_empty {w : Option TaskId} (hslot : c.channels.slots[ch]? = some (.empty w)) :
    ∃ executor : Executor (Task γ), c.fill s ch =
        { c with
          channels := { c.channels with
            slots := c.channels.slots.insert ch s
            arrived := c.channels.arrived ++ [ch] }
          executor := executor } ∧
      executor.tasks = c.executor.tasks ∧ executor.spawned = c.executor.spawned ∧
      ∀ x, x ∈ executor.ready ↔ x ∈ c.executor.ready ∨ w = some x := by
  rw [fill, Channels.fill, hslot]
  cases w with
  | none => exact ⟨c.executor, rfl, rfl, rfl, fun x ↦ (or_iff_left (by simp)).symm⟩
  | some id =>
    refine ⟨c.executor.wake id, rfl, c.executor.tasks_wake id, c.executor.spawned_wake id, fun x ↦ ?_⟩
    rw [Executor.mem_ready_wake, Option.some.injEq, eq_comm]

theorem fill_of_not_empty (hslot : ∀ w, c.channels.slots[ch]? ≠ some (.empty w)) :
    c.fill s ch = c := by
  have hfill : c.channels.fill ch s = (none, c.channels) := by
    rw [Channels.fill]
    split
    · exact absurd ‹_› (hslot _)
    · rfl
  rw [fill, hfill]
  rfl

theorem spawned_fill : (c.fill s ch).executor.spawned = c.executor.spawned := by
  by_cases hslot : ∃ w, c.channels.slots[ch]? = some (.empty w)
  · obtain ⟨w, hslot⟩ := hslot
    obtain ⟨executor, hfill, -, hspawned, -⟩ := fill_of_empty (s := s) hslot
    rw [hfill]
    exact hspawned
  · rw [fill_of_not_empty fun w hw ↦ hslot ⟨w, hw⟩]

end Core

namespace Family

variable {W : Family γ} {Γ Δ : Promises} {e e' : Engine γ} {b : Behaviour γ}

/-- A task answers a query by a process that a poll finishes or leaves waiting. It may go on, or
waits for answers on channels of its own, younger than the one on which its own answer is
awaited. -/
structure Pursues (W : Family γ) (Γ : Promises) (reader : ChannelId → Option TaskId) (e : Engine γ)
    (id : TaskId) (j : Job) (p : Proc γ (Except Fault QueryAnswer)) : Prop where
  answer : ∃ env, Γ j.reply = some env ∧ W.Polls id Γ j.cost p (Answers env)
  process : e.suspended[id]? = some (p.bind (sendAnswer j.reply)) ∨
    e.suspended[id]? = none ∧ p = (j.flow W).run
  watches : e.core.Watches id p
  own : ∀ ch, p.Awaits ch → j.reply < ch ∧ reader ch = some id
  promised : ∀ ch, p.Awaits ch → ∃ env, Γ ch = some env
  ready : id ∈ e.core.executor.ready ∨ (∃ ch, p.Awaits ch) ∧
    ∀ ch, p.Awaits ch → e.core.channels.slots[ch]? = some (.empty (some id))

/-- What holds while a query is worked on whose answer is awaited on a given channel, which others
may read. A task that works on queries has a positive cost; the other tasks wait for something else.
An answer may be due that is just being given. -/
structure Busy (W : Family γ) (asked : ChannelId) (due : ChannelId → Prop) (Γ : Promises)
    (reader : ChannelId → Option TaskId) (k : TaskId → Nat) (jobs : Multiset Job) (e : Engine γ) :
    Prop where
  fits : W.Fits Γ e.core
  mail : e.core.mail.Carries (jobs.map Job.message)
  owed : ∀ j ∈ jobs, j.Owed W Γ
  fresh : ∀ id, e.core.executor.spawned ≤ id →
    e.core.executor.tasks[id]? = none ∧ e.suspended[id]? = none
  pursued : ∀ id, 0 < k id → ∃ j p, e.core.executor.tasks[id]? = some j.task ∧
    k id = j.cost + 1 ∧ W.Pursues Γ reader e id j p
  others : ∀ id ∈ e.core.executor.ready, e.core.executor.tasks[id]? ≠ none → 0 < k id
  answered : ∀ ch env w, Γ ch = some env → e.core.channels.slots[ch]? = some (.empty w) → ¬ due ch →
    (∃ j ∈ jobs, j.reply = ch) ∨ ∃ (id : TaskId) (j : Job), 0 < k id ∧
      e.core.executor.tasks[id]? = some j.task ∧ j.reply = ch
  wakers : ∀ ch env id, Γ ch = some env → ch ≠ asked →
    e.core.channels.slots[ch]? = some (.empty (some id)) →
      0 < k id ∨ id < e.core.executor.spawned ∧ e.core.executor.tasks[id]? = none
  asked : (∃ env s, Γ asked = some env ∧ e.core.channels.slots[asked]? = some s) ∧
    reader asked = none

namespace Pursues

variable {reader reader' : ChannelId → Option TaskId} {id : TaskId} {j : Job}
  {p : Proc γ (Except Fault QueryAnswer)}

theorem awaited_lt (h : W.Pursues Γ reader e id j p) (hfits : W.Fits Γ e.core) {ch : ChannelId}
    (hch : p.Awaits ch) : ch < e.core.channels.next := by
  rcases h.watches ch hch with hslot | ⟨v, hslot⟩
  · exact hfits.lt_next ch _ hslot
  · exact hfits.lt_next ch _ hslot

/-- A task is the one that has looked last into an empty channel on which it waits. -/
theorem reads (h : W.Pursues Γ reader e id j p) {ch : ChannelId} (hch : p.Awaits ch)
    {w : Option TaskId} (hslot : e.core.channels.slots[ch]? = some (.empty w)) : w = some id := by
  rcases h.watches ch hch with hempty | ⟨v, hfull⟩
  · rw [hslot] at hempty
    exact ChannelState.empty.inj (Option.some.inj hempty)
  · rw [hslot] at hfull
    exact nomatch hfull

/-- What others do does not affect a task, but its channels may be filled, which wakes it. -/
theorem congr (h : W.Pursues Γ reader e id j p) (hgrows : Γ.Grows Δ)
    (hsuspended : e'.suspended[id]? = e.suspended[id]?)
    (hreader : ∀ ch, p.Awaits ch → reader' ch = reader ch)
    (hready : id ∈ e.core.executor.ready → id ∈ e'.core.executor.ready)
    (hslots : ∀ ch, p.Awaits ch →
      e'.core.channels.slots[ch]? = e.core.channels.slots[ch]? ∨
        id ∈ e'.core.executor.ready ∧ ∃ v, e'.core.channels.slots[ch]? = some (.full v)) :
    W.Pursues Δ reader' e' id j p where
  answer := by
    obtain ⟨env, henv, hpolls⟩ := h.answer
    exact ⟨env, hgrows _ _ henv, hpolls.mono hgrows⟩
  process := hsuspended ▸ h.process
  watches ch hch := by
    rcases hslots ch hch with hslot | ⟨-, hfull⟩
    · rw [hslot]
      exact h.watches ch hch
    · exact .inr hfull
  own ch hch := by
    rw [hreader ch hch]
    exact h.own ch hch
  promised ch hch := by
    obtain ⟨env, henv⟩ := h.promised ch hch
    exact ⟨env, hgrows _ _ henv⟩
  ready := by
    by_cases hid : id ∈ e'.core.executor.ready
    · exact .inl hid
    · obtain ⟨hsome, hempty⟩ := h.ready.resolve_left fun hid' ↦ hid (hready hid')
      refine .inr ⟨hsome, fun ch hch ↦ ?_⟩
      rw [(hslots ch hch).resolve_right fun hfull ↦ hid hfull.1]
      exact hempty ch hch

end Pursues

/-- The new channels are those of the task that has been polled. -/
def adopt (reader : ChannelId → Option TaskId) (next : ChannelId) (id : TaskId) (ch : ChannelId) :
    Option TaskId :=
  if next ≤ ch then some id else reader ch

/-- Polling the task goes on with its process, and then sends the answer. -/
theorem Pursues.pollNext_eq {reader : ChannelId → Option TaskId} {id : TaskId} {j : Job}
    {p : Proc γ (Except Fault QueryAnswer)} (h : W.Pursues Γ reader e id j p)
    (hpresented : W.presented = b.presented) (hsetup : e.core.setup = W.setup)
    {executor : Executor (Task γ)} (htake : e.core.executor.take = (some (id, j.task), executor)) :
    e.pollNext b = (true, e.put id j.task
      ((p.bind (sendAnswer j.reply)).poll id { e.core with executor := executor })) := by
  rcases h.process with hsome | ⟨hnone, rfl⟩
  · simp only [Engine.pollNext, htake, hsome]
    generalize (p.bind (sendAnswer j.reply)).poll id _ = polled
    obtain ⟨q | q, d⟩ := polled
    · rfl
    · rfl
  · have hprocess : Engine.process b e.core.setup j.task =
        (j.flow W).run.bind (sendAnswer j.reply) := by
      rw [hsetup, Job.flow, hpresented]
      rfl
    simp only [Engine.pollNext, htake, hnone, Engine.pollFirst, hprocess]
    generalize ((j.flow W).run.bind (sendAnswer j.reply)).poll id _ = polled
    obtain ⟨q | q, d⟩ := polled
    · rfl
    · rfl

namespace Busy

variable {asked : ChannelId} {due : ChannelId → Prop} {reader : ChannelId → Option TaskId}
  {k : TaskId → Nat} {jobs jobs' : Multiset Job} {id : TaskId} {j : Job}

/-- A task begins to work on a query, or goes on doing so later. -/
theorem pursue (h : W.Busy asked (· = j.reply) Γ reader k jobs e) (hk : k id = 0)
    (hid : e.core.executor.tasks[id]? = none) (hfits : W.Fits Γ e'.core)
    (hmail : e'.core.mail = e.core.mail) (hchannels : e'.core.channels = e.core.channels)
    (htasks : e'.core.executor.tasks = e.core.executor.tasks.insert id j.task)
    (hspawned : e.core.executor.spawned ≤ e'.core.executor.spawned)
    (hlt : id < e'.core.executor.spawned)
    (hready : ∀ x ∈ e.core.executor.ready, x ∈ e'.core.executor.ready)
    (hwoken : ∀ x ∈ e'.core.executor.ready, x ∈ e.core.executor.ready ∨ x = id)
    (hsuspended : ∀ x, x ≠ id → e'.suspended[x]? = e.suspended[x]?)
    {p : Proc γ (Except Fault QueryAnswer)} (hp : W.Pursues Γ reader e' id j p) :
    W.Busy asked (fun _ ↦ False) Γ reader (Function.update k id (j.cost + 1)) jobs e' := by
  have hget (x : TaskId) : e'.core.executor.tasks[x]? =
      if id = x then some j.task else e.core.executor.tasks[x]? := by
    rw [htasks]
    exact SortedMap.getElem?_insert_eq ..
  have hpos : 0 < Function.update k id (j.cost + 1) id := by
    rw [Function.update_self]
    exact Nat.succ_pos _
  -- The other tasks are what they were.
  have hother {x : TaskId} (hx : 0 < k x) : x ≠ id ∧ 0 < Function.update k id (j.cost + 1) x ∧
      e'.core.executor.tasks[x]? = e.core.executor.tasks[x]? := by
    have hne : x ≠ id := by
      rintro rfl
      exact absurd hk (Nat.ne_of_gt hx)
    refine ⟨hne, ?_, ?_⟩
    · rwa [Function.update_of_ne hne]
    · rw [hget, if_neg (Ne.symm hne)]
  exact
    { fits := hfits
      mail := hmail ▸ h.mail
      owed := h.owed
      fresh := fun x hx ↦ by
        have hne : x ≠ id := fun heq ↦ absurd hlt (heq ▸ hx).not_gt
        rw [hget, if_neg (Ne.symm hne), hsuspended x hne]
        exact h.fresh x (hspawned.trans hx)
      pursued := fun x hx ↦ by
        by_cases heq : x = id
        · rw [heq, hget, if_pos rfl, Function.update_self]
          -- This is the task at hand.
          exact ⟨j, p, rfl, rfl, hp⟩
        · rw [Function.update_of_ne heq] at hx ⊢
          obtain ⟨j', p', htask, hcost, hp'⟩ := h.pursued x hx
          rw [hget, if_neg (Ne.symm heq)]
          exact ⟨j', p', htask, hcost, hp'.congr (.refl Γ) (hsuspended x heq) (fun _ _ ↦ rfl)
            (hready x) fun ch _ ↦ .inl (by rw [hchannels])⟩
      others := fun x hx hlive ↦ by
        by_cases heq : x = id
        · exact heq ▸ hpos
        · rw [hget, if_neg (Ne.symm heq)] at hlive
          exact (hother (h.others x ((hwoken x hx).resolve_right heq) hlive)).2.1
      answered := fun ch env w henv hw _ ↦ by
        by_cases heq : ch = j.reply
        -- From now on the task at hand owes the answer on its channel.
        · exact .inr ⟨id, j, hpos, (hget id).trans (if_pos rfl), heq.symm⟩
        · rw [hchannels] at hw
          refine (h.answered ch env w henv hw heq).imp_right ?_
          rintro ⟨x, j', hx, htask, hreply⟩
          obtain ⟨-, hpos', htasks'⟩ := hother hx
          exact ⟨x, j', hpos', htasks'.trans htask, hreply⟩
      wakers := fun ch env x henv hch hx ↦ by
        rw [hchannels] at hx
        rcases h.wakers ch env x henv hch hx with hx | ⟨hx, hdead⟩
        · exact .inl (hother hx).2.1
        · by_cases heq : x = id
          · exact .inl (heq ▸ hpos)
          · exact .inr ⟨hx.trans_le hspawned, by rw [hget, if_neg (Ne.symm heq), hdead]⟩
      asked := hchannels ▸ h.asked }

theorem lt_spawned (h : W.Busy asked due Γ reader k jobs e) {t : Task γ}
    (hid : e.core.executor.tasks[id]? = some t) : id < e.core.executor.spawned := by
  refine Nat.lt_of_not_le fun hle ↦ ?_
  rw [(h.fresh id hle).1] at hid
  exact nomatch hid

/-- No answer is due on a channel where nobody waits for one. -/
theorem not_due (h : W.Busy asked due Γ reader k jobs e)
    (hdue : ∀ ch w, due ch → e.core.channels.slots[ch]? ≠ some (.empty w)) :
    W.Busy asked (fun _ ↦ False) Γ reader k jobs e :=
  { h with
    answered := fun ch env w henv hw _ ↦ h.answered ch env w henv hw fun hch ↦ hdue ch w hch hw }

/-- A task ends. -/
theorem settle (h : W.Busy asked due Γ reader k jobs e) (id : TaskId) :
    W.Busy asked due Γ reader k jobs
      { e with core := { e.core with executor := e.core.executor.settle id none } } :=
  { h with
    fits := h.fits.congr (h.fits.holds.congr rfl rfl h.fits.holds.channels) rfl
    pursued := fun x hx ↦ by
      obtain ⟨j, p, htask, hcost, hp⟩ := h.pursued x hx
      exact ⟨j, p, htask, hcost,
        hp.congr (.refl Γ) rfl (fun _ _ ↦ rfl) (fun hx ↦ hx) fun _ _ ↦ .inl rfl⟩ }

/-- A task gives its answer to somebody else than the one who asked first. -/
theorem answer (h : W.Busy asked (· = j.reply) Γ reader k jobs e) (hne : j.reply ≠ asked)
    {a : QueryAnswer} (ha : Γ j.reply = some a.env) :
    W.Busy asked (fun _ ↦ False) Γ reader k jobs
      { e with core := e.core.fill (.full (.answer (.ok a))) j.reply } := by
  by_cases hslot : ∃ w, e.core.channels.slots[j.reply]? = some (.empty w)
  · obtain ⟨w, hslot⟩ := hslot
    obtain ⟨executor, hfill, htasks, hspawned, hready⟩ :=
      Core.fill_of_empty (s := .full (.answer (.ok a))) hslot
    rw [hfill]
    have hlookup (ch : ChannelId) :
        (e.core.channels.slots.insert j.reply (.full (.answer (.ok a))))[ch]? =
          if j.reply = ch then some (.full (.answer (.ok a))) else e.core.channels.slots[ch]? :=
      SortedMap.getElem?_insert_eq ..
    have hempty {ch : ChannelId} {w : Option TaskId}
        (hw : (e.core.channels.slots.insert j.reply (.full (.answer (.ok a))))[ch]? =
          some (.empty w)) : j.reply ≠ ch ∧ e.core.channels.slots[ch]? = some (.empty w) := by
      rw [hlookup] at hw
      split at hw
      · exact nomatch hw
      · exact ⟨‹_›, hw⟩
    exact
      { fits := h.fits.fill ha hslot executor
        mail := h.mail
        owed := h.owed
        fresh := fun x hx ↦ htasks ▸ h.fresh x (hspawned ▸ hx)
        pursued := fun x hx ↦ by
          obtain ⟨j', p, htask, hcost, hp⟩ := h.pursued x hx
          refine ⟨j', p, htasks ▸ htask, hcost, hp.congr (.refl Γ) rfl (fun _ _ ↦ rfl)
            (fun hx ↦ (hready x).2 (.inl hx)) fun ch hch ↦ ?_⟩
          by_cases heq : j.reply = ch
          · -- The task that waits for this answer is the one that is woken.
            refine .inr ⟨(hready x).2 (.inr ?_), _, (hlookup ch).trans (if_pos heq)⟩
            exact hp.reads hch (heq ▸ hslot)
          · exact .inl ((hlookup ch).trans (if_neg heq))
        others := fun x hx hlive ↦ by
          change executor.tasks[x]? ≠ none at hlive
          rw [htasks] at hlive
          rcases (hready x).1 hx with hx | rfl
          · exact h.others x hx hlive
          · exact (h.wakers _ _ x ha hne hslot).resolve_right fun hdead ↦ hlive hdead.2
        answered := fun ch env w' henv hw _ ↦ by
          obtain ⟨hch, hw⟩ := hempty hw
          exact htasks ▸ h.answered ch env w' henv hw (Ne.symm hch)
        wakers := fun ch env x henv hch hx ↦ by
          obtain ⟨-, hx⟩ := hempty hx
          change 0 < k x ∨ x < executor.spawned ∧ executor.tasks[x]? = none
          rw [hspawned, htasks]
          exact h.wakers ch env x henv hch hx
        asked := by
          obtain ⟨⟨env, s, henv, hs⟩, hreader⟩ := h.asked
          exact ⟨⟨env, s, henv, (hlookup asked).trans ((if_neg hne).trans hs)⟩, hreader⟩ }
  -- Nobody waits there any longer, and the answer is lost.
  · have hslot : ∀ w, e.core.channels.slots[j.reply]? ≠ some (.empty w) := by
      intro w hw
      exact hslot ⟨w, hw⟩
    rw [Core.fill_of_not_empty hslot]
    refine h.not_due ?_
    rintro ch w rfl
    exact hslot w

/-- A task gives its answer to the one who asked first. -/
theorem answered_fill {a : QueryAnswer} {ch : ChannelId}
    (h : W.Busy ch due Γ reader k jobs e) (ha : Γ ch = some a.env) :
    ∃ a' : QueryAnswer, a'.env = a.env ∧
      (e.core.fill (.full (.answer (.ok a))) ch).channels.slots[ch]? =
        some (.full (.answer (.ok a'))) := by
  obtain ⟨⟨env, s, henv, hs⟩, -⟩ := h.asked
  rcases h.fits.kept ch env s henv hs with ⟨w, rfl⟩ | ⟨a', ha', rfl⟩
  · obtain ⟨executor, hfill, -⟩ := Core.fill_of_empty (s := .full (.answer (.ok a))) hs
    rw [hfill]
    exact ⟨a, rfl, (SortedMap.getElem?_insert_eq ..).trans (if_pos rfl)⟩
  · rw [Core.fill_of_not_empty fun w hw ↦ nomatch hs.symm.trans hw]
    exact ⟨a', ha'.trans (Option.some.inj (henv.symm.trans ha)), hs⟩

/-- A task that has been polled has to wait. -/
theorem wait {d : Core γ} (h : W.Busy asked (· = j.reply) Γ reader (Function.update k id 0) jobs
      ⟨d, e.suspended.erase id⟩)
    (hid : d.executor.tasks[id]? = none) (hlt : id < d.executor.spawned) {n : Nat}
    {q : Proc γ (Except Fault QueryAnswer)}
    (hq : W.Pursues Γ reader (e.put id j.task (.pending (q.bind (sendAnswer j.reply)), d)) id
      { j with cost := n } q) :
    W.Busy asked (fun _ ↦ False) Γ reader (Function.update k id (n + 1)) jobs
      (e.put id j.task (.pending (q.bind (sendAnswer j.reply)), d)) := by
  have hsuspended : ∀ x, x ≠ id → (e.suspended.insert id (q.bind (sendAnswer j.reply)))[x]? =
      (e.suspended.erase id)[x]? := by
    intro x hne
    rw [SortedMap.getElem?_insert_eq, SortedMap.getElem?_erase_eq, if_neg (Ne.symm hne),
      if_neg (Ne.symm hne)]
  have hfits : W.Fits Γ (e.put id j.task (.pending (q.bind (sendAnswer j.reply)), d)).core :=
    h.fits.congr (h.fits.holds.congr rfl rfl h.fits.holds.channels) rfl
  have hbusy := pursue (j := { j with cost := n }) h (Function.update_self ..) hid hfits rfl rfl rfl
    le_rfl hlt (fun _ hx ↦ hx) (fun _ ↦ .inl) hsuspended hq
  rwa [Function.update_idem] at hbusy

/-- A task without cost does not work on queries. -/
theorem eq_zero_of_none (h : W.Busy asked due Γ reader k jobs e)
    (hid : e.core.executor.tasks[id]? = none) : k id = 0 := by
  refine Nat.eq_zero_of_not_pos fun hk ↦ ?_
  obtain ⟨j, p, htask, -⟩ := h.pursued id hk
  rw [hid] at htask
  exact nomatch htask

/-- What is still to be done: the cost of everything, the queries that have not been taken up, and
the tasks that may go on. -/
def load (k : TaskId → Nat) (jobs : Multiset Job) (e : Engine γ) : Nat ×ₗ Nat ×ₗ Nat :=
  toLex (∑ id ∈ Finset.range e.core.executor.spawned, k id + Job.costs jobs,
    toLex (jobs.card, e.core.executor.ready.length))

theorem load_update_lt {k : TaskId → Nat} {m : Nat}
    (hspawned : e'.core.executor.spawned = e.core.executor.spawned)
    (hid : id < e.core.executor.spawned) (hle : m + Job.costs jobs ≤ k id)
    (hidle : k id ≤ m + Job.costs jobs → jobs = 0 ∧
      e'.core.executor.ready.length < e.core.executor.ready.length) :
    load (Function.update k id m) jobs e' < load k 0 e := by
  have hmem := Finset.mem_range.2 hid
  have hsum := Finset.sum_eq_add_sum_sdiff_singleton_of_mem hmem k
  have hsum' := Finset.sum_update_of_mem hmem k m
  have hzero : Job.costs 0 = 0 := rfl
  rw [load, load, hspawned, Prod.Lex.toLex_lt_toLex, hsum, hsum', hzero]
  rcases hle.lt_or_eq with hlt | heq
  · left
    dsimp only
    omega
  · obtain ⟨rfl, hlt⟩ := hidle heq.ge
    right
    refine ⟨?_, Prod.Lex.toLex_lt_toLex.2 (.inr ⟨rfl, hlt⟩)⟩
    rw [hzero] at heq
    dsimp only
    omega

/-- A query that is taken up is no longer on its way, but costs one more as a task. -/
theorem load_spawned_lt {k : TaskId → Nat}
    (hspawned : e'.core.executor.spawned = e.core.executor.spawned + 1) :
    load (Function.update k e.core.executor.spawned (j.cost + 1)) jobs e' < load k (j ::ₘ jobs) e := by
  have hsum : ∑ x ∈ Finset.range e.core.executor.spawned,
      Function.update k e.core.executor.spawned (j.cost + 1) x =
        ∑ x ∈ Finset.range e.core.executor.spawned, k x := by
    refine Finset.sum_congr rfl fun x hx ↦ ?_
    rw [Function.update_of_ne (Nat.ne_of_lt (Finset.mem_range.1 hx))]
  have hcosts : Job.costs (j ::ₘ jobs) = j.cost + 1 + Job.costs jobs := by
    rw [Job.costs, Job.costs, Multiset.map_cons, Multiset.sum_cons]
  refine Prod.Lex.toLex_lt_toLex.2 (.inr ⟨?_, Prod.Lex.toLex_lt_toLex.2 (.inl ?_)⟩)
  · dsimp only
    rw [hspawned, Finset.sum_range_succ, Function.update_self, hsum, hcosts, add_assoc]
  · rw [Multiset.card_cons]
    exact Nat.lt_succ_self _

/-- A message has been taken out of its mailbox, and its query is not taken up yet. -/
theorem taken (h : W.Busy asked (fun _ ↦ False) Γ reader k (j ::ₘ jobs) e)
    {mail : Mailboxes Message} (hmail : mail.Carries (jobs.map Job.message)) :
    W.Busy asked (· = j.reply) Γ reader k jobs ⟨{ e.core with mail := mail }, e.suspended⟩ :=
  { h with
    fits := h.fits.congr (h.fits.holds.congr rfl rfl h.fits.holds.channels) rfl
    mail := hmail
    owed := fun j' hj' ↦ h.owed j' (Multiset.mem_cons_of_mem hj')
    pursued := fun x hx ↦ by
      obtain ⟨j', p', htask, hcost, hp'⟩ := h.pursued x hx
      exact ⟨j', p', htask, hcost,
        hp'.congr (.refl Γ) rfl (fun _ _ ↦ rfl) (fun hx ↦ hx) fun _ _ ↦ .inl rfl⟩
    answered := fun ch env w henv hw hdue ↦ by
      refine (h.answered ch env w henv hw not_false).imp_left ?_
      rintro ⟨j', hj', hreply⟩
      rcases Multiset.mem_cons.1 hj' with rfl | hj'
      · exact absurd hreply.symm hdue
      · exact ⟨j', hj', hreply⟩ }

/-- A unit takes up a query: it spawns a task that answers the query. -/
theorem takeUp (h : W.Busy asked (· = j.reply) Γ reader k jobs e) (howed : j.Owed W Γ)
    {d : Core γ} (hd : (e.core.atUnit j.unit (.handle j.message.2)).2 = d) :
    d.executor.spawned = e.core.executor.spawned + 1 ∧ W.Busy asked (fun _ ↦ False) Γ reader
      (Function.update k e.core.executor.spawned (j.cost + 1)) jobs { e with core := d } := by
  obtain ⟨env, henv, hdelivers⟩ := howed.answer
  obtain ⟨g, hg⟩ := Option.isSome_iff_exists.1 howed.unit
  obtain ⟨hholds, hmail, hexecutor, hchannels⟩ :=
    h.fits.holds.handle_query hg j.sender j.path j.params j.reply
  change (e.core.atUnit j.unit (.handle (.query j.sender j.path j.params j.reply))).2 = d at hd
  rw [hd] at hholds hmail hexecutor hchannels
  have hspawned : d.executor.spawned = e.core.executor.spawned + 1 := by
    rw [hexecutor]
    exact Executor.spawned_wake ..
  have htasks : d.executor.tasks = e.core.executor.tasks.insert e.core.executor.spawned j.task := by
    rw [hexecutor]
    exact Executor.tasks_wake ..
  have hready {x : TaskId} : x ∈ d.executor.ready ↔
      x ∈ e.core.executor.ready ∨ x = e.core.executor.spawned := by
    rw [hexecutor]
    exact Executor.mem_ready_wake
  have hnew := h.fresh _ le_rfl
  have hnot (ch : ChannelId) : ¬ (j.flow W).run.Awaits ch := hdelivers.not_awaits ch
  have hpursues : W.Pursues Γ reader { e with core := d } e.core.executor.spawned j
      (j.flow W).run :=
    { answer := ⟨env, henv, hdelivers.polls _ Γ⟩
      process := .inr ⟨hnew.2, rfl⟩
      watches := fun ch hch ↦ absurd hch (hnot ch)
      own := fun ch hch ↦ absurd hch (hnot ch)
      promised := fun ch hch ↦ absurd hch (hnot ch)
      ready := .inl (hready.2 (.inr rfl)) }
  exact ⟨hspawned, h.pursue (h.eq_zero_of_none hnew.1) hnew.1 (h.fits.congr hholds hchannels) hmail
    hchannels htasks (hspawned ▸ Nat.le_succ _) (hspawned ▸ Nat.lt_succ_self _)
    (fun x hx ↦ hready.2 (.inl hx)) (fun x hx ↦ hready.1 hx) (fun _ _ ↦ rfl) hpursues⟩

/-- A message is handled. -/
theorem deliver (h : W.Busy asked (fun _ ↦ False) Γ reader k jobs e) :
    jobs = 0 ∧ e.core.mail.next = none ∨
      ∃ e' k' jobs', e.work b = (true, e') ∧ W.Busy asked (fun _ ↦ False) Γ reader k' jobs' e' ∧
        load k' jobs' e' < load k jobs e := by
  rcases h.mail.next with ⟨hzero, hnone⟩ | ⟨m, mail, ms, hnext, hms, hmail⟩
  · exact .inl ⟨Multiset.map_eq_zero.1 hzero, hnone⟩
  · right
    obtain ⟨j, hj, rfl⟩ := Multiset.mem_map.1 (hms ▸ Multiset.mem_cons_self m ms)
    obtain ⟨jobs', rfl⟩ := Multiset.exists_cons_of_mem hj
    rw [Multiset.map_cons, Multiset.cons_inj_right] at hms
    obtain ⟨hspawned, hbusy⟩ := (h.taken (hms ▸ hmail)).takeUp (h.owed j hj) rfl
    refine ⟨_, _, jobs', ?_, hbusy, load_spawned_lt hspawned⟩
    rw [Engine.work, Core.deliverNext, hnext]
    rfl

/-- If nothing can be done, no answer is awaited: the youngest channel on which one is would be that
of a task that waits on a younger one. -/
theorem not_stuck (h : W.Busy asked (fun _ ↦ False) Γ reader k 0 e)
    (hdead : ∀ id ∈ e.core.executor.ready, e.core.executor.tasks[id]? = none) {ch : ChannelId}
    {env : Env} (henv : Γ ch = some env) (w : Option TaskId) :
    e.core.channels.slots[ch]? ≠ some (.empty w) := by
  intro hw
  induction hn : e.core.channels.next - ch using Nat.strong_induction_on generalizing ch env w with
  | h n ih =>
    rcases h.answered ch env w henv hw not_false with ⟨j, hj, -⟩ | ⟨id, j, hid, htask, rfl⟩
    · exact absurd hj (Multiset.notMem_zero j)
    · obtain ⟨j', p, htask', -, hp⟩ := h.pursued id hid
      rw [htask] at htask'
      have hreply : j.reply = j'.reply := Job.reply_eq (Option.some.inj htask')
      rcases hp.ready with hready | ⟨⟨ch, hch⟩, hempty⟩
      · rw [hdead id hready] at htask
        exact nomatch htask
      · obtain ⟨env', henv'⟩ := hp.promised ch hch
        have hyounger : j.reply < ch := hreply ▸ (hp.own ch hch).1
        have hlt := hyounger.trans (hp.awaited_lt h.fits hch)
        exact ih _ (hn ▸ Nat.sub_lt_sub_left hlt hyounger) henv' _ (hempty ch hch) rfl

end Busy

/-! ## Polling a task -/

/-- A task that works on a query has been taken out of the executor and polled, which has led from
the first of the given states to the second. -/
structure Polling (W : Family γ) (Γ Δ : Promises) (reader : ChannelId → Option TaskId)
    (k : TaskId → Nat) (e : Engine γ) (id : TaskId) (j : Job)
    (p : Proc γ (Except Fault QueryAnswer)) (jobs : Multiset Job) (n : Nat) (c d : Core γ) :
    Prop where
  cost : k id = j.cost + 1
  pursues : W.Pursues Γ reader e id j p
  mail : c.mail = e.core.mail
  channels : c.channels = e.core.channels
  takes : e.core.executor.Takes id j.task c.executor
  advance : W.Advance id p.Awaits j.cost Γ c jobs n Δ d

theorem update_zero_pos_iff {k : TaskId → Nat} {id x : TaskId} :
    0 < Function.update k id 0 x ↔ id ≠ x ∧ 0 < k x := by
  by_cases heq : id = x
  · rw [heq, Function.update_self]
    exact iff_of_false (Nat.lt_irrefl 0) fun h ↦ h.1 rfl
  · rw [Function.update_of_ne (Ne.symm heq)]
    exact (and_iff_right heq).symm

namespace Polling

variable {asked : ChannelId} {reader : ChannelId → Option TaskId} {k : TaskId → Nat}
  {id : TaskId} {j : Job} {p : Proc γ (Except Fault QueryAnswer)} {jobs : Multiset Job} {n : Nat}
  {c d : Core γ}

section

variable (hp : W.Polling Γ Δ reader k e id j p jobs n c d)

include hp

theorem getElem?_tasks (x : TaskId) :
    d.executor.tasks[x]? = if id = x then none else e.core.executor.tasks[x]? := by
  rw [hp.advance.tasks, hp.takes.tasks]
  exact SortedMap.getElem?_erase_eq ..

theorem getElem?_tasks_self : d.executor.tasks[id]? = none := by
  rw [hp.getElem?_tasks, if_pos rfl]

theorem spawned_eq : d.executor.spawned = e.core.executor.spawned :=
  hp.advance.spawned.trans hp.takes.spawned

theorem frame {ch : ChannelId} (hch : ch < e.core.channels.next) (hnot : ¬ p.Awaits ch) :
    d.channels.slots[ch]? = e.core.channels.slots[ch]? := by
  rw [← hp.channels] at hch ⊢
  exact hp.advance.frame ch hch hnot

theorem adopt_of_lt {ch : ChannelId} (hch : ch < e.core.channels.next) :
    adopt reader c.channels.next id ch = reader ch := by
  rw [adopt, hp.channels, if_neg hch.not_ge]

end

variable (hp : W.Polling Γ Δ reader k e id j p jobs n c d)
  (h : W.Busy asked (fun _ ↦ False) Γ reader k 0 e)

include hp h

/-- Promises on channels that are not new are old ones. -/
theorem empty_before {ch : ChannelId} {env : Env} {w : Option TaskId} (henv : Δ ch = some env)
    (hw : c.channels.slots[ch]? = some (.empty w)) :
    Γ ch = some env ∧ e.core.channels.slots[ch]? = some (.empty w) := by
  rw [hp.channels] at hw
  refine ⟨(hp.advance.fresh ch env henv).resolve_right fun hle ↦ ?_, hw⟩
  rw [hp.channels] at hle
  exact absurd (h.fits.lt_next ch _ hw) hle.not_gt

theorem fresh {x : TaskId} (hx : d.executor.spawned ≤ x) :
    d.executor.tasks[x]? = none ∧ (e.suspended.erase id)[x]? = none := by
  rw [hp.spawned_eq] at hx
  have hne : id ≠ x := Nat.ne_of_lt ((h.lt_spawned hp.takes.task).trans_le hx)
  rw [hp.getElem?_tasks, SortedMap.getElem?_erase_eq, if_neg hne, if_neg hne]
  exact h.fresh x hx

theorem pursued {x : TaskId} (hx : 0 < Function.update k id 0 x) :
    ∃ j' p', d.executor.tasks[x]? = some (Job.task j') ∧ Function.update k id 0 x = j'.cost + 1 ∧
      W.Pursues Δ (adopt reader c.channels.next id) ⟨d, e.suspended.erase id⟩ x j' p' := by
  obtain ⟨hne, hpos⟩ := update_zero_pos_iff.1 hx
  obtain ⟨j', p', htask, hcost, hp'⟩ := h.pursued x hpos
  have hlive : e.core.executor.tasks[x]? ≠ none := by
    rw [htask]
    exact Option.some_ne_none _
  -- A channel has one reader, so the task that was polled awaits nothing that this one does.
  have hnot {ch : ChannelId} (hch : p'.Awaits ch) : ¬ p.Awaits ch := by
    intro hch'
    have hreader := (hp'.own ch hch).2
    rw [(hp.pursues.own ch hch').2] at hreader
    exact hne (Option.some.inj hreader)
  rw [Function.update_of_ne (Ne.symm hne), hp.getElem?_tasks, if_neg hne]
  refine ⟨j', p', htask, hcost, hp'.congr hp.advance.grows ?_ (fun ch hch ↦ ?_) (fun hx ↦ ?_)
    fun ch hch ↦ .inl ?_⟩
  · rw [SortedMap.getElem?_erase_eq, if_neg hne]
  · exact hp.adopt_of_lt (hp'.awaited_lt h.fits hch)
  · exact hp.advance.ready x ((hp.takes.kept x hx hlive).resolve_left (Ne.symm hne))
  · exact hp.frame (hp'.awaited_lt h.fits hch) (hnot hch)

theorem others {x : TaskId} (hx : x ∈ d.executor.ready) (hlive : d.executor.tasks[x]? ≠ none) :
    0 < Function.update k id 0 x := by
  rw [hp.getElem?_tasks] at hlive
  split at hlive
  · exact absurd rfl hlive
  · rename_i hne
    have hold := (hp.advance.woken x hx).resolve_right (Ne.symm hne)
    exact update_zero_pos_iff.2 ⟨hne, h.others x (hp.takes.rest x hold) hlive⟩

theorem answered {ch : ChannelId} {env : Env} {w : Option TaskId} (henv : Δ ch = some env)
    (hw : d.channels.slots[ch]? = some (.empty w)) (hdue : ¬ ch = j.reply) :
    (∃ j ∈ jobs, j.reply = ch) ∨ ∃ (x : TaskId) (j : Job), 0 < Function.update k id 0 x ∧
      d.executor.tasks[x]? = some j.task ∧ j.reply = ch := by
  have hopen (w : Option TaskId) (hw : c.channels.slots[ch]? = some (.empty w)) :
      ∃ (x : TaskId) (j : Job), 0 < Function.update k id 0 x ∧
        d.executor.tasks[x]? = some j.task ∧ j.reply = ch := by
    obtain ⟨henv, hw⟩ := hp.empty_before h henv hw
    obtain ⟨j', hj', -⟩ | ⟨x, j', hx, htask, hreply⟩ := h.answered ch env w henv hw not_false
    · exact absurd hj' (Multiset.notMem_zero j')
    · have hne : id ≠ x := by
        rintro rfl
        rw [hp.takes.task] at htask
        exact hdue (hreply.symm.trans (Job.reply_eq (Option.some.inj htask)).symm)
      exact ⟨x, j', update_zero_pos_iff.2 ⟨hne, hx⟩, by rw [hp.getElem?_tasks, if_neg hne, htask],
        hreply⟩
  rcases hp.advance.opened ch w hw with hw | ⟨-, ⟨w', hw'⟩ | hjob⟩
  · exact .inr (hopen w hw)
  · exact .inr (hopen w' hw')
  · exact .inl hjob

theorem wakers {ch : ChannelId} {env : Env} {x : TaskId} (henv : Δ ch = some env) (hch : ch ≠ asked)
    (hx : d.channels.slots[ch]? = some (.empty (some x))) :
    0 < Function.update k id 0 x ∨ x < d.executor.spawned ∧ d.executor.tasks[x]? = none := by
  rw [hp.spawned_eq]
  by_cases heq : id = x
  · exact .inr (heq ▸ ⟨h.lt_spawned hp.takes.task, hp.getElem?_tasks_self⟩)
  · rw [update_zero_pos_iff, hp.getElem?_tasks, if_neg heq, and_iff_right heq]
    obtain hx | ⟨hself, -⟩ := hp.advance.opened ch (some x) hx
    · obtain ⟨henv, hx⟩ := hp.empty_before h henv hx
      exact h.wakers ch env x henv hch hx
    · exact absurd (Option.some.inj hself).symm heq

theorem asked_kept : (∃ env s, Δ asked = some env ∧ d.channels.slots[asked]? = some s) ∧
    adopt reader c.channels.next id asked = none := by
  obtain ⟨⟨env, s, henv, hs⟩, hreader⟩ := h.asked
  have hasked := h.fits.lt_next asked s hs
  have hnot : ¬ p.Awaits asked := by
    intro hch
    rw [(hp.pursues.own asked hch).2] at hreader
    exact nomatch hreader
  refine ⟨⟨env, s, hp.advance.grows _ _ henv, ?_⟩, ?_⟩
  · rw [hp.frame hasked hnot, hs]
  · rw [hp.adopt_of_lt hasked, hreader]

/-- A task has been polled, and is not put back yet. -/
theorem busy : W.Busy asked (· = j.reply) Δ (adopt reader c.channels.next id)
    (Function.update k id 0) jobs ⟨d, e.suspended.erase id⟩ where
  fits := hp.advance.fits
  mail := by
    rw [← add_zero (jobs.map Job.message)]
    exact hp.advance.mail 0 (hp.mail ▸ h.mail)
  owed := hp.advance.owed
  fresh _ hx := hp.fresh h hx
  pursued _ hx := hp.pursued h hx
  others _ hx hlive := hp.others h hx hlive
  answered _ _ _ henv hw hdue := hp.answered h henv hw hdue
  wakers _ _ _ henv hch hx := hp.wakers h henv hch hx
  asked := hp.asked_kept h

/-- A task that has found its answer sends it. -/
theorem finishes {a : QueryAnswer} (ha : Γ j.reply = some a.env) {env : Env}
    (henv : Γ asked = some env) {e' : Engine γ}
    (he' : e' = e.put id j.task (.done ⟨⟩, d.fill (.full (.answer (.ok a))) j.reply)) :
    e'.Answered asked env ∨ ∃ reader' k', W.Busy asked (fun _ ↦ False) Δ reader' k' jobs e' ∧
      Busy.load k' jobs e' < Busy.load k 0 e := by
  have hpolled := hp.busy h
  have hsent := hp.advance.grows _ _ ha
  subst he'
  by_cases hreply : j.reply = asked
  · left
    rw [hreply] at ha hsent ⊢
    obtain rfl := Option.some.inj (ha.symm.trans henv)
    exact hpolled.answered_fill hsent
  · refine .inr ⟨_, _, (hpolled.answer hreply hsent).settle id, ?_⟩
    have hcost := hp.cost
    have hcosts := hp.advance.cost
    exact Busy.load_update_lt (Core.spawned_fill.trans hp.spawned_eq) (h.lt_spawned hp.takes.task)
      (by omega) fun hidle ↦ absurd hidle (by omega)

/-- A task that has to wait is put back. -/
theorem waits {q : Proc γ (Except Fault QueryAnswer)} {env : Env} (henv : Γ j.reply = some env)
    (hleaves : W.Leaves id Δ d n (Answers env) (.pending q))
    (hown : ∀ ch, q.Awaits ch → p.Awaits ch ∨ c.channels.next ≤ ch) {e' : Engine γ}
    (he' : e' = e.put id j.task (.pending (q.bind (sendAnswer j.reply)), d)) :
    ∃ reader' k', W.Busy asked (fun _ ↦ False) Δ reader' k' jobs e' ∧
      Busy.load k' jobs e' < Busy.load k 0 e := by
  subst he'
  have hpursues : W.Pursues Δ (adopt reader c.channels.next id)
      (e.put id j.task (.pending (q.bind (sendAnswer j.reply)), d)) id { j with cost := n } q :=
    { answer := ⟨env, hp.advance.grows _ _ henv, hleaves.1.polls id⟩
      process := .inl ((SortedMap.getElem?_insert_eq ..).trans (if_pos rfl))
      watches := hleaves.watches
      own := fun ch hch ↦ by
        rcases hown ch hch with hch | hle
        · obtain ⟨hyounger, hreader⟩ := hp.pursues.own ch hch
          exact ⟨hyounger, (hp.adopt_of_lt (hp.pursues.awaited_lt h.fits hch)).trans hreader⟩
        · exact ⟨(h.fits.made _ _ henv).trans_le (hp.channels ▸ hle), if_pos hle⟩
      promised := fun ch ↦ hleaves.1.promised
      ready := .inr hleaves.2 }
  have hlt := h.lt_spawned hp.takes.task
  refine ⟨_, _, (hp.busy h).wait hp.getElem?_tasks_self (hp.spawned_eq ▸ hlt) hpursues, ?_⟩
  have hcost := hp.cost
  have hcosts := hp.advance.cost
  refine Busy.load_update_lt hp.spawned_eq hlt (by omega) fun hidle ↦ ?_
  obtain ⟨hjobs, hexecutor⟩ := hp.advance.idle (by omega)
  refine ⟨hjobs, ?_⟩
  change d.executor.ready.length < _
  rw [hexecutor]
  exact hp.takes.shorter

end Polling

namespace Busy

variable {asked : ChannelId} {due : ChannelId → Prop} {reader : ChannelId → Option TaskId}
  {k : TaskId → Nat} {jobs : Multiset Job} {id : TaskId} {j : Job}

/-- A task that has been taken out is polled: it meets some of its cost, or has to wait. -/
theorem pollTask (h : W.Busy asked (fun _ ↦ False) Γ reader k 0 e)
    (hpresented : W.presented = b.presented) {env : Env} (henv : Γ asked = some env) {t : Task γ}
    {executor : Executor (Task γ)} (htake : e.core.executor.take = (some (id, t), executor))
    (htakes : e.core.executor.Takes id t executor) :
    ∃ e', e.pollNext b = (true, e') ∧ (e'.Answered asked env ∨
      ∃ Δ reader' k' jobs', Γ.Grows Δ ∧ W.Busy asked (fun _ ↦ False) Δ reader' k' jobs' e' ∧
        load k' jobs' e' < load k 0 e) := by
  have hlive : e.core.executor.tasks[id]? ≠ none := by
    rw [htakes.task]
    exact Option.some_ne_none t
  obtain ⟨j, p, htask, hcost, hp⟩ := h.pursued id (h.others id htakes.mem hlive)
  obtain rfl := Option.some.inj (htakes.task.symm.trans htask)
  obtain ⟨env', henv', hpolls⟩ := hp.answer
  let taken : Core γ := { e.core with executor := executor }
  have htaken : W.Fits Γ taken := h.fits.congr (h.fits.holds.congr rfl rfl h.fits.holds.channels) rfl
  obtain ⟨Δ, jobs, n, hadvance, hleaves, hown, -⟩ := hpolls Γ taken (.refl Γ) htaken hp.watches
  have hpolling : W.Polling Γ Δ reader k e id j p jobs n taken (p.poll id taken).2 :=
    ⟨hcost, hp, rfl, rfl, htakes, hadvance⟩
  rw [hp.pollNext_eq hpresented h.fits.holds.setup htake, Proc.poll_bind]
  generalize p.poll id taken = polled at hleaves hown hpolling ⊢
  obtain ⟨r | q, d⟩ := polled
  · obtain ⟨a, rfl, rfl⟩ := hleaves
    refine ⟨_, rfl, (hpolling.finishes h henv' henv rfl).imp_right ?_⟩
    rintro ⟨reader', k', hbusy, hlt⟩
    exact ⟨Δ, reader', k', jobs, hadvance.grows, hbusy, hlt⟩
  · obtain ⟨reader', k', hbusy, hlt⟩ := hpolling.waits h henv' hleaves hown rfl
    exact ⟨_, rfl, .inr ⟨Δ, reader', k', jobs, hadvance.grows, hbusy, hlt⟩⟩

/-- If there are no messages, the answer has arrived or some task may go on. -/
theorem poll (h : W.Busy asked (fun _ ↦ False) Γ reader k 0 e) (hpresented : W.presented = b.presented)
    (hnone : e.core.mail.next = none) {env : Env} (henv : Γ asked = some env) :
    e.Answered asked env ∨ ∃ e', e.work b = (true, e') ∧ (e'.Answered asked env ∨
      ∃ Δ reader' k' jobs', Γ.Grows Δ ∧ W.Busy asked (fun _ ↦ False) Δ reader' k' jobs' e' ∧
        load k' jobs' e' < load k 0 e) := by
  have hwork : e.work b = e.pollNext b := by
    rw [Engine.work, Core.deliverNext, hnone]
  rcases e.core.executor.take_cases with hdead | ⟨id, t, executor, htake, htakes⟩
  · left
    obtain ⟨⟨env', s, henv', hs⟩, -⟩ := h.asked
    rcases h.fits.kept asked env s henv hs with ⟨w, rfl⟩ | ⟨a, ha, rfl⟩
    · exact absurd hs (h.not_stuck hdead henv w)
    · exact ⟨a, ha, hs⟩
  · rw [hwork]
    exact .inr (h.pollTask hpresented henv htake htakes)

/-- **The engine answers.** It works until the answer that was promised has arrived. -/
theorem exists_answered (h : W.Busy asked (fun _ ↦ False) Γ reader k jobs e)
    (hpresented : W.presented = b.presented) {env : Env} (henv : Γ asked = some env) :
    ∃ e', e.Works b e' ∧ e'.Answered asked env := by
  induction hload : load k jobs e using WellFoundedLT.induction generalizing Γ reader k jobs e with
  | ind n ih =>
    rcases h.deliver (b := b) with ⟨rfl, hnone⟩ | ⟨e₁, k', jobs', hwork, hbusy, hlt⟩
    · rcases h.poll hpresented hnone henv with
        hdone | ⟨e₁, hwork, hdone | ⟨Δ, reader', k', jobs', hgrows, hbusy, hlt⟩⟩
      · exact ⟨e, .refl, hdone⟩
      · exact ⟨e₁, .single hwork, hdone⟩
      · obtain ⟨e₂, hworks, hdone⟩ := ih _ (hload ▸ hlt) hbusy (hgrows _ _ henv) rfl
        exact ⟨e₂, .head hwork hworks, hdone⟩
    · obtain ⟨e₂, hworks, hdone⟩ := ih _ (hload ▸ hlt) hbusy henv rfl
      exact ⟨e₂, .head hwork hworks, hdone⟩

end Busy

end Family

end ScopeGraphs
