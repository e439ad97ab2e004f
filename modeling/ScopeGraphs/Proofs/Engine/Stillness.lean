import ScopeGraphs.Engine.Answering
import ScopeGraphs.Proofs.Sorted
import ScopeGraphs.Proofs.Units.Subsiding

/-!
# Units that have come to rest

Once a unit has decided about reuse and all slots of its scopes are closed, it no longer makes
anybody wait: whoever asks whether it has decided, or whether a slot is closed, goes on at once.
Queries may still come and go, and a unit may finish over them and report to its parent, but its
fragment stays what it is.

A *family* is what stays the same while queries are answered: the fragments of the units, and the
channels on which nobody waits any more. Units may still signal on those, which goes unheard; the
channels of the queries are new.
-/

namespace ScopeGraphs

variable {γ α : Type}

/-- Whether a unit has decided about reuse. -/
def Phase.IsDecided (p : Phase) : Prop := p ≠ .created ∧ p ≠ .started ∧ p ≠ .undecided

/-- A unit that makes nobody wait, and whose signals go unheard. -/
structure UnitNode.Still (u : UnitNode γ) (lost : ChannelId → Prop) : Prop where
  decided : u.phase.IsDecided
  closed : ∀ s slot, s.owner = u.id → u.waits.isOpen s slot = false
  delays : ∀ d ∈ u.delays, lost d.reply
  waiters : ∀ c ∈ u.report.waiters, lost c

/-- What stays the same while queries are answered. -/
structure Family (γ : Type) where
  /-- How checkers present the data of their units. -/
  presented : Presentation γ
  /-- What stays the same during a run anyway. -/
  setup : Setup
  /-- The fragments of the units that exist. -/
  fragment? : UnitId → Option ScopeGraph
  /-- The channels on which nobody waits any more. -/
  lost : ChannelId → Prop

/-- Certain channels are not open. -/
def Channels.Lose (channels : Channels Parcel) (lost : ChannelId → Prop) : Prop :=
  ∀ c, lost c → channels.slots[c]? = none

namespace Turn

variable {t : Turn γ} {lost : ChannelId → Prop}

/-! ## What a unit at rest does -/

/-- Signals on such channels go unheard. -/
theorem tell_eq_self (hchannels : t.channels.Lose lost) {receivers : List ChannelId}
    (hold : ∀ c ∈ receivers, lost c) (p : Parcel) : t.tell receivers p = t := by
  rw [tell]
  induction receivers with
  | nil => rfl
  | cons c cs ih =>
    have hfill : fill (.full p) t c = t := by
      rw [fill, Channels.fill, hchannels c (hold c List.mem_cons_self)]
      simp
    rw [List.foldl_cons, hfill]
    exact ih fun c' hc' ↦ hold c' (List.mem_cons_of_mem _ hc')

/-- The second turn is the first one after some bookkeeping of the unit, which nobody notices apart
from the detector of deadlocks and the parent of the unit. -/
structure Rests (t t' : Turn γ) (lost : ChannelId → Prop) : Prop where
  subsides : t.unit.Subsides t'.unit
  still : t'.unit.Still lost
  channels : t'.channels = t.channels
  woken : t'.effects.woken = t.effects.woken
  newUnits : t'.effects.newUnits = t.effects.newUnits
  messages : t'.effects.messages = t.effects.messages
  tasks : t'.effects.tasks = t.effects.tasks

namespace Rests

variable {t' t'' : Turn γ}

theorem refl (hstill : t.unit.Still lost) : t.Rests t lost :=
  ⟨.refl _, hstill, rfl, rfl, rfl, rfl, rfl⟩

theorem trans (h : t.Rests t' lost) (h' : t'.Rests t'' lost) : t.Rests t'' lost where
  subsides := h.subsides.trans h'.subsides
  still := h'.still
  channels := h'.channels.trans h.channels
  woken := h'.woken.trans h.woken
  newUnits := h'.newUnits.trans h.newUnits
  messages := h'.messages.trans h.messages
  tasks := h'.tasks.trans h.tasks

end Rests

theorem rests_fireDelays (hstill : t.unit.Still lost) (hchannels : t.channels.Lose lost) :
    t.Rests t.fireDelays lost := by
  have hsubsides := (UnitNode.Subsides.refl t.unit).fireDelays
  rw [fireDelays] at hsubsides ⊢
  have hold : ∀ c ∈ (t.unit.delays.filter fun d ↦ t.unit.isClosed d.scope d.slot).map Delay.reply,
      lost c := by
    intro c hc
    obtain ⟨d, hd, rfl⟩ := List.mem_map.1 hc
    exact hstill.delays d (List.mem_filter.1 hd).1
  rw [tell_eq_self (t := t.edit _) hchannels hold] at hsubsides ⊢
  refine ⟨hsubsides, ⟨hstill.decided, hstill.closed, fun d hd ↦ ?_, hstill.waiters⟩,
    rfl, rfl, rfl, rfl, rfl⟩
  exact hstill.delays d (List.mem_filter.1 hd).1

theorem rests_tryFinish (hstill : t.unit.Still lost) (hchannels : t.channels.Lose lost) :
    t.Rests t.tryFinish lost := by
  have hsubsides := (UnitNode.Subsides.refl t.unit).tryFinish
  rw [tryFinish] at hsubsides ⊢
  split at hsubsides
  · rename_i hfinish
    rw [if_pos hfinish]
    dsimp only at hsubsides ⊢
    rw [tell_eq_self (t := t.edit _) hchannels hstill.waiters] at hsubsides ⊢
    have hwaiters : (t.unit.report.settle t.unit.currentReport).waiters = [] := by
      cases t.unit.report <;> rfl
    refine ⟨hsubsides, ⟨⟨by simp [edit], by simp [edit], by simp [edit]⟩, hstill.closed, hstill.delays, fun c hc ↦ ?_⟩,
      rfl, rfl, rfl, rfl, rfl⟩
    change c ∈ (t.unit.report.settle t.unit.currentReport).waiters at hc
    rw [hwaiters] at hc
    exact absurd hc List.not_mem_nil
  · rename_i hfinish
    rw [if_neg hfinish]
    exact .refl hstill

/-- Granting a token lets nobody go on, as nobody waits for the unit. -/
theorem rests_grant (hstill : t.unit.Still lost) (hchannels : t.channels.Lose lost)
    (token : Token) (holder : UnitId) : t.Rests (t.grant token holder) lost := by
  rw [grant]
  split
  · exact .refl hstill
  · rename_i waits hwaits
    extract_lets _ _ granted
    have hsubsides : t.unit.Subsides granted.unit := .remove? hwaits
    have hgranted : t.Rests granted lost := by
      refine ⟨hsubsides, ⟨hstill.decided, fun s slot hown ↦ ?_, hstill.delays, hstill.waiters⟩,
        rfl, rfl, rfl, rfl, rfl⟩
      exact hsubsides.closed (hstill.closed s slot hown)
    have hfired := rests_fireDelays hgranted.still hchannels
    have hfinished := rests_tryFinish hfired.still (hfired.channels ▸ hchannels)
    exact hgranted.trans (hfired.trans hfinished)

theorem rests_subUnitFinished (hstill : t.unit.Still lost) (hchannels : t.channels.Lose lost)
    (r : Report) : t.Rests (t.subUnitFinished r) lost := by
  let noted : Turn γ := t.edit fun u ↦
    { u with subReports := u.subReports.insert r.id.localName r }
  have hnoted : t.Rests noted lost :=
    ⟨(UnitNode.Subsides.refl _).edit (by rfl),
      ⟨hstill.decided, hstill.closed, hstill.delays, hstill.waiters⟩, rfl, rfl, rfl, rfl, rfl⟩
  exact hnoted.trans (rests_tryFinish hnoted.still hchannels)

end Turn

/-- An operation that changes nothing of note in a unit at rest, by what its answer is like. -/
def UnitOp.IsQuiet (op : UnitOp γ α) (id : UnitId) (lost : ChannelId → Prop) (good : α → Prop) :
    Prop :=
  ∀ t : Turn γ, t.unit.id = id → t.unit.Still lost → t.channels.Lose lost →
    good (op.run t).1 ∧ t.Rests (op.run t).2 lost

namespace UnitOp

variable (id : UnitId) (lost : ChannelId → Prop)

theorem isQuiet_endAsking (ticket : Ticket) :
    (endAsking ticket : UnitOp γ PUnit).IsQuiet id lost fun _ ↦ True :=
  fun _ _ hstill hchannels ↦ ⟨trivial, Turn.rests_grant hstill hchannels _ _⟩

theorem isQuiet_subUnitFinished (r : Report) :
    (subUnitFinished r : UnitOp γ PUnit).IsQuiet id lost fun _ ↦ True :=
  fun _ _ hstill hchannels ↦ ⟨trivial, Turn.rests_subUnitFinished hstill hchannels r⟩

/-- Nobody waits for the decision of a unit that has decided. -/
theorem isQuiet_awaitDecided :
    (awaitDecided : UnitOp γ (Option ChannelId)).IsQuiet id lost (· = none) := by
  intro t _ hstill _
  have hrun : t.awaitDecided = (none, t) := by
    obtain ⟨hcreated, hstarted, hundecided⟩ := hstill.decided
    rw [Turn.awaitDecided]
    split
    · exact absurd ‹_› hcreated
    · exact absurd ‹_› hstarted
    · exact absurd ‹_› hundecided
    · rfl
  change t.awaitDecided.1 = none ∧ t.Rests t.awaitDecided.2 lost
  rw [hrun]
  exact ⟨rfl, .refl hstill⟩

/-- Nobody waits for a slot that is closed. -/
theorem isQuiet_awaitClosed {s : Scope} (hown : s.owner = id) (slot : Slot) :
    (awaitClosed s slot : UnitOp γ (Option ChannelId)).IsQuiet id lost (· = none) := by
  intro t hid hstill _
  have hclosed : t.unit.isClosed s slot = true := by
    have howns : t.unit.owns s = true := decide_eq_true (hown.trans hid.symm)
    rw [UnitNode.isClosed, if_pos howns, hstill.closed s slot (hown.trans hid.symm)]
    rfl
  have hrun : t.awaitClosed s slot = (none, t) := by rw [Turn.awaitClosed, if_pos hclosed]
  change (t.awaitClosed s slot).1 = none ∧ t.Rests (t.awaitClosed s slot).2 lost
  rw [hrun]
  exact ⟨rfl, .refl hstill⟩

end UnitOp

/-! ## The units of a run -/

namespace Family

open ScopeGraphs.Core

variable {W : Family γ} {c c' c'' : Core γ} {id : UnitId}

/-- The units of a run are those of the family, at rest. -/
structure Holds (W : Family γ) (c : Core γ) : Prop where
  setup : c.setup = W.setup
  graph : ∀ id, (c.units[id]?).map UnitNode.graph = W.fragment? id
  still : ∀ (id : UnitId) (u : UnitNode γ), c.units[id]? = some u → u.id = id ∧ u.Still W.lost
  channels : c.channels.Lose W.lost

/-- The state has changed in a way that concerns no query. -/
structure Stirs (W : Family γ) (c c' : Core γ) : Prop where
  holds : W.Holds c'
  mail : c'.mail = c.mail
  executor : c'.executor = c.executor
  channels : c'.channels = c.channels

theorem Stirs.trans (h : W.Stirs c c') (h' : W.Stirs c' c'') : W.Stirs c c'' where
  holds := h'.holds
  mail := h'.mail.trans h.mail
  executor := h'.executor.trans h.executor
  channels := h'.channels.trans h.channels

namespace Holds

theorem exists_unit (h : W.Holds c) {g : ScopeGraph} (hid : W.fragment? id = some g) :
    ∃ u, c.units[id]? = some u ∧ u.graph = g :=
  Option.map_eq_some_iff.1 ((h.graph id).trans hid)

theorem stirs (h : W.Holds c) : W.Stirs c c := ⟨h, rfl, rfl, rfl⟩

/-- Changes to other parts of the state. -/
theorem other (h : W.Holds c) {d : Core γ} (hsetup : d.setup = c.setup) (hunits : d.units = c.units)
    (hmail : d.mail = c.mail) (hexecutor : d.executor = c.executor)
    (hchannels : d.channels = c.channels) : W.Stirs c d where
  holds :=
    { setup := hsetup.trans h.setup
      graph := hunits ▸ h.graph
      still := hunits ▸ h.still
      channels := hchannels ▸ h.channels }
  mail := hmail
  executor := hexecutor
  channels := hchannels

/-- A unit of the family may be replaced by one with the same fragment. -/
theorem insert (h : W.Holds c) {u v : UnitNode γ} (hu : c.units[id]? = some u) (hv : v.Still W.lost)
    (hid : v.id = u.id) (hgraph : v.graph = u.graph) {d : Core γ} (hsetup : d.setup = c.setup)
    (hunits : d.units = c.units.insert u.id v) (hchannels : d.channels.Lose W.lost) :
    W.Holds d := by
  obtain ⟨rfl, -⟩ := h.still id u hu
  refine ⟨hsetup.trans h.setup, fun id ↦ ?_, fun id v' hv' ↦ ?_, hchannels⟩
  · rw [hunits, SortedMap.getElem?_insert_eq, ← h.graph id]
    split
    · rename_i heq
      rw [← heq, hu, Option.map_some, Option.map_some, hgraph]
    · rfl
  · rw [hunits, SortedMap.getElem?_insert_eq_some_iff] at hv'
    obtain ⟨heq, rfl⟩ | ⟨-, hv'⟩ := hv'
    · exact ⟨hid.trans heq, hv⟩
    · exact h.still id v' hv'

/-- What an operation on a unit at rest leaves to be done. -/
theorem turn (h : W.Holds c) {u : UnitNode γ} (hu : c.units[id]? = some u) {op : UnitOp γ α}
    {good : α → Prop} (hop : op.IsQuiet id W.lost good) :
    good (c.turn u op).1 ∧ W.Stirs c (c.turn u op).2.2 ∧ (c.turn u op).2.1.newUnits = [] ∧
      (c.turn u op).2.1.messages = [] ∧ (c.turn u op).2.1.tasks = [] := by
  let t : Turn γ := ⟨u, .none, c.setup.settings, c.channels, c.nextRequest⟩
  obtain ⟨hgood, hrests⟩ := hop t (h.still id u hu).1 (h.still id u hu).2 h.channels
  have hwoken : (op.run t).2.effects.woken = [] := hrests.woken
  have hturn : (c.turn u op).2.2 = (op.run t).2.effects.woken.foldl wake
      { c with
        units := c.units.insert u.id (op.run t).2.unit
        channels := (op.run t).2.channels
        nextRequest := (op.run t).2.nextRequest } := rfl
  refine ⟨hgood, ?_, hrests.newUnits, hrests.messages, hrests.tasks⟩
  rw [hturn, hwoken, List.foldl_nil]
  exact ⟨h.insert hu hrests.still hrests.subsides.id hrests.subsides.graph rfl rfl
    (hrests.channels ▸ h.channels), rfl, rfl, hrests.channels⟩

/-- Nothing follows from an operation on a unit at rest but notes on what it waits for. -/
theorem applyEffects (h : W.Holds c) {e : Effects γ} (hunits : e.newUnits = [])
    (hmessages : e.messages = []) (origin : UnitId) : W.Stirs c (c.applyEffects origin e) := by
  rw [Core.applyEffects, hunits, hmessages, List.foldl_nil, List.foldl_nil]
  induction e.waits generalizing c with
  | nil => exact h.stirs
  | cons w ws ih =>
    have hnoted : W.Stirs c (c.noteWait origin w) := by
      cases w <;> exact h.other rfl rfl rfl rfl rfl
    exact hnoted.trans (ih hnoted.holds)

/-- A unit at rest that finishes over a query reports to its parent, which may finish in turn. -/
theorem handReport (h : W.Holds c) (origin : UnitId) (report : Report) (n : Nat) :
    (c.handReport origin report n).1 = [] ∧ W.Stirs c (c.handReport origin report n).2 := by
  induction n generalizing c origin report with
  | zero => exact ⟨rfl, h.stirs⟩
  | succ n ih =>
    rw [Core.handReport]
    split
    · refine ⟨rfl, ?_⟩
      dsimp only
      split
      · exact h.other rfl rfl rfl rfl rfl
      · exact h.stirs
    · rename_i parent _
      split
      · exact ⟨rfl, h.stirs⟩
      · rename_i u hu
        obtain ⟨-, hturn, hunits, hmessages, htasks⟩ :=
          h.turn hu (UnitOp.isQuiet_subUnitFinished parent W.lost report)
        have happlied := hturn.trans (hturn.holds.applyEffects hunits hmessages parent)
        dsimp only
        split
        · exact ⟨htasks, happlied⟩
        · rename_i report' _
          obtain ⟨hnone, hhanded⟩ := ih happlied.holds parent report'
          refine ⟨?_, happlied.trans hhanded⟩
          rw [htasks, hnone, List.append_nil]

/-- An operation on a unit at rest concerns no query. -/
theorem atUnit (h : W.Holds c) {g : ScopeGraph} (hid : W.fragment? id = some g) {op : UnitOp γ α}
    {good : α → Prop} (hop : op.IsQuiet id W.lost good) :
    (∃ a, (c.atUnit id op).1 = .ok a ∧ good a) ∧ W.Stirs c (c.atUnit id op).2 := by
  obtain ⟨u, hu, -⟩ := h.exists_unit hid
  obtain ⟨hgood, hturn, hunits, hmessages, htasks⟩ := h.turn hu hop
  have happlied := hturn.trans (hturn.holds.applyEffects hunits hmessages id)
  rw [Core.atUnit, hu]
  dsimp only
  split
  · rw [htasks]
    exact ⟨⟨_, rfl, hgood⟩, happlied⟩
  · rename_i report _
    obtain ⟨hnone, hhanded⟩ := happlied.holds.handReport id report
      (((c.turn u op).2.2.applyEffects id (c.turn u op).2.1).units.size + 1)
    rw [htasks, hnone]
    exact ⟨⟨_, rfl, hgood⟩, happlied.trans hhanded⟩

/-- A unit that asks another one makes a channel for the answer and sends a message. -/
theorem ask (h : W.Holds c) {g : ScopeGraph} (hid : W.fragment? id = some g) (q : Question)
    (hholder : (W.fragment? q.holder).isSome) (hnext : ¬ W.lost c.channels.next) :
    (∃ token, (c.atUnit id (.ask q)).1 = .ok ⟨token, q.holder, c.channels.next⟩) ∧
      W.Holds (c.atUnit id (.ask q)).2 ∧
      (c.atUnit id (.ask q)).2.mail =
        c.mail.enqueue q.holder (q.message id c.channels.next) ∧
      (c.atUnit id (.ask q)).2.executor = c.executor ∧
      (c.atUnit id (.ask q)).2.channels = c.channels.create := by
  obtain ⟨u, hu, -⟩ := h.exists_unit hid
  obtain ⟨rfl, hstill⟩ := h.still id u hu
  let asking : UnitNode γ := { u with waits := u.waits.add (q.token c.nextRequest) q.holder }
  have hsubsides : u.Subsides asking := by
    let t : Turn γ := ⟨u, .none, c.setup.settings, c.channels, c.nextRequest⟩
    exact (UnitNode.Subsides.refl t.unit).ask q
  have hasking : asking.Still W.lost :=
    ⟨hstill.decided, fun s slot hown ↦ hsubsides.closed (hstill.closed s slot hown), hstill.delays,
      hstill.waiters⟩
  let asked : Core γ :=
    { c with
      units := c.units.insert u.id asking
      channels := c.channels.create
      nextRequest := c.nextRequest + 1
      detector := c.detector.addWait ⟨u.id, q.holder, q.token c.nextRequest⟩ }
  have hresult : c.atUnit u.id (.ask q) =
      (.ok ⟨q.token c.nextRequest, q.holder, c.channels.next⟩,
        asked.post (q.holder, q.message u.id c.channels.next)) := by
    rw [Core.atUnit, hu]
    rfl
  -- The new channel is not one of the lost ones.
  have hchannels : c.channels.create.Lose W.lost := by
    intro ch hch
    have hne : c.channels.next ≠ ch := fun heq ↦ hnext (heq ▸ hch)
    rw [Channels.create, SortedMap.getElem?_insert_eq, if_neg hne]
    exact h.channels ch hch
  have hholds : W.Holds asked := h.insert hu hasking rfl rfl rfl rfl hchannels
  have hexists : asked.units.contains q.holder = true := by
    rw [← hholds.graph, Option.isSome_map] at hholder
    rw [Std.ExtTreeMap.contains_eq_isSome_getElem?, hholder]
  rw [hresult]
  refine ⟨⟨_, rfl⟩, ⟨hholds.setup, hholds.graph, hholds.still, hholds.channels⟩, ?_, rfl, rfl⟩
  change c.mail.send (asked.units.contains q.holder) _ _ = _
  rw [hexists]
  rfl

/-- A query that arrives becomes a task. -/
theorem handle_query (h : W.Holds c) {g : ScopeGraph} (hid : W.fragment? id = some g)
    (sender : UnitId) (path : Path) (q : QueryParams) (reply : ChannelId) :
    W.Holds (c.atUnit id (.handle (.query sender path q reply))).2 ∧
      (c.atUnit id (.handle (.query sender path q reply))).2.mail = c.mail ∧
      (c.atUnit id (.handle (.query sender path q reply))).2.executor =
        c.executor.spawn (.answerQuery id sender path q reply) ∧
      (c.atUnit id (.handle (.query sender path q reply))).2.channels = c.channels := by
  obtain ⟨u, hu, -⟩ := h.exists_unit hid
  obtain ⟨rfl, hstill⟩ := h.still id u hu
  let handled : Core γ := { c with units := c.units.insert u.id u }
  have hresult : (c.atUnit u.id (.handle (.query sender path q reply))).2 =
      handled.spawn (.answerQuery u.id sender path q reply) := by
    rw [Core.atUnit, hu]
    rfl
  have hholds : W.Holds handled := h.insert hu hstill rfl rfl rfl rfl h.channels
  rw [hresult]
  exact ⟨⟨hholds.setup, hholds.graph, hholds.still, hholds.channels⟩, rfl, rfl, rfl⟩

end Holds

end Family

end ScopeGraphs
