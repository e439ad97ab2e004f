import ScopeGraphs.Proofs.Engine.Freshness
import ScopeGraphs.Proofs.Engine.Regularity
import ScopeGraphs.Proofs.Units.Attending

/-!
# Nobody waits in vain

A query that has to wait for a slot of a scope is put on a list of the unit, and goes on when it gets
a signal. Between two steps of the engine nobody is on such a list for a slot that is closed. Whatever
happens next, whoever is taken off the list was on it in a moment in which the slot was closed and was
sent the signal then, except that a unit that is given up drops its list.

The two parts are shown in different ways. That nobody waits for a closed slot is an invariant of runs
(`Core.admits_isAlert`). That whoever is taken off the list was told depends on nothing that happened
before, so it is shown for every single occurrence (`Core.Move.delays`).
-/

namespace ScopeGraphs

variable {γ α : Type}

/-! ## What happens to a list -/

/-- A unit that is about to do something. -/
def Core.turnAt (c : Core γ) (u : UnitNode γ) : Turn γ :=
  ⟨u, .none, c.setup.settings, c.channels, c.nextRequest⟩

namespace Occurrence

/-- In some moment of what happens to a unit somebody waited for a slot that was closed, and the list
was gone through. -/
def Rouses (c : Core γ) (u : UnitNode γ) (d : Delay) : Occurrence γ → Prop
  | acted v op => v = u ∧ (c.turnAt u).Rouses d (c.turnOf u op)
  | handled v m => v = u ∧ (c.turnAt u).Rouses d (c.turnOf u (.handle m))
  | dropped _ | other => False

/-- A unit that has not finished is given up. -/
def GivesUp (u : UnitNode γ) : Occurrence γ → Prop
  | acted v op => v = u ∧ op.GivesUp ∧ u.finished = false
  | handled _ _ | dropped _ | other => False

end Occurrence

namespace Core

/-- If nobody had sent anything to somebody who waits for a slot, a value has been sent now, and the
task that waits for it may go on. The value is a signal, unless the channel is one on which somebody
waits for news of the unit itself. -/
def Notifies (c : Core γ) (u : UnitNode γ) (d : Delay) (c' : Core γ) : Prop :=
  ∀ waker, c.channels.slots[d.reply]? = some (.empty waker) →
    (∃ p, c'.channels.slots[d.reply]? = some (.full p) ∧ (d.reply ∉ u.listeners → p = .signal)) ∧
      ∀ task ∈ waker, task ∈ c'.executor.ready

/-- Units are filed under their ids, and nobody waits for a slot of theirs that is closed. -/
structure IsAlert (c : Core γ) : Prop where
  filed : c.Filed
  alert : ∀ (id : UnitId) (u : UnitNode γ), c.units[id]? = some u → u.IsAlert

variable {c c' : Core γ} {id : UnitId} {u : UnitNode γ}

/-! ## One operation -/

theorem channels_turn (c : Core γ) (u : UnitNode γ) (op : UnitOp γ α) :
    (c.turn u op).2.2.channels = (c.turnOf u op).channels := by
  obtain ⟨executor, hwoken⟩ := exists_foldl_wake
    ({ c with
      units := c.units.insert u.id (c.turnOf u op).unit
      channels := (c.turnOf u op).channels
      nextRequest := (c.turnOf u op).nextRequest } : Core γ) (c.turnOf u op).effects.woken
  exact congrArg Core.channels hwoken

/-- Whoever is woken may go on. -/
theorem mem_ready_turn (c : Core γ) (u : UnitNode γ) (op : UnitOp γ α) {task : TaskId}
    (h : task ∈ (c.turnOf u op).effects.woken) : task ∈ (c.turn u op).2.2.executor.ready := by
  have hwoken (ids : List TaskId) (c : Core γ)
      (h : task ∈ c.executor.ready ∨ task ∈ ids) : task ∈ (ids.foldl wake c).executor.ready := by
    induction ids generalizing c with
    | nil => exact h.resolve_right List.not_mem_nil
    | cons id ids ih =>
      refine ih (c.wake id) ?_
      rw [List.mem_cons] at h
      exact h.elim (fun h ↦ .inl (Executor.mem_ready_wake.2 (.inl h))) fun h ↦
        h.imp_left fun heq ↦ Executor.mem_ready_wake.2 (.inr heq)
  exact hwoken _ _ (.inr h)

theorem notifies_carryOut {op : UnitOp γ α} {d : Delay}
    (h : (c.turnAt u).Rouses d (c.turnOf u op)) : c.Notifies u d (c.carryOut id u op) := by
  intro waker hslot
  have htells : (c.turnAt u).Tells d.reply waker (c.turnOf u op) := h.tells hslot
  obtain ⟨p, hfull, hsignal⟩ := htells.value
  rw [carryOut, channels_applyEffects, executor_applyEffects, channels_turn]
  exact ⟨⟨p, hfull, hsignal⟩, fun task htask ↦ c.mem_ready_turn u op (htells.woken task htask)⟩

/-- What becomes of those who wait for slots of a unit when something happens to it. -/
theorem delays_carryOut (hfiled : c.Filed) (hu : c.units[id]? = some u) (op : UnitOp γ α) :
    ∃ v, (c.carryOut id u op).units[id]? = some v ∧ ∀ d ∈ u.delays, d ∈ v.delays ∨
      ((c.turnAt u).Rouses d (c.turnOf u op) ∧ c.Notifies u d (c.carryOut id u op)) ∨
        op.GivesUp ∧ u.finished = false := by
  refine ⟨_, (carries_carryOut hu (hfiled id u hu) op).changed, fun d hd ↦ ?_⟩
  obtain hkept | hroused | hstuck := op.delays_run (c.turnAt u) hd
  · exact .inl hkept
  · exact .inr (.inl ⟨hroused, notifies_carryOut hroused⟩)
  · exact .inr (.inr hstuck)

namespace IsAlert

theorem other (h : c.IsAlert) (hunits : c'.units = c.units) : c'.IsAlert where
  filed id u hu := h.filed id u (hunits ▸ hu)
  alert id u hu := h.alert id u (hunits ▸ hu)

theorem carryOut (h : c.IsAlert) (hu : c.units[id]? = some u) (op : UnitOp γ α) :
    (c.carryOut id u op).IsAlert := by
  have hcarries := carries_carryOut hu (h.filed id u hu) op
  refine ⟨fun k w hw ↦ ?_, fun k w hw ↦ ?_⟩
  · obtain ⟨rfl, rfl⟩ | ⟨-, hold⟩ | ⟨-, -, -, hid⟩ := hcarries.cases hw
    · exact (op.id_run _).trans (h.filed _ _ hu)
    · exact h.filed k w hold
    · exact hid
  · obtain ⟨rfl, rfl⟩ | ⟨-, hold⟩ | ⟨-, -, hnew, -⟩ := hcarries.cases hw
    · exact op.alert_run (t := c.turnAt u) (h.alert _ _ hu)
    · exact h.alert k w hold
    · obtain ⟨us, hus, hblank⟩ := op.exists_blank (c.turnAt u)
      have hus : (c.turnOf u op).effects.newUnits = us := hus
      exact (hblank w (hus ▸ hnew)).isAlert

end IsAlert

theorem isAlert_start (setup : Setup) (root : UnitId) (code : γ) (previous : Option Report) :
    (start setup root code previous).IsAlert where
  filed := filed_start setup root code previous
  alert id u hu := by
    obtain ⟨-, rfl⟩ := units_start_eq_some_iff.1 hu
    exact (UnitNode.isBlank_new _ _ _ _ _ _).isAlert

/-! ## Runs -/

/-- Whatever happens in runs, nobody waits for a slot that is closed. -/
theorem admits_isAlert : Admits (fun _ _ ↦ True) fun c c' : Core γ ↦ c.IsAlert → c'.IsAlert where
  own _ := trivial
  refl _ h := h
  trans h h' hc := h' (h hc)
  other hunits _ _ _ h := h.other hunits
  acted hu _ h := h.carryOut hu _
  handled {c _ _ m mail} hu _ h :=
    IsAlert.carryOut (c := { c with mail := mail }) (h.other rfl) hu (.handle m)
  missed _ _ h := h.other rfl
  dropped hunits _ _ _ h := h.other hunits

/-- What becomes of those who wait for slots of a unit, whatever happens. -/
theorem Move.delays {o : Occurrence γ} (hmove : Move c o c') (hfiled : c.Filed)
    (hu : c.units[id]? = some u) : ∃ v, c'.units[id]? = some v ∧ ∀ d ∈ u.delays, d ∈ v.delays ∨
      (o.Rouses c u d ∧ c.Notifies u d c') ∨ o.GivesUp u := by
  -- Only the unit that something happens to looks through its list.
  have hothers {c : Core γ} {k : UnitId} {w : UnitNode γ} {α : Type} (hfiled : c.Filed)
      (hw : c.units[k]? = some w) (hne : k ≠ id) (hu : c.units[id]? = some u) (op : UnitOp γ α) :
      (c.carryOut k w op).units[id]? = some u :=
    (carries_carryOut hw (hfiled k w hw) op).kept hne hu
  cases hmove with
  | @acted k w hw _ op _ =>
    by_cases heq : k = id
    · subst heq
      obtain rfl := Option.some.inj (hw.symm.trans hu)
      obtain ⟨v, hv, hdelays⟩ := delays_carryOut hfiled hu op
      exact ⟨v, hv, fun d hd ↦ (hdelays d hd).imp_right fun h ↦
        h.imp (fun h ↦ ⟨⟨rfl, h.1⟩, h.2⟩) fun h ↦ ⟨rfl, h⟩⟩
    · exact ⟨u, hothers hfiled hw heq hu op, fun _ hd ↦ .inl hd⟩
  | @handled k w hw m mail _ =>
    by_cases heq : k = id
    · subst heq
      obtain rfl := Option.some.inj (hw.symm.trans hu)
      obtain ⟨v, hv, hdelays⟩ := delays_carryOut (c := { c with mail := mail }) hfiled hu (.handle m)
      exact ⟨v, hv, fun d hd ↦ (hdelays d hd).imp_right fun h ↦
        h.imp (fun h ↦ ⟨⟨rfl, h.1⟩, h.2⟩) fun h ↦ h.1.elim⟩
    · exact ⟨u, hothers (c := { c with mail := mail }) hfiled hw heq hu (.handle m),
        fun _ hd ↦ .inl hd⟩
  | dropped hunits _ _ | other hunits _ _ => exact ⟨u, hunits ▸ hu, fun _ hd ↦ .inl hd⟩

end Core

/-! ## Between two steps of the engine -/

namespace Engine

open Core (Course Move)

variable {b : Behaviour γ} {setup : Setup} {root : UnitId} {code : γ} {previous : Option Report}
  {e : Engine γ}

theorem Reachable.isAlert (he : e.Reachable b setup root code previous) : e.core.IsAlert :=
  Core.admits_isAlert.reachable (fun _ _ ↦ Proc.uses_of_forall (fun _ ↦ trivial) _) he
    (Core.isAlert_start setup root code previous)

/-- **No query sleeps on a closed label.** In every state between two steps of the engine, whatever
the checkers do, nobody waits for a slot of a unit that is closed. Whatever happens from then on, in
the course of a step or between steps, whoever waits for a slot of a unit goes on waiting, or is taken
off the list in a moment in which the slot is closed and gets the news then, or the unit is given
up. -/
theorem Reachable.rouses_waiters (he : e.Reachable b setup root code previous) :
    (∀ (id : UnitId) (u : UnitNode γ), e.core.units[id]? = some u →
      ∀ d ∈ u.delays, u.isClosed d.scope d.slot = false) ∧
    ∀ (tr : List (Occurrence γ × Core γ)) (o : Occurrence γ) (c c' : Core γ),
      Course e.core tr c → Move c o c' →
        ∀ (id : UnitId) (u : UnitNode γ), c.units[id]? = some u →
          ∃ v, c'.units[id]? = some v ∧ ∀ d ∈ u.delays, d ∈ v.delays ∨
            (o.Rouses c u d ∧ c.Notifies u d c') ∨ o.GivesUp u :=
  ⟨fun id u hu ↦ (he.isAlert.alert id u hu).opened, fun _ _ _ _ hcourse hmove _ _ hu ↦
    hmove.delays (hcourse.filed_last he.isAlert.filed) hu⟩

/-! ### A label that is closed while somebody waits -/

private def dozer : UnitId := ⟨"root"⟩

private def dozySetup : Setup := ⟨.nonIncremental, ["E"], 0⟩

/-- What is waited for. -/
private def snooze : Delay := ⟨⟨dozer, "s-0"⟩, .edge "E", 0⟩

/-- A checker that waits for a label of its own scope to be closed, and never closes it. -/
private def dozyChecker : Behaviour Unit where
  run unit _ _ :=
    .perform (.onUnit unit (.act (.freshScope "s" ["E"] false false))) fun _ ↦
    .perform (.onUnit unit (.awaitClosed snooze.scope snooze.slot)) fun
      | .ok (some channel) => .await channel fun _ ↦ .never
      | _ => .never
  presented _ d := .ok d

private def dozySteps : Nat → Engine Unit
  | 0 => ⟨Core.start dozySetup dozer () none, ∅⟩
  | n + 1 => ((dozySteps n).work dozyChecker).2

private theorem reachable_dozySteps (n : Nat) :
    (dozySteps n).Reachable dozyChecker dozySetup dozer () none := by
  induction n with
  | zero => exact .start
  | succ n ih => exact ih.work

/-- The checker waits. -/
private def dozing : Engine Unit := dozySteps 2

/-- The label has been closed all the same. -/
private def roused : Core Unit := dozing.core.acts dozer (.closeLabel snooze.scope "E")

/-- The task of the checker waits for a channel on which nothing has been sent. -/
private def isAsleep : Option (ChannelState Parcel) → Bool
  | some (.empty (some 0)) => true
  | _ => false

private theorem dozing_spec : dozing.core.units.contains dozer = true ∧
    (dozing.core.resident dozer).delays = [snooze] ∧
    (dozing.core.resident dozer).listeners = [] ∧
    isAsleep dozing.core.channels.slots[snooze.reply]? = true ∧
    (roused.units[dozer]?).map UnitNode.delays = some [] := by
  decide +kernel

/-- The checker waits for a label that is open. When it is closed, the checker is off the list, has got
a signal and may go on. -/
theorem Reachable.rouses_waiters_dozing : dozing.Reachable dozyChecker dozySetup dozer () none ∧
    (dozing.core.resident dozer).delays = [snooze] ∧
    (dozing.core.resident dozer).isClosed snooze.scope snooze.slot = false ∧
    (roused.units[dozer]?).map UnitNode.delays = some [] ∧
    roused.channels.slots[snooze.reply]? = some (.full .signal) ∧ 0 ∈ roused.executor.ready := by
  have hreachable : dozing.Reachable dozyChecker dozySetup dozer () none := reachable_dozySteps 2
  obtain ⟨hexists, hdelays, hlisteners, hasleep, hgone⟩ := dozing_spec
  have hunit : dozing.core.units[dozer]? = some (dozing.core.resident dozer) :=
    Core.resident_eq hexists
  have hwaits : snooze ∈ (dozing.core.resident dozer).delays := by
    rw [hdelays]
    exact List.mem_singleton_self snooze
  have hslot : dozing.core.channels.slots[snooze.reply]? = some (.empty (some 0)) := by
    rw [isAsleep.eq_def] at hasleep
    split at hasleep
    · assumption
    · contradiction
  obtain ⟨hopen, hafter⟩ := hreachable.rouses_waiters
  have hmove : Move dozing.core (.acted (dozing.core.resident dozer)
      (.act (.closeLabel snooze.scope "E"))) roused := .acted hunit _ not_false
  obtain ⟨v, hv, hd⟩ := hafter [] _ _ _ (.nil _) hmove dozer _ hunit
  refine ⟨hreachable, hdelays, hopen dozer _ hunit snooze hwaits, hgone, ?_⟩
  rw [hv, Option.map_some, Option.some.injEq] at hgone
  obtain hkept | ⟨-, hnotifies⟩ | hstuck := hd snooze hwaits
  · rw [hgone] at hkept
    exact absurd hkept List.not_mem_nil
  · obtain ⟨⟨p, hfull, hsignal⟩, hready⟩ := hnotifies _ hslot
    rw [hsignal (by rw [hlisteners]; exact List.not_mem_nil)] at hfull
    exact ⟨hfull, hready 0 rfl⟩
  · exact hstuck.2.1.elim

end Engine

end ScopeGraphs
