import ScopeGraphs.Proofs.Units.Abating
import ScopeGraphs.Proofs.Units.Numbering

/-!
# What a refused operation leaves behind

An operation of a checker looks before it acts: as soon as it changes anything but the number of the
next request, it cannot be refused any more. There is one exception. Adding an edge commits the unit
before it is known whether the edge can be added, so a unit that has not committed itself runs
afterwards even if the edge is refused (`Action.attempt_of_refused`).

A unit that is made to run keeps everything that its checker has done so far: scopes, counters,
graphs, what it keeps open on scopes of others, sub-units, and all it waits for but its activation
(`Turn.keepsWork_eagerStart`).
-/

namespace ScopeGraphs

variable {γ α β : Type}

/-! ## Attempts that are refused -/

namespace Attempt

/-- If an attempt is refused on a turn, then what it makes of the turn has a property. -/
def Refuses (P : Turn γ → Prop) (x : Attempt γ α) (t : Turn γ) : Prop :=
  ∀ fault, (x t).1 = .error fault → P (x t).2

variable {P : Turn γ → Prop} {t : Turn γ}

theorem refuses_of_ok {x : Attempt γ α} {a : α} (h : (x t).1 = .ok a) : x.Refuses P t := by
  intro fault hfault
  rw [h] at hfault
  cases hfault

theorem refuses_unit {f : UnitNode γ → Attempt γ α} (h : (f t.unit).Refuses P t) :
    (unit >>= f).Refuses P t := by
  rwa [Refuses, unit_bind]

theorem refuses_get {f : Turn γ → Attempt γ α} (h : (f t).Refuses P t) :
    Refuses P (get >>= f) t := by
  rwa [Refuses, get_bind]

theorem refuses_change {g : Turn γ → Turn γ} {f : PUnit → Attempt γ α}
    (h : (f ⟨⟩).Refuses P (g t)) : (change g >>= f).Refuses P t := by
  rwa [Refuses, change_bind]

theorem refuses_newRequest {f : Nat → Attempt γ α}
    (h : (f t.nextRequest).Refuses P t.newRequest.2) :
    Refuses P (modifyGet Turn.newRequest >>= f) t := by
  rwa [Refuses, bind_apply]

theorem refuses_require {ok : Bool} {e : Fault} {f : PUnit → Attempt γ α} (ht : P t)
    (h : (f ⟨⟩).Refuses P t) : (require ok e >>= f).Refuses P t := by
  rw [Refuses, require_bind]
  split
  · exact h
  · exact fun _ _ ↦ ht

theorem refuses_requireLive {f : PUnit → Attempt γ α} (ht : P t) (h : (f ⟨⟩).Refuses P t) :
    (requireLive >>= f).Refuses P t := by
  rw [Refuses, requireLive_bind]
  split
  · exact h
  · exact fun _ _ ↦ ht

theorem refuses_requireKnown {s : Scope} {f : PUnit → Attempt γ α} (ht : P t)
    (h : (f ⟨⟩).Refuses P t) : (requireKnown s >>= f).Refuses P t := by
  rw [Refuses, requireKnown_bind]
  split
  · exact h
  · exact fun _ _ ↦ ht

theorem refuses_commit {f : PUnit → Attempt γ α} (ht : P t)
    (h : t.unit.phase ≠ .undecided → (f ⟨⟩).Refuses P t.eagerStart) :
    (commit >>= f).Refuses P t := by
  rw [Refuses, commit_bind]
  split
  · exact fun _ _ ↦ ht
  · rename_i hphase
    exact h hphase

/-! ### The operations -/

theorem refuses_freshScope (ht : P t) (base : String) (labels : List Label)
    (hasDatum sharing : Bool) : (freshScope base labels hasDatum sharing).Refuses P t := by
  rw [freshScope_eq]
  refine refuses_requireLive ht ?_
  split
  · exact refuses_of_ok (create_spec t base labels hasDatum sharing).1
  · exact refuses_commit ht fun _ ↦
      refuses_of_ok (create_spec t.eagerStart base labels hasDatum sharing).1

theorem refuses_initScope (ht : P t) (s : Scope) (labels : List Label) (sharing : Bool) :
    (initScope s labels sharing).Refuses P t := by
  refine refuses_requireLive ht (refuses_unit ?_)
  split <;> exact refuses_of_ok rfl

theorem refuses_shareScope (ht : P t) (s : Scope) : (shareScope s).Refuses P t := by
  refine refuses_requireLive ht (refuses_unit ?_)
  split <;> exact refuses_of_ok rfl

theorem refuses_setDatum (ht : P t) (s : Scope) (d : Datum) : (setDatum s d).Refuses P t := by
  refine refuses_requireLive ht (refuses_unit (refuses_require ht ?_))
  exact refuses_requireKnown ht (refuses_require ht (refuses_of_ok rfl))

/-- An edge is refused before the unit is committed, or else right after it. -/
theorem refuses_addEdge (ht : P t) (hstarted : P t.eagerStart) (e : Edge) :
    (addEdge e).Refuses P t := by
  refine refuses_requireLive ht (refuses_commit ht fun _ ↦ refuses_unit ?_)
  split
  · exact refuses_requireKnown hstarted (refuses_require hstarted (refuses_of_ok rfl))
  · exact refuses_require hstarted (refuses_of_ok rfl)

theorem refuses_closeLabel (ht : P t) (s : Scope) (l : Label) : (closeLabel s l).Refuses P t := by
  refine refuses_requireLive ht (refuses_unit ?_)
  split
  · exact refuses_of_ok rfl
  · split <;> exact refuses_of_ok rfl

theorem refuses_closeScope (ht : P t) (s : Scope) : (closeScope s).Refuses P t := by
  refine refuses_requireLive ht (refuses_unit ?_)
  split <;> exact refuses_of_ok rfl

/-- A query takes its number before anything else. -/
theorem refuses_beginQuery (ht : P t.newRequest.2) (path : Path) :
    (beginQuery path).Refuses P t := by
  refine refuses_newRequest (refuses_requireLive ht (refuses_commit ht fun _ ↦ refuses_unit ?_))
  exact refuses_change (refuses_of_ok rfl)

theorem refuses_addSubUnit (ht : P t) (name : String) (kind : UnitKind γ) (roots : List Scope)
    (changed : Bool) : (addSubUnit name kind roots changed).Refuses P t := by
  refine refuses_requireLive ht ?_
  intro fault hfault
  change (t.addSubUnit name kind roots changed).1 = _ at hfault
  change P (t.addSubUnit name kind roots changed).2
  unfold Turn.addSubUnit at hfault ⊢
  dsimp only at hfault ⊢
  split
  · exact ht
  · split
    · exact ht
    · rename_i hfree hmatch
      rw [if_neg hfree, if_neg hmatch] at hfault
      cases hfault

theorem refuses_askForReuse (ht : P t) : (askForReuse : Attempt γ Bool).Refuses P t := by
  refine refuses_unit (refuses_require ht (refuses_get ?_))
  split
  · refine refuses_change ?_
    split
    · exact refuses_change (refuses_change (refuses_of_ok rfl))
    · exact refuses_change (refuses_of_ok rfl)
  · exact refuses_change (refuses_of_ok rfl)

end Attempt

/-- **What a refused operation changes.** It leaves the unit alone and has no effects, except that it
may have taken the number of a request, or that it has made a unit run which had not committed itself
before. -/
theorem Action.attempt_of_refused (a : Action γ α) {t : Turn γ} {fault : Fault}
    (h : (a.attempt t).1 = .error fault) :
    (∃ n, (a.attempt t).2 = { t with nextRequest := n }) ∨
      t.unit.phase = .started ∧ (a.attempt t).2 = t.eagerStart := by
  let P (t' : Turn γ) : Prop :=
    (∃ n, t' = { t with nextRequest := n }) ∨ t.unit.phase = .started ∧ t' = t.eagerStart
  have ht : P t := .inl ⟨t.nextRequest, rfl⟩
  have hstarted : P t.eagerStart := by
    by_cases hphase : t.unit.phase = .started
    · exact .inr ⟨hphase, rfl⟩
    · rwa [Turn.eagerStart, if_neg hphase]
  have hrefuses : a.attempt.Refuses P t := by
    cases a with
    | freshScope base labels hasDatum sharing =>
      exact Attempt.refuses_freshScope ht base labels hasDatum sharing
    | initScope s labels sharing => exact Attempt.refuses_initScope ht s labels sharing
    | shareScope s => exact Attempt.refuses_shareScope ht s
    | setDatum s d => exact Attempt.refuses_setDatum ht s d
    | addEdge e => exact Attempt.refuses_addEdge ht hstarted e
    | closeLabel s l => exact Attempt.refuses_closeLabel ht s l
    | closeScope s => exact Attempt.refuses_closeScope ht s
    | beginQuery path => exact Attempt.refuses_beginQuery (.inl ⟨_, rfl⟩) path
    | addSubUnit name kind roots changed =>
      exact Attempt.refuses_addSubUnit ht name kind roots changed
    | askForReuse => exact Attempt.refuses_askForReuse ht
  exact hrefuses fault h

/-! ## Making a unit run -/

/-- What a checker has done with a unit so far, apart from what the unit waits for. -/
def UnitNode.work (u : UnitNode γ) :
    SortedSet Scope × SortedMap String Nat × ScopeGraph × ScopeGraph ×
      SortedMap Scope (SortedSet Slot) × SortedMap String UnitId × Renaming :=
  (u.scopes, u.counters, u.graph, u.localGraph, u.shared, u.subUnits, u.sharedPairs)

/-- The second unit has the scopes, graphs and sub-units of the first one, keeps the same open on
scopes of others, and waits for the same but for activations. -/
structure UnitNode.KeepsWork (u v : UnitNode γ) : Prop where
  scopes : v.scopes = u.scopes
  counters : v.counters = u.counters
  graph : v.graph = u.graph
  localGraph : v.localGraph = u.localGraph
  shared : v.shared = u.shared
  subUnits : v.subUnits = u.subUnits
  sharedPairs : v.sharedPairs = u.sharedPairs
  waits : ∀ token holder, token ≠ .activate →
    v.waits.count token holder = u.waits.count token holder

namespace UnitNode.KeepsWork

variable {u v w : UnitNode γ}

theorem refl (u : UnitNode γ) : u.KeepsWork u :=
  ⟨rfl, rfl, rfl, rfl, rfl, rfl, rfl, fun _ _ _ ↦ rfl⟩

theorem of_work (hwork : v.work = u.work) (hwaits : ∀ token holder, token ≠ .activate →
    v.waits.count token holder = u.waits.count token holder) : u.KeepsWork v := by
  simp only [work, Prod.mk.injEq] at hwork
  obtain ⟨hscopes, hcounters, hgraph, hlocal, hshared, hsubUnits, hpairs⟩ := hwork
  exact ⟨hscopes, hcounters, hgraph, hlocal, hshared, hsubUnits, hpairs, hwaits⟩

theorem trans (h : u.KeepsWork v) (h' : v.KeepsWork w) : u.KeepsWork w where
  scopes := h'.scopes.trans h.scopes
  counters := h'.counters.trans h.counters
  graph := h'.graph.trans h.graph
  localGraph := h'.localGraph.trans h.localGraph
  shared := h'.shared.trans h.shared
  subUnits := h'.subUnits.trans h.subUnits
  sharedPairs := h'.sharedPairs.trans h.sharedPairs
  waits token holder hne := (h'.waits token holder hne).trans (h.waits token holder hne)

end UnitNode.KeepsWork

namespace Turn

/-- The work of the unit is kept, it sends nothing, and it adds nobody. -/
structure KeepsWork (t t' : Turn γ) : Prop where
  unit : t.unit.KeepsWork t'.unit
  messages : t'.effects.messages = t.effects.messages
  newUnits : t'.effects.newUnits = t.effects.newUnits

variable {t t' t'' : Turn γ}

namespace KeepsWork

theorem refl (t : Turn γ) : t.KeepsWork t := ⟨.refl _, rfl, rfl⟩

theorem edit (h : t.KeepsWork t') {f : UnitNode γ → UnitNode γ}
    (hf : ((f t'.unit).work, (f t'.unit).waits) = (t'.unit.work, t'.unit.waits)) :
    t.KeepsWork (t'.edit f) := by
  obtain ⟨hwork, hwaits⟩ := Prod.mk.inj hf
  refine ⟨h.unit.trans (.of_work hwork fun token holder _ ↦ ?_), h.messages, h.newUnits⟩
  exact congrArg (TokenBag.count · token holder) hwaits

theorem tell (h : t.KeepsWork t') (receivers : List ChannelId) (p : Parcel) :
    t.KeepsWork (t'.tell receivers p) := by
  obtain ⟨hunit, hmessages, hnewUnits⟩ := h
  rw [Turn.tell]
  induction receivers generalizing t' with
  | nil => exact ⟨hunit, hmessages, hnewUnits⟩
  | cons c cs ih => exact ih hunit hmessages hnewUnits

theorem settleActive (h : t.KeepsWork t') (a : Activation) : t.KeepsWork (t'.settleActive a) :=
  (h.edit (by rfl)).tell _ _

theorem settleDecision (h : t.KeepsWork t') (p : Option Renaming) :
    t.KeepsWork (t'.settleDecision p) :=
  (h.edit (by rfl)).tell _ _

theorem fireDelays (h : t.KeepsWork t') : t.KeepsWork t'.fireDelays := (h.edit (by rfl)).tell _ _

theorem tryFinish (h : t.KeepsWork t') : t.KeepsWork t'.tryFinish := by
  rw [Turn.tryFinish]
  split
  · have hended : t.KeepsWork (t'.edit fun u ↦
        { u with finished := true, phase := .done, report := u.report.settle t'.unit.currentReport }) :=
      h.edit (by rfl)
    obtain ⟨hunit, hmessages, hnewUnits⟩ :=
      hended.tell t'.unit.report.waiters (.report t'.unit.currentReport)
    exact ⟨hunit, hmessages, hnewUnits⟩
  · exact h

/-- Granting an activation. -/
theorem grant_activate (h : t.KeepsWork t') (holder : UnitId) :
    t.KeepsWork (t'.grant .activate holder) := by
  rw [Turn.grant]
  split
  · exact h
  · rename_i waits hwaits
    refine tryFinish (fireDelays ⟨h.unit.trans (.of_work rfl fun token holder' hne ↦ ?_),
      h.messages, h.newUnits⟩)
    rw [TokenBag.count_of_remove? hwaits, if_neg fun heq ↦ hne (Prod.mk.inj heq).1.symm, Nat.sub_zero]

end KeepsWork

theorem keepsWork_restart (t : Turn γ) (trace : Trace) : t.KeepsWork (t.restart trace) := by
  rw [restart]
  split
  · extract_lets active settled compared
    have hactive : t.KeepsWork active := (KeepsWork.refl t).edit (by rfl)
    have hsettled : t.KeepsWork settled := (hactive.settleActive _).settleDecision _
    have hcompared : t.KeepsWork compared := by
      unfold compared
      split
      · exact hsettled.edit (by rfl)
      · exact hsettled
    exact hcompared.grant_activate _
  · exact .refl t

/-- A unit whose checker has not committed it runs afterwards, with all its work, and does not finish
on the spot. -/
theorem eagerStart_spec (t : Turn γ) (hphase : t.unit.phase = .started)
    (houtcome : t.unit.outcome = none) : t.KeepsWork t.eagerStart ∧
      t.eagerStart.unit.phase = .active ∧ t.eagerStart.effects.finished = t.effects.finished := by
  obtain ⟨hactive, -, hfinished⟩ := t.restarted_of_outcome (by simp [canRestart, hphase]) houtcome
    (by simp : Trace.initiallyStarted ≠ .released)
  rw [eagerStart, if_pos hphase]
  exact ⟨t.keepsWork_restart _, hactive, hfinished⟩

end Turn

end ScopeGraphs
