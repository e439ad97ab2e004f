import Mathlib.Logic.Relation
import ScopeGraphs.Proofs.Sorted
import ScopeGraphs.Units.Operation

/-!
# The course of a life

A unit is started, may be undecided for a while, then runs or reuses its previous result, and is
done in the end. On the way it adds sub-units, takes in their reports and finishes. `UnitNode.life`
is what a unit shows of all that, and `Life.Step` lists what can happen to it before it finishes:
whatever a unit does in one go is a sequence of such steps (`Life.Leads`), or the report of a
sub-unit is taken in (`Life.receive`), and afterwards the unit may finish (`Life.ended`).

The steps say by themselves what is kept: a life that is *sound* stays so, phases follow each other
along the edges of `Phase.Edge`, and nothing is taken back. In particular no step leaves a unit that
is done, and none is possible that would have the effects of a verdict on a unit that has ended.

## Who may add what

Steps are relative to the names under which checkers add sub-units. Stand-ins are added on top of
that, under names of the previous run: those that replay by a unit that has not come to its end, and
those for units that are gone by one that has.
-/

namespace ScopeGraphs

variable {γ : Type}

/-! ## Phases -/

/-- One stage in the life of a unit of a kind. Only units that replay are released without having
been undecided. -/
inductive Phase.Edge (kind : UnitKind γ) : Phase → Phase → Prop where
  | started : Edge kind .created .started
  | hesitated : Edge kind .started .undecided
  | activated : Edge kind .started .active
  | replayed (hkind : kind = .phantom true) : Edge kind .started .released
  | restarted : Edge kind .undecided .active
  | released : Edge kind .undecided .released
  | ended (p : Phase) : Edge kind p .done

/-- Stages one after the other. -/
abbrev Phase.Leads (kind : UnitKind γ) : Phase → Phase → Prop := Relation.ReflTransGen (Edge kind)

/-- A unit in this phase runs or reuses, or did so before it ended. -/
def Phase.IsCommitted (p : Phase) : Prop := p = .active ∨ p = .released ∨ p = .done

namespace Phase.Leads

variable {kind : UnitKind γ} {p q : Phase}

/-- A unit that is done stays so. -/
theorem eq_done (h : Leads kind .done q) : q = .done := by
  induction h with
  | refl => rfl
  | tail _ hedge ih =>
    subst ih
    cases hedge
    rfl

/-- A unit that has not been started has not been before. -/
theorem eq_created (h : Leads kind p q) (hq : q = .created) : p = .created := by
  induction h with
  | refl => exact hq
  | tail _ hedge =>
    subst hq
    exact nomatch hedge

/-- A unit that reuses its previous result does so until it is done. -/
theorem of_released (h : Leads kind .released q) : q = .released ∨ q = .done := by
  induction h with
  | refl => exact .inl rfl
  | tail _ hedge ih =>
    obtain rfl | rfl := ih <;> cases hedge <;> exact .inr rfl

end Phase.Leads

/-! ## Lives -/

/-- What a unit shows of its life. -/
structure Life (γ : Type) where
  /-- Its id. -/
  id : UnitId
  /-- The unit that added it. -/
  parent : Option UnitId
  /-- What it is there for. -/
  kind : UnitKind γ
  /-- Its report in the previous run. -/
  previous : Option Report
  /-- Where it stands. -/
  phase : Phase
  /-- Whether its checker has begun to work. -/
  begun : Bool
  /-- How it became active. -/
  trace : Trace
  /-- The news that it is active, once they are out. -/
  active : Option Activation
  /-- The decision about reuse, once it is taken. -/
  decision : Option (Option Renaming)
  /-- The renaming under which it reuses its previous result. -/
  reuse : Option Renaming
  /-- How its checker ended. -/
  outcome : Option (Option Datum)
  /-- Whether it is finished. -/
  finished : Bool
  /-- Its report, once it is finished. -/
  report : Option Report
  /-- Its sub-units by name. -/
  subUnits : SortedMap String UnitId
  /-- The reports of its sub-units by name. -/
  subReports : SortedMap String Report

/-- The life of a unit. -/
def UnitNode.life (u : UnitNode γ) : Life γ where
  id := u.id
  parent := u.parent
  kind := u.kind
  previous := u.previous
  phase := u.phase
  begun := u.begun
  trace := u.trace
  active := u.whenActive.get?
  decision := u.decision.get?
  reuse := u.reuse
  outcome := u.outcome
  finished := u.finished
  report := u.report.get?
  subUnits := u.subUnits
  subReports := u.subReports

namespace Life

/-- A unit that has been added and has not been started. -/
structure IsNewborn (x : Life γ) : Prop where
  phase : x.phase = .created
  begun : x.begun = false
  active : x.active = none
  decision : x.decision = none
  outcome : x.outcome = none
  finished : x.finished = false
  report : x.report = none
  subUnits : x.subUnits = ∅
  subReports : x.subReports = ∅
  trace : x.trace = .initiallyStarted
  reuse : x.kind.isChecker = true → x.reuse = none

theorem isNewborn_new (id : UnitId) (parent : Option UnitId) (kind : UnitKind γ)
    (previous : Option Report) (changed localPhase : Bool) :
    (UnitNode.new id parent kind previous changed localPhase).life.IsNewborn :=
  ⟨rfl, rfl, rfl, rfl, rfl, rfl, rfl, rfl, rfl, rfl, fun _ ↦ rfl⟩

/-- No sub-units are added any more except as stand-ins for units that are gone. -/
def IsBarren (x : Life γ) : Prop := x.phase = .done ∨ x.kind = .phantom false

/-- Under a name there is a report in the previous run. -/
def Recalls (x : Life γ) (name : String) (r : Report) : Prop :=
  ∃ previous, x.previous = some previous ∧ (name, r) ∈ previous.subs

/-- Under a name the unit may add a sub-unit of a kind: its checker any but stand-ins, if the name
is one that checkers use, and the unit itself one that replays a report of the previous run. -/
def MayAdd (N : String → Prop) (x : Life γ) (name : String) (kind : UnitKind γ) : Prop :=
  (N name ∧ ∀ replay, kind ≠ .phantom replay) ∨ (kind = .phantom true ∧ ∃ r, x.Recalls name r)

/-- Something that happens in the life of a unit before it finishes, with the units that it adds, if
checkers give sub-units only names of a certain kind. -/
inductive Step (N : String → Prop) : Life γ → List (UnitNode γ) → Life γ → Prop where
  /-- It is started. -/
  | start {x : Life γ} (hphase : x.phase = .created) : Step N x [] { x with phase := .started }
  /-- Its checker begins to work. -/
  | begin {x : Life γ} (hkind : x.kind.isChecker = true) : Step N x [] { x with begun := true }
  /-- It runs. -/
  | run {x : Life γ} (hphase : x.phase = .started ∨ x.phase = .undecided) {trace : Trace}
      (htrace : trace ≠ .released) :
      Step N x []
        { x with
          phase := .active, trace := trace, active := x.active.or (some .running)
          decision := x.decision.or (some none) }
  /-- Its checker asks for reuse of what it reported in the previous run. -/
  | hesitate {x : Life γ} (hphase : x.phase = .started) (hkind : x.kind.isChecker = true)
      (hprevious : x.previous.isSome = true) : Step N x [] { x with phase := .undecided }
  /-- It reuses its previous result. -/
  | release {x : Life γ} (hphase : x.phase = .undecided) (p : Renaming) :
      Step N x []
        { x with
          phase := .released, trace := .released, reuse := some p
          active := x.active.or (some .reusing), decision := x.decision.or (some (some p)) }
  /-- A unit without a checker does what it is there for. -/
  | serve {x : Life γ} (hkind : x.kind.isChecker = false) (hlive : x.phase.isLive = true)
      {phase : Phase}
      (hstays : phase = x.phase ∨ x.phase = .started ∧
        (phase = .active ∨ phase = .released ∧ x.kind = .phantom true))
      (trace : Trace) (active : Option Activation) (decision : Option (Option Renaming))
      (reuse : Option Renaming) (outcome : Option (Option Datum)) :
      Step N x []
        { x with
          phase := phase, trace := trace, active := active, decision := decision, reuse := reuse
          outcome := outcome }
  /-- Its checker ends, or it is given up. -/
  | conclude {x : Life γ} (hunfinished : x.finished = false) {outcome : Option (Option Datum)}
      (houtcome : outcome.isSome = true) :
      Step N x []
        { x with
          phase := .done, outcome := outcome, active := x.active.or (some .running)
          decision := x.decision.or (some none) }
  /-- It adds a sub-unit. -/
  | join {x : Life γ} (hopen : ¬ x.IsBarren) {name : String} (hfree : x.subUnits[name]? = none)
      {u : UnitNode γ} (hid : u.id = x.id.child name) (hparent : u.parent = some x.id)
      (hborn : u.life.IsNewborn) (hprevious : u.previous = x.previous.bind (·.sub? name))
      (hname : x.MayAdd N name u.kind) :
      Step N x [u] { x with subUnits := x.subUnits.insert name (x.id.child name) }
  /-- It adds a stand-in for a unit that is gone. -/
  | standIn {x : Life γ} (hbarren : x.IsBarren) {name : String} (hfree : x.subUnits[name]? = none)
      {r : Report} (hr : x.Recalls name r) :
      Step N x [.new (x.id.child name) none (.phantom false) (some r) false false] x

/-- What happens in the life of a unit in one go, before it finishes. -/
inductive Leads (N : String → Prop) : Life γ → List (UnitNode γ) → Life γ → Prop where
  | refl (x : Life γ) : Leads N x [] x
  | tail {x y z : Life γ} {us vs : List (UnitNode γ)} (h : Leads N x us y) (hstep : Step N y vs z) :
      Leads N x (us ++ vs) z

/-- The life of a unit once it has been made to run. -/
def restarted (x : Life γ) (trace : Trace) : Life γ :=
  { x with
    phase := .active, trace := trace, active := x.active.or (some .running)
    decision := x.decision.or (some none) }

/-- The life of a unit once it has been told to reuse its previous result. -/
def released (x : Life γ) (p : Renaming) : Life γ :=
  { x with
    phase := .released, trace := .released, reuse := some p
    active := x.active.or (some .reusing), decision := x.decision.or (some (some p)) }

/-- The unit takes in the report of a sub-unit. -/
def receive (x : Life γ) (r : Report) : Life γ :=
  { x with subReports := x.subReports.insert r.id.localName r }

/-- Nothing keeps the unit from being finished, as far as its life goes. -/
structure IsComplete (x : Life γ) : Prop where
  unfinished : x.finished = false
  outcome : x.outcome.isSome = true
  reported : ∀ name, name ∈ x.subUnits → name ∈ x.subReports

/-- The life of a unit that has finished with a report. -/
def ended (x : Life γ) (r : Report) : Life γ :=
  { x with finished := true, phase := .done, report := x.report.or (some r) }

/-! ### What is kept -/

variable {N N' : String → Prop} {x y z : Life γ} {us vs : List (UnitNode γ)}

/-- What no step changes. -/
structure Remains (x y : Life γ) : Prop where
  id : y.id = x.id
  parent : y.parent = x.parent
  kind : y.kind = x.kind
  previous : y.previous = x.previous
  finished : y.finished = x.finished
  report : y.report = x.report

theorem Remains.trans (h : x.Remains y) (h' : y.Remains z) : x.Remains z where
  id := h'.id.trans h.id
  parent := h'.parent.trans h.parent
  kind := h'.kind.trans h.kind
  previous := h'.previous.trans h.previous
  finished := h'.finished.trans h.finished
  report := h'.report.trans h.report

theorem Step.remains (h : Step N x us y) : x.Remains y := by
  cases h <;> exact ⟨rfl, rfl, rfl, rfl, rfl, rfl⟩

theorem Step.subReports (h : Step N x us y) : y.subReports = x.subReports := by
  cases h <;> rfl

/-- A unit that has come to its end has no more sub-units. -/
theorem Step.subUnits (h : Step N x us y) (hbarren : x.IsBarren) : y.subUnits = x.subUnits := by
  cases h with
  | join hopen => exact (hopen hbarren).elim
  | start | begin | run | hesitate | release | serve | conclude | standIn => rfl

/-- What is added is newborn, and names the unit that adds it, if any. -/
theorem Step.newborn (h : Step N x us y) :
    ∀ u ∈ us, u.life.IsNewborn ∧ ∀ p, u.parent = some p → p = x.id := by
  cases h with
  | join hopen hfree hid hparent hborn =>
    refine List.forall_mem_singleton.2 ⟨hborn, fun p hp ↦ ?_⟩
    exact Option.some.inj (hp.symm.trans hparent)
  | standIn => exact List.forall_mem_singleton.2 ⟨isNewborn_new _ _ _ _ _ _, nofun⟩
  | start | begin | run | hesitate | release | serve | conclude => exact List.forall_mem_nil _

theorem Step.phase (h : Step N x us y) : Phase.Leads x.kind x.phase y.phase := by
  cases h with
  | start hphase => exact .single (hphase ▸ .started)
  | run hphase htrace =>
    obtain hphase | hphase := hphase
    · exact .single (hphase ▸ .activated)
    · exact .single (hphase ▸ .restarted)
  | hesitate hphase => exact .single (hphase ▸ .hesitated)
  | release hphase p => exact .single (hphase ▸ .released)
  | serve hkind hlive hstays =>
    obtain rfl | ⟨hphase, rfl | ⟨rfl, hkind⟩⟩ := hstays
    · exact .refl
    · exact .single (hphase ▸ .activated)
    · exact .single (hphase ▸ .replayed hkind)
  | conclude => exact .single (.ended _)
  | begin | join | standIn => exact .refl

namespace Leads

theorem trans (h : Leads N x us y) (h' : Leads N y vs z) : Leads N x (us ++ vs) z := by
  induction h' with
  | refl => rwa [List.append_nil]
  | tail _ hstep ih =>
    rw [← List.append_assoc]
    exact .tail ih hstep

theorem single (h : Step N x us y) : Leads N x us y := .tail (.refl x) h

theorem remains (h : Leads N x us y) : x.Remains y := by
  induction h with
  | refl => exact ⟨rfl, rfl, rfl, rfl, rfl, rfl⟩
  | tail _ hstep ih => exact ih.trans hstep.remains

theorem newborn (h : Leads N x us y) :
    ∀ u ∈ us, u.life.IsNewborn ∧ ∀ p, u.parent = some p → p = x.id := by
  induction h with
  | refl => exact List.forall_mem_nil _
  | tail h hstep ih =>
    refine List.forall_mem_append.2 ⟨ih, fun u hu ↦ ?_⟩
    obtain ⟨hborn, hparent⟩ := hstep.newborn u hu
    exact ⟨hborn, fun p hp ↦ (hparent p hp).trans h.remains.id⟩

theorem phase (h : Leads N x us y) : Phase.Leads x.kind x.phase y.phase := by
  induction h with
  | refl => exact .refl
  | tail h hstep ih => exact ih.trans (h.remains.kind ▸ hstep.phase)

end Leads

/-- The second life is a later stage of the first one: nothing that was settled is taken back. -/
structure Precedes (x y : Life γ) : Prop where
  id : y.id = x.id
  parent : y.parent = x.parent
  kind : y.kind = x.kind
  previous : y.previous = x.previous
  phase : Phase.Leads x.kind x.phase y.phase
  finished : x.finished = true → y.finished = true
  report : ∀ r, x.report = some r → y.report = some r
  active : x.kind.isChecker = true → ∀ a, x.active = some a → y.active = some a
  decision : x.kind.isChecker = true → ∀ d, x.decision = some d → y.decision = some d
  subUnits : ∀ (name : String) (id : UnitId),
    x.subUnits[name]? = some id → y.subUnits[name]? = some id

namespace Precedes

theorem refl (x : Life γ) : x.Precedes x :=
  ⟨rfl, rfl, rfl, rfl, .refl, fun h ↦ h, fun _ h ↦ h, fun _ _ h ↦ h, fun _ _ h ↦ h, fun _ _ h ↦ h⟩

theorem trans (h : x.Precedes y) (h' : y.Precedes z) : x.Precedes z where
  id := h'.id.trans h.id
  parent := h'.parent.trans h.parent
  kind := h'.kind.trans h.kind
  previous := h'.previous.trans h.previous
  phase := h.phase.trans (h.kind ▸ h'.phase)
  finished hx := h'.finished (h.finished hx)
  report r hr := h'.report r (h.report r hr)
  active hkind a ha := h'.active (h.kind ▸ hkind) a (h.active hkind a ha)
  decision hkind d hd := h'.decision (h.kind ▸ hkind) d (h.decision hkind d hd)
  subUnits name id hid := h'.subUnits name id (h.subUnits name id hid)

/-- What has come to its end stays there. -/
theorem isBarren (h : x.Precedes y) (hx : x.IsBarren) : y.IsBarren := by
  obtain hdone | hremoved := hx
  · have hphase := h.phase
    rw [hdone] at hphase
    exact .inl hphase.eq_done
  · exact .inr (h.kind.trans hremoved)

/-- The report of the previous run stays the same. -/
theorem recalls (h : x.Precedes y) {name : String} {r : Report} (hr : x.Recalls name r) :
    y.Recalls name r := by
  obtain ⟨previous, hprevious, hmem⟩ := hr
  exact ⟨previous, h.previous.trans hprevious, hmem⟩

end Precedes

theorem Step.precedes (h : Step N x us y) : x.Precedes y := by
  have hremains := h.remains
  have hphase := h.phase
  cases h with
  | join hopen hfree =>
    refine { Precedes.refl x with subUnits := fun name' id hid ↦ ?_ }
    refine SortedMap.getElem?_insert_eq_some_iff.2 (.inr ⟨?_, hid⟩)
    rintro rfl
    rw [hfree] at hid
    exact nomatch hid
  | serve hkind =>
    exact
      { Precedes.refl x with
        phase := hphase
        active := fun hchecker ↦ nomatch hkind.symm.trans hchecker
        decision := fun hchecker ↦ nomatch hkind.symm.trans hchecker }
  | start | hesitate => exact { Precedes.refl x with phase := hphase }
  | run | release | conclude =>
    exact
      { Precedes.refl x with
        phase := hphase
        active := fun _ a ha ↦ by simp [ha]
        decision := fun _ d hd ↦ by simp [hd] }
  | begin => exact { Precedes.refl x with }
  | standIn => exact .refl x

theorem Leads.precedes (h : Leads N x us y) : x.Precedes y := by
  induction h with
  | refl => exact .refl x
  | tail _ hstep ih => exact ih.trans hstep.precedes

/-- Units are added under names that are free, sub-units if the unit may add them and others if they
stand in for units that are gone. -/
theorem Leads.added (h : Leads N x us y) : ∀ u ∈ us, ∃ name, u.id = x.id.child name ∧
    x.subUnits[name]? = none ∧ (u.parent = some x.id ∧ x.MayAdd N name u.kind ∨
      u.parent = none ∧ u.kind = .phantom false ∧ ∃ r, x.Recalls name r) := by
  induction h with
  | refl => exact List.forall_mem_nil _
  | @tail y _ _ _ h hstep ih =>
    have hremains := h.remains
    have hfree {name : String} (hname : y.subUnits[name]? = none) : x.subUnits[name]? = none :=
      Option.eq_none_iff_forall_ne_some.2 fun k hk ↦
        nomatch hname.symm.trans (h.precedes.subUnits name k hk)
    have hrecalls {name : String} (hr : ∃ r, y.Recalls name r) : ∃ r, x.Recalls name r := by
      obtain ⟨r, previous, hprevious, hmem⟩ := hr
      exact ⟨r, previous, hremains.previous.symm.trans hprevious, hmem⟩
    refine List.forall_mem_append.2 ⟨ih, ?_⟩
    cases hstep with
    | join hopen hname hid hparent hborn hprevious hmay =>
      refine List.forall_mem_singleton.2 ⟨_, hremains.id ▸ hid, hfree hname, .inl ⟨?_, ?_⟩⟩
      · exact hremains.id ▸ hparent
      · exact hmay.imp_right (And.imp_right hrecalls)
    | standIn hbarren hname hr =>
      refine List.forall_mem_singleton.2 ⟨_, ?_, hfree hname, .inr ⟨rfl, rfl, hrecalls ⟨_, hr⟩⟩⟩
      rw [← hremains.id]
      rfl
    | start | begin | run | hesitate | release | serve | conclude => exact List.forall_mem_nil _

theorem Leads.subReports (h : Leads N x us y) : y.subReports = x.subReports := by
  induction h with
  | refl => rfl
  | tail _ hstep ih => exact hstep.subReports.trans ih

theorem Leads.subUnits (h : Leads N x us y) (hbarren : x.IsBarren) :
    y.subUnits = x.subUnits := by
  induction h with
  | refl => rfl
  | tail h hstep ih => exact (hstep.subUnits (h.precedes.isBarren hbarren)).trans ih

theorem precedes_receive (x : Life γ) (r : Report) : x.Precedes (x.receive r) :=
  { Precedes.refl x with }

theorem precedes_ended (x : Life γ) (r : Report) : x.Precedes (x.ended r) :=
  { Precedes.refl x with
    phase := .single (.ended _)
    finished := fun _ ↦ rfl
    report := fun r' hr' ↦ by simp [ended, hr'] }

/-! ### Sound lives -/

/-- The news about a unit for which it is decided whether it reuses its previous result. -/
def newsOf : Option Renaming → Activation
  | some _ => .reusing
  | none => .running

/-- What holds of every life that has gone on in steps. -/
structure IsSound (x : Life γ) : Prop where
  /-- Nothing has come out of a unit that has not been started. -/
  created : x.phase = .created → x.outcome = none
  /-- Only checkers begin to work, and only they ask for reuse. -/
  begun : x.begun = true → x.kind.isChecker = true
  undecided : x.phase = .undecided → x.kind.isChecker = true
  /-- There is something to be reused. -/
  previous : x.phase = .undecided → x.previous.isSome = true
  /-- The checker of a unit has ended only if the unit is done. -/
  outcome : x.kind.isChecker = true → x.outcome.isSome = true → x.phase = .done
  /-- A unit that has finished is done, and nobody else has a report. -/
  finished : x.finished = true → x.phase = .done
  report : x.finished = x.report.isSome
  /-- The decision is taken as soon as a unit runs or reuses, and everybody is told. -/
  decision : x.kind.isChecker = true → (x.decision.isSome = true ↔ x.phase.IsCommitted)
  told : x.kind.isChecker = true → x.active = x.decision.map newsOf
  /-- The unit reuses as the decision says. -/
  reuse : x.kind.isChecker = true → ∀ p, x.decision = some (some p) ↔ x.reuse = some p
  trace : x.kind.isChecker = true → (x.reuse.isSome = true ↔ x.trace = .released)

namespace IsSound

/-- Everybody is told that a unit is active as soon as it runs or reuses. -/
theorem active (h : x.IsSound) (hkind : x.kind.isChecker = true) :
    x.active.isSome = true ↔ x.phase.IsCommitted := by
  rw [h.told hkind, Option.isSome_map, h.decision hkind]

/-- The decision of a checker that is not committed is open. -/
theorem decision_eq_none (h : x.IsSound) (hkind : x.kind.isChecker = true)
    (hphase : ¬ x.phase.IsCommitted) : x.decision = none := by
  rw [← Option.not_isSome_iff_eq_none]
  exact fun hsome ↦ hphase ((h.decision hkind).1 hsome)

theorem reuse_eq_none (h : x.IsSound) (hkind : x.kind.isChecker = true)
    (hphase : ¬ x.phase.IsCommitted) : x.reuse = none := by
  refine Option.eq_none_iff_forall_ne_some.2 fun p hp ↦ ?_
  have hdecision := (h.reuse hkind p).2 hp
  rw [h.decision_eq_none hkind hphase] at hdecision
  exact nomatch hdecision

/-- A unit that asked for reuse has no result yet. -/
theorem outcome_of_undecided (h : x.IsSound) (hphase : x.phase = .undecided) : x.outcome = none := by
  rw [← Option.not_isSome_iff_eq_none]
  intro hsome
  rw [h.outcome (h.undecided hphase) hsome] at hphase
  exact nomatch hphase

end IsSound

theorem IsNewborn.isSound (h : x.IsNewborn) : x.IsSound where
  created _ := h.outcome
  begun hbegun := nomatch h.begun.symm.trans hbegun
  undecided hphase := nomatch h.phase.symm.trans hphase
  previous hphase := nomatch h.phase.symm.trans hphase
  outcome _ houtcome := by simp [h.outcome] at houtcome
  finished hfinished := by simp [h.finished] at hfinished
  report := by rw [h.finished, h.report, Option.isSome_none]
  decision _ := by simp [h.decision, h.phase, Phase.IsCommitted]
  told _ := by rw [h.active, h.decision, Option.map_none]
  reuse hkind p := by simp [h.decision, h.reuse hkind]
  trace hkind := by simp [h.trace, h.reuse hkind]

/-- A unit that has not committed itself goes on without doing so. -/
theorem IsSound.wait (h : x.IsSound) (hearly : ¬ x.phase.IsCommitted) {p : Phase}
    (hcreated : p ≠ .created)
    (hundecided : p = .undecided → x.kind.isChecker = true ∧ x.previous.isSome = true)
    (hphase : ¬ p.IsCommitted) : IsSound { x with phase := p } where
  created hp := (hcreated hp).elim
  begun := h.begun
  undecided hp := (hundecided hp).1
  previous hp := (hundecided hp).2
  outcome hkind houtcome := (hearly (.inr (.inr (h.outcome hkind houtcome)))).elim
  finished hfinished := (hearly (.inr (.inr (h.finished hfinished)))).elim
  report := h.report
  decision hkind := (h.decision hkind).trans (iff_of_false hearly hphase)
  told := h.told
  reuse := h.reuse
  trace := h.trace

/-- A unit that has not committed itself does so, and reuses its previous result or not as it is
decided. -/
theorem IsSound.commit (h : x.IsSound) (hearly : ¬ x.phase.IsCommitted) {p : Phase}
    (hphase : p = .active ∨ p = .released) {trace : Trace} {reuse d : Option Renaming}
    (hreuse : x.kind.isChecker = true → reuse = d)
    (htrace : d.isSome = true ↔ trace = .released) :
    IsSound
      { x with
        phase := p, trace := trace, reuse := reuse, active := x.active.or (some (newsOf d))
        decision := x.decision.or (some d) } where
  created hp := by rcases hphase with rfl | rfl <;> exact nomatch hp
  begun := h.begun
  undecided hp := by rcases hphase with rfl | rfl <;> exact nomatch hp
  previous hp := by rcases hphase with rfl | rfl <;> exact nomatch hp
  outcome hkind houtcome := (hearly (.inr (.inr (h.outcome hkind houtcome)))).elim
  finished hfinished := (hearly (.inr (.inr (h.finished hfinished)))).elim
  report := h.report
  decision hkind := by rcases hphase with rfl | rfl <;> simp [Phase.IsCommitted]
  told hkind := by simp [h.told hkind, h.decision_eq_none hkind hearly]
  reuse hkind p := by simp [h.decision_eq_none hkind hearly, hreuse hkind]
  trace hkind := hreuse hkind ▸ htrace

theorem Step.isSound (h : Step N x us y) (hx : x.IsSound) : y.IsSound := by
  cases h with
  | start hphase =>
    exact hx.wait (by simp [hphase, Phase.IsCommitted]) nofun nofun (by simp [Phase.IsCommitted])
  | hesitate hphase hkind hprevious =>
    exact hx.wait (by simp [hphase, Phase.IsCommitted]) nofun (fun _ ↦ ⟨hkind, hprevious⟩)
      (by simp [Phase.IsCommitted])
  | run hphase htrace =>
    have hearly : ¬ x.phase.IsCommitted := by rcases hphase with h | h <;> simp [h, Phase.IsCommitted]
    exact hx.commit (d := none) hearly (.inl rfl) (fun hkind ↦ hx.reuse_eq_none hkind hearly)
      (by simpa using htrace)
  | release hphase p =>
    exact hx.commit (d := some p) (by simp [hphase, Phase.IsCommitted]) (.inr rfl) (fun _ ↦ rfl)
      (by simp)
  | serve hkind hlive hstays =>
    have hcreated : x.phase ≠ .created := fun heq ↦ by simp [heq, Phase.isLive] at hlive
    have hopen : x.phase ≠ .done := fun heq ↦ by simp [heq, Phase.isLive] at hlive
    exact
      { hx with
        created := fun heq ↦ by
          rcases hstays with rfl | ⟨-, rfl | ⟨rfl, -⟩⟩
          · exact (hcreated heq).elim
          · exact nomatch heq
          · exact nomatch heq
        undecided := fun heq ↦ by
          rcases hstays with rfl | ⟨-, rfl | ⟨rfl, -⟩⟩
          · exact hx.undecided heq
          · exact nomatch heq
          · exact nomatch heq
        previous := fun heq ↦ by
          rcases hstays with rfl | ⟨-, rfl | ⟨rfl, -⟩⟩
          · exact hx.previous heq
          · exact nomatch heq
          · exact nomatch heq
        outcome := fun hchecker ↦ nomatch hkind.symm.trans hchecker
        finished := fun hfinished ↦ (hopen (hx.finished hfinished)).elim
        decision := fun hchecker ↦ nomatch hkind.symm.trans hchecker
        told := fun hchecker ↦ nomatch hkind.symm.trans hchecker
        reuse := fun hchecker ↦ nomatch hkind.symm.trans hchecker
        trace := fun hchecker ↦ nomatch hkind.symm.trans hchecker }
  | conclude hunfinished houtcome =>
    exact
      { hx with
        created := nofun
        undecided := nofun
        previous := nofun
        outcome := fun _ _ ↦ rfl
        finished := fun _ ↦ rfl
        decision := fun _ ↦ by simp [Phase.IsCommitted]
        told := fun hkind ↦ by
          rw [hx.told hkind]
          cases x.decision <;> rfl
        reuse := fun hkind p ↦ by
          rw [← hx.reuse hkind]
          cases x.decision <;> simp }
  | begin hkind => exact { hx with begun := fun _ ↦ hkind }
  | join | standIn => exact { hx with }

theorem Leads.isSound (h : Leads N x us y) (hx : x.IsSound) : y.IsSound := by
  induction h with
  | refl => exact hx
  | tail _ hstep ih => exact hstep.isSound ih

theorem IsSound.receive (h : x.IsSound) (r : Report) : (x.receive r).IsSound := { h with }

theorem IsSound.ended (h : x.IsSound) (hx : x.IsComplete) (r : Report) : (x.ended r).IsSound where
  created := nofun
  begun := h.begun
  undecided := nofun
  previous := nofun
  outcome _ _ := rfl
  finished _ := rfl
  report := by simp [Life.ended]
  decision hkind := by
    rw [Life.ended]
    rw [h.decision hkind, h.outcome hkind hx.outcome]
  told := h.told
  reuse := h.reuse
  trace := h.trace

end Life

/-- A unit that has not finished has no report. -/
theorem Life.IsSound.report_eq_none {x : Life γ} (h : x.IsSound) (hx : x.finished = false) :
    x.report = none := by
  rw [← Option.isNone_iff_eq_none, ← Option.isSome_eq_false_iff, ← h.report, hx]

/-- A sound life ends with a report only if there was none before. -/
theorem Life.IsSound.report_ended {x : Life γ} (h : x.IsSound) (hx : x.IsComplete) (r : Report) :
    (x.ended r).report = some r := by
  rw [Life.ended, h.report_eq_none hx.unfinished]
  rfl

/-! ## One go -/

/-- A unit has come to a stage of its life in one go; if it has finished in that stage, it waits for
nothing and hands in its report. -/
def UnitNode.ComesTo (v : UnitNode γ) (y : Life γ) (finished : Option Report) : Prop :=
  finished = none ∧ v.life = y ∨
    finished = some v.currentReport ∧ y.IsComplete ∧ v.waits.isEmpty = true ∧
      v.life = y.ended v.currentReport

namespace UnitNode.ComesTo

variable {v : UnitNode γ} {y : Life γ} {finished : Option Report} {r : Report}

theorem precedes (h : v.ComesTo y finished) : y.Precedes v.life := by
  obtain ⟨-, hlife⟩ | ⟨-, -, -, hlife⟩ := h
  · exact hlife ▸ .refl y
  · exact hlife ▸ y.precedes_ended _

theorem isSound (h : v.ComesTo y finished) (hy : y.IsSound) : v.life.IsSound := by
  obtain ⟨-, hlife⟩ | ⟨-, hcomplete, -, hlife⟩ := h
  · exact hlife ▸ hy
  · exact hlife ▸ hy.ended hcomplete _

/-- A unit that hands in no report is as it was. -/
theorem life_eq (h : v.ComesTo y none) : v.life = y := by
  obtain ⟨-, hlife⟩ | ⟨hnone, -⟩ := h
  · exact hlife
  · exact nomatch hnone

/-- A unit that hands in its report has just finished. -/
theorem reported (h : v.ComesTo y (some r)) : y.IsComplete ∧ v.waits.isEmpty = true ∧
    r = v.currentReport ∧ v.life = y.ended r := by
  obtain ⟨hnone, -⟩ | ⟨hreport, hcomplete, hempty, hlife⟩ := h
  · exact nomatch hnone
  · obtain rfl := Option.some.inj hreport
    exact ⟨hcomplete, hempty, rfl, hlife⟩

theorem subReports (h : v.ComesTo y finished) : v.subReports = y.subReports := by
  obtain ⟨-, hlife⟩ | ⟨-, -, -, hlife⟩ := h
  · exact congrArg Life.subReports hlife
  · exact congrArg Life.subReports hlife

/-- What is handed in stays with the unit. -/
theorem report (h : v.ComesTo y (some r)) (hy : y.IsSound) : v.report.get? = some r := by
  obtain ⟨hcomplete, -, -, hlife⟩ := h.reported
  exact (congrArg Life.report hlife).trans (hy.report_ended hcomplete r)

/-- A report was there before, or is handed in. -/
theorem report_cases (h : v.ComesTo y finished) (hy : y.IsSound) (hr : v.report.get? = some r) :
    y.report = some r ∨ finished = some r := by
  cases finished with
  | none => exact .inl ((congrArg Life.report h.life_eq).symm.trans hr)
  | some r' => exact .inr ((h.report hy).symm.trans hr)

end UnitNode.ComesTo

end ScopeGraphs
