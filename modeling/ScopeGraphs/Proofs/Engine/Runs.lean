import ScopeGraphs.Engine.Run
import ScopeGraphs.Proofs.Sorted

/-!
# Runs as sequences of steps

The engine is a program: it drives mailboxes, tasks and the detector of deadlocks in a fixed order.
For what becomes of a unit the order does not matter. A *step* of a run is one operation on one
unit, the arrival of a new unit, or a change that leaves all units alone, and a run is a sequence of
steps together with the states in between.

Everything that the engine does is such a sequence (`Engine.reaches_run`), so what is shown for all
sequences of steps holds for all runs of the engine, whatever its checkers do. There are other ways
to cut the work of the engine into pieces. `Core.Hosts` says what a relation between states has to
contain of what the engine does by itself so that it contains whole runs, as long as processes obey
it (`Core.Hosts.reachable`). A relation that admits all operations of a kind on units
(`Core.Admits`) is of this sort, and processes that carry out no others obey it (`Core.Admits.run`).
-/

namespace ScopeGraphs

universe u

variable {γ α β : Type} {c c' c'' : Core γ}

/-- Something that happens in a run, as far as units are concerned. -/
inductive Event (γ : Type) : Type 1 where
  /-- An operation is carried out on a unit. -/
  | turn {α : Type} (u : UnitNode γ) (op : UnitOp γ α)
  /-- A unit is added. -/
  | joined (u : UnitNode γ)
  /-- Nothing happens to any unit. -/
  | other

namespace Core

/-- One step of a run. -/
inductive Step : Core γ → Event γ → Core γ → Prop where
  | turn {c : Core γ} {id : UnitId} {u : UnitNode γ} (h : c.units[id]? = some u) {α : Type}
      (op : UnitOp γ α) : Step c (.turn u op) (c.turn u op).2.2
  | joined (c : Core γ) (u : UnitNode γ) : Step c (.joined u) (c.addUnit u)
  | other {c c' : Core γ} (hunits : c'.units = c.units) (hsetup : c'.setup = c.setup) :
      Step c .other c'

/-- A run from one state to another: what happened, each time with the state to which it led. -/
inductive Run : Core γ → List (Event γ × Core γ) → Core γ → Prop where
  | nil (c : Core γ) : Run c [] c
  | cons {c c' c'' : Core γ} {e : Event γ} {tr : List (Event γ × Core γ)} (hstep : Step c e c')
      (hrun : Run c' tr c'') : Run c ((e, c') :: tr) c''

/-- One state leads to another in some run. -/
def Reaches (c c' : Core γ) : Prop := ∃ tr, Run c tr c'

/-! ## Runs can be put together -/

theorem Run.append {tr tr' : List (Event γ × Core γ)} (h : Run c tr c') (h' : Run c' tr' c'') :
    Run c (tr ++ tr') c'' := by
  induction h with
  | nil => exact h'
  | cons hstep _ ih => exact .cons hstep (ih h')

theorem Step.reaches {e : Event γ} (h : Step c e c') : Reaches c c' := ⟨_, .cons h (.nil _)⟩

namespace Reaches

theorem refl (c : Core γ) : Reaches c c := ⟨[], .nil c⟩

theorem trans (h : Reaches c c') (h' : Reaches c' c'') : Reaches c c'' :=
  let ⟨_, htr⟩ := h
  let ⟨_, htr'⟩ := h'
  ⟨_, htr.append htr'⟩

/-- What leaves all units alone. -/
theorem other (h : Reaches c c') {d : Core γ} (hunits : d.units = c'.units)
    (hsetup : d.setup = c'.setup) : Reaches c d :=
  h.trans (Step.other hunits hsetup).reaches

end Reaches

/-- Several things one after the other. -/
theorem foldl_of_trans {R : Core γ → Core γ → Prop}
    (htrans : ∀ {c c' c'' : Core γ}, R c c' → R c' c'' → R c c'') {ι : Type u}
    {f : Core γ → ι → Core γ} {is : List ι} (hf : ∀ i ∈ is, ∀ c, R c (f c i)) (h : R c c') :
    R c (is.foldl f c') := by
  induction is generalizing c' with
  | nil => exact h
  | cons i is ih =>
    have hi : R c (f c' i) := htrans h (hf i List.mem_cons_self c')
    exact ih (fun j hj ↦ hf j (List.mem_cons_of_mem _ hj)) hi

theorem reaches_applyEffects (c : Core γ) (origin : UnitId) (e : Effects γ) :
    Reaches c (c.applyEffects origin e) := by
  have hwaits : Reaches c (e.waits.foldl (noteWait origin) c) :=
    foldl_of_trans .trans (fun e _ c ↦ by cases e <;> exact (Reaches.refl c).other rfl rfl) (.refl c)
  have hunits : Reaches c (e.newUnits.foldl addUnit (e.waits.foldl (noteWait origin) c)) :=
    foldl_of_trans .trans (fun u _ c ↦ (Step.joined c u).reaches) hwaits
  exact foldl_of_trans .trans (fun _ _ c ↦ (Reaches.refl c).other rfl rfl) hunits

/-- The state after an operation on a unit, with the messages sent and the units added. -/
def carryOut (c : Core γ) (id : UnitId) (u : UnitNode γ) (op : UnitOp γ α) : Core γ :=
  (c.turn u op).2.2.applyEffects id (c.turn u op).2.1

theorem reaches_carryOut {id : UnitId} {u : UnitNode γ} (hu : c.units[id]? = some u)
    (op : UnitOp γ α) : Reaches c (c.carryOut id u op) :=
  (Step.turn hu op).reaches.trans (reaches_applyEffects _ _ _)

/-- Nothing happens to units that are not there. -/
theorem atUnit_of_none {id : UnitId} (hu : c.units[id]? = none) (op : UnitOp γ α) :
    c.atUnit id op = (.error (.unknownUnit id), c) := by
  rw [atUnit, hu]

/-- The answer to an operation on a unit is what the operation gives in that unit. -/
theorem fst_atUnit {id : UnitId} {u : UnitNode γ} (hu : c.units[id]? = some u) (op : UnitOp γ α) :
    (c.atUnit id op).1 =
      .ok (op.run ⟨u, .none, c.setup.settings, c.channels, c.nextRequest⟩).1 := by
  rw [atUnit, hu]
  dsimp only
  split <;> rfl

end Core

/-! ## Relations that contain runs -/

/-- Whether an operation is one with which the engine urges a unit on. -/
def UnitOp.IsUrging : {α : Type} → UnitOp γ α → Prop
  | _, eagerStart | _, release _ | _, restart .restarted | _, endLocalPhase
  | _, grantClosures => True
  | _, _ => False

namespace Core

/-- What stays the same as long as no report reaches the root. -/
structure SameFrame (c c' : Core γ) : Prop where
  setup : c'.setup = c.setup
  root : c'.root = c.root
  rootReport : c'.rootReport = c.rootReport

theorem SameFrame.refl (c : Core γ) : SameFrame c c := ⟨rfl, rfl, rfl⟩

theorem SameFrame.trans (h : SameFrame c c') (h' : SameFrame c' c'') : SameFrame c c'' :=
  ⟨h'.setup.trans h.setup, h'.root.trans h.root, h'.rootReport.trans h.rootReport⟩

/-- A relation between states contains what the engine does by itself: it urges units on, hands
messages over or drops them, and gives units up when nothing is left to do. -/
structure Hosts (R : Core γ → Core γ → Prop) : Prop where
  refl (c : Core γ) : R c c
  trans {c c' c'' : Core γ} : R c c' → R c' c'' → R c c''
  other {c c' : Core γ} : c'.units = c.units → SameFrame c c' → c'.mail = c.mail →
    c'.detector.graph = c.detector.graph →
    (∀ (id : TaskId) (t : Task γ), c'.executor.tasks[id]? = some t →
      c.executor.tasks[id]? = some t) → R c c'
  urged (c : Core γ) (id : UnitId) {α : Type} {op : UnitOp γ α} : op.IsUrging →
    R c (c.atUnit id op).2
  failed (c : Core γ) : c.hasWork = false → R c c.failStuckUnits.2
  delivered (c : Core γ) : R c c.deliverNext.2
  dropped {c c' : Core γ} : c'.units = c.units → SameFrame c c' →
    c'.mail = c.mail.dropParked.2 → c'.detector.graph = c.detector.graph →
    c'.executor.tasks = c.executor.tasks → R c c'

end Core

/-- Whatever happens in the meantime, as long as a relation contains it, a process does only what
the relation contains, from a state on. -/
def Proc.Obeys (R : Core γ → Core γ → Prop) : {α : Type} → Proc γ α → Core γ → Prop
  | _, done _, _ => True
  | _, perform op next, c => ∀ c', R c c' →
      R c' (c'.perform op).2 ∧ (next (c'.perform op).1).Obeys R (c'.perform op).2
  | _, await _ next, c => ∀ v, (next v).Obeys R c
  | _, yield next, c => next.Obeys R c
  | _, never, _ => True
  | _, together _ parts next, c => (∀ i, (parts i).Obeys R c) ∧ ∀ r, (next r).Obeys R c

namespace Core.Hosts

open ScopeGraphs.Proc

variable {R : Core γ → Core γ → Prop}

theorem foldl (h : Hosts R) {ι : Type u} {f : Core γ → ι → Core γ} {is : List ι}
    (hf : ∀ i ∈ is, ∀ c, R c (f c i)) (hc : R c c') : R c (is.foldl f c') :=
  foldl_of_trans (R := R) h.trans hf hc

theorem calm (h : Hosts R) {d : Core γ} (hunits : d.units = c.units) (hframe : SameFrame c d)
    (hmail : d.mail = c.mail) (hgraph : d.detector.graph = c.detector.graph)
    (htasks : d.executor.tasks = c.executor.tasks) : R c d :=
  h.other hunits hframe hmail hgraph fun _ _ ht ↦ htasks ▸ ht

theorem wake (h : Hosts R) (c : Core γ) (id : TaskId) : R c (c.wake id) := by
  refine h.calm rfl ⟨rfl, rfl, rfl⟩ rfl rfl ?_
  rw [Core.wake, Executor.wake]
  split <;> rfl

theorem fill (h : Hosts R) (c : Core γ) (state : ChannelState Parcel) (channel : ChannelId) :
    R c (c.fill state channel) :=
  h.foldl (fun id _ c ↦ h.wake c id) (h.calm rfl ⟨rfl, rfl, rfl⟩ rfl rfl rfl)

theorem abandon (h : Hosts R) (p : Proc γ α) (c : Core γ) : R c (p.abandon c) := by
  induction p generalizing c with
  | await channel next ih => exact h.calm rfl ⟨rfl, rfl, rfl⟩ rfl rfl rfl
  | together turns parts next ih ihnext =>
    refine h.foldl (fun f hf c ↦ ?_) (h.refl c)
    obtain ⟨i, rfl⟩ := List.mem_ofFn.1 hf
    exact ih i c
  | done | perform | yield | never => exact h.refl c

theorem abandonAll (h : Hosts R) (ps : List (Polled γ α)) (c : Core γ) :
    R c (abandonAll ps c) :=
  h.foldl (fun p _ c ↦ h.abandon p.rest c) (h.refl c)

end Core.Hosts

open Core (Hosts)

variable {A : UnitId → (α : Type) → UnitOp γ α → Prop} {B : (α : Type) → UnitOp γ α → Prop}
  {R : Core γ → Core γ → Prop}

/-! ## Polling -/

namespace Proc

/-- What a process obeys from a state on it obeys later on. -/
theorem Obeys.later (h : Hosts R) {p : Proc γ α} (hp : p.Obeys R c) (hc : R c c') :
    p.Obeys R c' := by
  induction p with
  | done | never => trivial
  | perform op next ih => exact fun c'' hc' ↦ hp c'' (h.trans hc hc')
  | await channel next ih => exact fun v ↦ ih v (hp v)
  | yield next ih => exact ih hp
  | together turns parts next ih ihnext =>
    exact ⟨fun i ↦ ih i (hp.1 i), fun r ↦ ihnext r (hp.2 r)⟩

/-- What a poll of a process comes to: everything that happened is contained in a relation, and what
is left of the process obeys it. -/
structure Leaves (R : Core γ → Core γ → Prop) (c : Core γ) (r : Polled γ α × Core γ) : Prop where
  run : R c r.2
  obeys : r.1.rest.Obeys R r.2

/-- The same for processes side by side. -/
structure LeaveAll (R : Core γ → Core γ → Prop) (c : Core γ)
    (r : Except Fault (List (Polled γ α)) × Core γ) : Prop where
  run : R c r.2
  obeys : ∀ polled, r.1 = .ok polled → ∀ q ∈ polled, q.rest.Obeys R r.2

/-- What can be done with a process among others, from a state on. -/
structure Part.Leaves (R : Core γ → Core γ → Prop) (c : Core γ) (p : Part γ β) : Prop where
  poll (c' : Core γ) : R c c' → Proc.Leaves R c' (p.poll c')
  abandon (c' : Core γ) : R c' (p.abandon c')

theorem Part.Leaves.later (h : Hosts R) {p : Part γ β} (hp : p.Leaves R c) (hc : R c c') :
    p.Leaves R c' :=
  ⟨fun c'' hc' ↦ hp.poll c'' (h.trans hc hc'), hp.abandon⟩

theorem rest_ofProc (p : Proc γ α) : (Polled.ofProc p).rest = p := by
  cases p <;> rfl

theorem mem_inOrderOfArrival {ι : Type u} {xs : List (Option Nat × ι)} {e : Nat × ι}
    (h : e ∈ inOrderOfArrival xs) : e.2 ∈ xs.map Prod.snd := by
  rw [inOrderOfArrival, List.mem_map] at h
  obtain ⟨a, ha, rfl⟩ := h
  rw [List.mem_mergeSort, List.mem_filterMap] at ha
  obtain ⟨⟨x, i⟩, hx, ha⟩ := ha
  obtain ⟨n, -, rfl⟩ := Option.map_eq_some_iff.1 ha
  exact List.mem_map_of_mem (List.fst_mem_of_mem_zipIdx hx)

theorem leaveAll_pollEach (h : Hosts R) {polled : List (Polled γ (Except Fault β))}
    (hpolled : ∀ q ∈ polled, q.rest.Obeys R c) {ps : List (Part γ β)}
    (hps : ∀ p ∈ ps, p.Leaves R c) : LeaveAll R c (pollEach polled ps c) := by
  induction ps generalizing polled c with
  | nil =>
    refine ⟨h.refl c, fun _ heq ↦ ?_⟩
    obtain rfl := Except.ok.inj heq
    exact hpolled
  | cons p ps ih =>
    have hp : Leaves R c (p.poll c) := (hps p List.mem_cons_self).poll c (h.refl c)
    have hrest (q) (hq : q ∈ ps) : q.Leaves R c := hps q (List.mem_cons_of_mem _ hq)
    rw [pollEach]
    split
    · rename_i e c₁ heq
      rw [heq] at hp
      refine ⟨?_, fun _ heq ↦ absurd heq nofun⟩
      exact h.foldl (fun q hq c ↦ (hrest q hq).abandon c) (h.trans hp.run (h.abandonAll _ _))
    · rename_i q c₁ _ heq
      rw [heq] at hp
      have hadded : ∀ q' ∈ polled ++ [q], q'.rest.Obeys R c₁ := fun q' hq' ↦
        (List.mem_append.1 hq').elim (fun hq' ↦ (hpolled q' hq').later h hp.run)
          fun hq' ↦ List.mem_singleton.1 hq' ▸ hp.obeys
      obtain ⟨hrun, hobeys⟩ := ih hadded fun q hq ↦ (hrest q hq).later h hp.run
      exact ⟨h.trans hp.run hrun, hobeys⟩

theorem leaveAll_pollWoken (h : Hosts R) (self : TaskId)
    {polled : List (Polled γ (Except Fault β))} (hpolled : ∀ q ∈ polled, q.rest.Obeys R c)
    (waits : Nat) {ps : List (Nat × Part γ β)} (hps : ∀ p ∈ ps, p.2.Leaves R c) :
    LeaveAll R c (pollWoken self polled waits ps c) := by
  induction ps generalizing polled waits c with
  | nil =>
    have hwoken : R c (pollWoken self polled waits ([] : List (Nat × Part γ β)) c).2 := by
      rw [pollWoken]
      dsimp only
      split
      · exact h.wake c self
      · exact h.refl c
    refine ⟨hwoken, fun _ heq q hq ↦ ?_⟩
    obtain rfl := Except.ok.inj heq
    exact (hpolled q hq).later h hwoken
  | cons p ps ih =>
    obtain ⟨i, p⟩ := p
    have hp : Leaves R c (p.poll c) := (hps _ List.mem_cons_self).poll c (h.refl c)
    have hset {r : Polled γ (Except Fault β)} {c₁ : Core γ} (hc : R c c₁)
        (hr : r.rest.Obeys R c₁) : ∀ q ∈ polled.set i r, q.rest.Obeys R c₁ := fun q hq ↦
      (List.mem_or_eq_of_mem_set hq).elim (fun hq ↦ (hpolled q hq).later h hc) fun hq ↦ hq ▸ hr
    have hrest {c₁ : Core γ} (hc : R c c₁) (q) (hq : q ∈ ps) : q.2.Leaves R c₁ :=
      (hps q (List.mem_cons_of_mem _ hq)).later h hc
    rw [pollWoken]
    split
    · rename_i q c₁ heq
      rw [heq] at hp
      obtain ⟨hrun, hobeys⟩ := ih (hset hp.run hp.obeys) (waits + 1) (hrest hp.run)
      exact ⟨h.trans hp.run hrun, hobeys⟩
    · rename_i r c₁ heq
      rw [heq] at hp
      dsimp only
      split
      · exact ⟨h.trans hp.run (h.abandonAll _ _), fun _ heq ↦ absurd heq nofun⟩
      · obtain ⟨hrun, hobeys⟩ := ih (hset hp.run hp.obeys) 0 (hrest hp.run)
        exact ⟨h.trans hp.run hrun, hobeys⟩

theorem leaveAll_pollParts (h : Hosts R) (self : TaskId) (turns : Turns)
    {ps : List (Proc γ (Except Fault β))} (hps : ∀ p ∈ ps, p.Obeys R c) {parts : List (Part γ β)}
    (hparts : ∀ p ∈ parts, p.Leaves R c) : LeaveAll R c (pollParts self turns ps parts c) := by
  have hpolled : ∀ q ∈ ps.map Polled.ofProc, q.rest.Obeys R c := fun q hq ↦ by
    obtain ⟨p, hp, rfl⟩ := List.mem_map.1 hq
    rw [rest_ofProc]
    exact hps p hp
  cases turns with
  | each => exact leaveAll_pollEach h (List.forall_mem_nil _) hparts
  | woken first =>
    cases first with
    | true =>
      refine leaveAll_pollWoken h self hpolled 0 fun p hp ↦ ?_
      obtain ⟨⟨q, i⟩, hq, rfl⟩ := List.mem_map.1 hp
      exact hparts q (List.fst_mem_of_mem_zipIdx hq)
    | false =>
      refine leaveAll_pollWoken h self hpolled 0 fun p hp ↦ hparts p.2 ?_
      obtain ⟨⟨n, q⟩, hq, heq⟩ := List.mem_map.1 (mem_inOrderOfArrival hp)
      exact heq ▸ (List.of_mem_zip hq).2

/-- A poll of a process that obeys a relation. -/
theorem leaves_poll (h : Hosts R) (self : TaskId) {p : Proc γ α} (hp : p.Obeys R c) :
    Leaves R c (p.poll self c) := by
  induction p generalizing c with
  | done a => exact ⟨h.refl c, trivial⟩
  | perform op next ih =>
    rw [poll]
    obtain ⟨hdone, hnext⟩ := hp c (h.refl c)
    obtain ⟨hrun, hobeys⟩ := ih _ hnext
    exact ⟨h.trans hdone hrun, hobeys⟩
  | await channel next ih =>
    rw [poll]
    have hreceived (channels : Channels Parcel) : R c { c with channels := channels } :=
      h.calm rfl ⟨rfl, rfl, rfl⟩ rfl rfl rfl
    split
    · exact ⟨hreceived _, fun v ↦ (hp v).later h (hreceived _)⟩
    · rename_i v channels _
      obtain ⟨hrun, hobeys⟩ := ih v ((hp v).later h (hreceived channels))
      exact ⟨h.trans (hreceived channels) hrun, hobeys⟩
  | yield next ih => exact ⟨h.wake c self, Obeys.later h (p := next) hp (h.wake c self)⟩
  | never => exact ⟨h.refl c, trivial⟩
  | together turns parts next ih ihnext =>
    have hobey : ∀ p ∈ List.ofFn parts, p.Obeys R c := fun p hp' ↦ by
      obtain ⟨i, rfl⟩ := List.mem_ofFn.1 hp'
      exact hp.1 i
    have hparts : ∀ p ∈ List.ofFn fun i ↦ (⟨poll self (parts i), abandon (parts i)⟩ : Part γ _),
        p.Leaves R c := fun p hp' ↦ by
      obtain ⟨i, rfl⟩ := List.mem_ofFn.1 hp'
      exact ⟨fun c' hc ↦ ih i ((hp.1 i).later h hc), h.abandon (parts i)⟩
    have hpolled := leaveAll_pollParts h self turns hobey hparts
    rw [poll]
    split
    · rename_i e c₁ heq
      rw [heq] at hpolled
      obtain ⟨hrun, hobeys⟩ := ihnext _ ((hp.2 _).later h hpolled.run)
      exact ⟨h.trans hpolled.run hrun, hobeys⟩
    · rename_i polled c₁ heq
      rw [heq] at hpolled
      split
      · obtain ⟨hrun, hobeys⟩ := ihnext _ ((hp.2 _).later h hpolled.run)
        exact ⟨h.trans hpolled.run hrun, hobeys⟩
      · exact ⟨hpolled.run, fun i ↦ hpolled.obeys polled rfl _ (List.getElem_mem _),
          fun r ↦ (hp.2 r).later h hpolled.run⟩

end Proc

/-! ## Quiescence -/

namespace Core.Hosts

theorem dropParked (h : Hosts R) (c : Core γ) : R c c.dropParked :=
  h.foldl (fun channel _ c ↦ h.fill c .hungUp channel) (h.dropped rfl ⟨rfl, rfl, rfl⟩ rfl rfl rfl)

theorem endLocalPhases (h : Hosts R) (c : Core γ) (us : List UnitId) :
    R c (c.endLocalPhases us) :=
  h.foldl (fun u _ c ↦ h.urged c u trivial) (h.refl c)

theorem releaseAll (h : Hosts R) (p : Renaming) (c : Core γ) (us : List UnitId) :
    R c (releaseAll p c us).2 := by
  induction us generalizing c with
  | nil => exact h.refl c
  | cons u us ih =>
    have hreleased : R c (c.atUnit u (.release p)).2 := h.urged c u trivial
    rw [Core.releaseAll]
    split
    · rename_i c₁ heq
      rw [heq] at hreleased
      have hcounted : R c₁ { c₁ with detector := c₁.detector.countRelease } :=
        h.calm rfl ⟨rfl, rfl, rfl⟩ rfl rfl rfl
      exact h.trans (h.trans hreleased hcounted) (ih _)
    · rename_i c₁ _ heq
      rw [heq] at hreleased
      exact h.trans hreleased (ih _)

theorem restartAll (h : Hosts R) (c : Core γ) (us : List UnitId) : R c (c.restartAll us).2 := by
  induction us generalizing c with
  | nil => exact h.refl c
  | cons u us ih =>
    have hrestarted : R c (c.atUnit u (.restart .restarted)).2 := h.urged c u trivial
    rw [Core.restartAll]
    split
    · rename_i c₁ heq
      rw [heq] at hrestarted
      have hcounted : R c₁ { c₁ with detector := c₁.detector.countRestart } :=
        h.calm rfl ⟨rfl, rfl, rfl⟩ rfl rfl rfl
      exact h.trans (h.trans hrestarted hcounted) (ih _)
    · rename_i c₁ _ heq
      rw [heq] at hrestarted
      exact h.trans hrestarted (ih _)

theorem grantAllClosures (h : Hosts R) (c : Core γ) (us : List UnitId) :
    R c (c.grantAllClosures us).2 := by
  induction us generalizing c with
  | nil => exact h.refl c
  | cons u us ih =>
    have hgranted : R c (c.atUnit u .grantClosures).2 := h.urged c u trivial
    exact h.trans hgranted (ih _)

theorem resolveCluster (h : Hosts R) (c : Core γ) (cluster : List UnitId) :
    R c (c.resolveCluster cluster).2 := by
  rw [Core.resolveCluster]
  split
  · exact h.releaseAll _ _ _
  · split
    · exact h.trans (h.grantAllClosures c _) (h.calm rfl ⟨rfl, rfl, rfl⟩ rfl rfl rfl)
    · split
      · exact h.releaseAll _ _ _
      · exact h.restartAll _ _

theorem resolveClusters (h : Hosts R) (c : Core γ) (clusters : List (List UnitId)) :
    R c (c.resolveClusters clusters).2 := by
  induction clusters generalizing c with
  | nil => exact h.refl c
  | cons cluster rest ih => exact h.trans (h.resolveCluster c cluster) (ih _)

theorem resolveQuiescence (h : Hosts R) (c : Core γ) : R c c.resolveQuiescence.2 := by
  rw [Core.resolveQuiescence]
  split
  · exact h.dropParked c
  · split
    · exact h.endLocalPhases c _
    · have hdetected : R c { c with detector := c.detector.detect.2 } :=
        h.calm rfl ⟨rfl, rfl, rfl⟩ rfl rfl rfl
      exact h.trans hdetected (h.resolveClusters _ _)

end Core.Hosts

/-- What quiescence is left to has nothing to do. -/
theorem Core.hasWork_of_resolveQuiescence (h : c.resolveQuiescence = (false, c')) :
    c'.hasWork = false := by
  rw [Core.resolveQuiescence] at h
  split at h
  · exact nomatch h
  · split at h
    · exact nomatch h
    · obtain ⟨hnone, rfl⟩ := Prod.mk.inj h
      exact (Bool.or_eq_false_iff.1 hnone).2

/-! ## The engine -/

namespace Engine

/-- Whatever has been suspended obeys a relation. -/
def Obeys (R : Core γ → Core γ → Prop) (e : Engine γ) : Prop :=
  ∀ (id : TaskId) (p : Proc γ PUnit), e.suspended[id]? = some p → p.Obeys R e.core

variable {b : Behaviour γ}

theorem Obeys.later (h : Hosts R) {e : Engine γ} (he : e.Obeys R) (hc : R e.core c) :
    Obeys R { e with core := c } :=
  fun id p hp ↦ (he id p hp).later h hc

theorem leaves_pollFirst (h : Hosts R) (id : TaskId) {task : Task γ}
    (hb : (process b c.setup task).Obeys R c) : Proc.Leaves R c (pollFirst b id task c) := by
  have hpolled := Proc.leaves_poll h id hb
  rw [pollFirst]
  split
  · rename_i a c₁ heq
    rwa [heq] at hpolled
  · rename_i p c₁ heq
    rw [heq] at hpolled
    split
    · rename_i unit _ _
      have hstarted : R c₁ (c₁.atUnit unit .eagerStart).2 := h.urged c₁ unit trivial
      obtain ⟨hrun, hobeys⟩ := Proc.leaves_poll h id (hpolled.obeys.later h hstarted)
      exact ⟨h.trans (h.trans hpolled.run hstarted) hrun, hobeys⟩
    · exact hpolled

end Engine

/-- A task that is taken out was there. -/
theorem Executor.tasks_of_take {e e' : Executor (Task γ)} {o : Option (TaskId × Task γ)}
    (h : e.take = (o, e')) :
    (∀ (id : TaskId) (t : Task γ), e'.tasks[id]? = some t → e.tasks[id]? = some t) ∧
      ∀ (id : TaskId) (t : Task γ), o = some (id, t) → e.tasks[id]? = some t := by
  have hlive (ids : List TaskId) (id : TaskId) (t : Task γ) (rest : List TaskId)
      (h : firstLive e.tasks ids = (some (id, t), rest)) : e.tasks[id]? = some t := by
    induction ids with
    | nil => exact nomatch h
    | cons k ids ih =>
      rw [firstLive] at h
      split at h
      · rename_i t' ht'
        cases h
        exact ht'
      · exact ih h
  rw [take] at h
  split at h
  · cases h
    exact ⟨fun _ _ h ↦ h, nofun⟩
  · rename_i id t rest heq
    cases h
    refine ⟨fun k t' ht' ↦ (SortedMap.getElem?_erase_eq_some_iff.1 ht').2, fun k t' hk ↦ ?_⟩
    cases hk
    exact hlive _ _ _ _ heq

namespace Core.Hosts

variable {b : Behaviour γ}

/-- In all states to which a relation leads from a state, tasks obey it and may be put back. -/
structure Runs (R : Core γ → Core γ → Prop) (b : Behaviour γ) (c : Core γ) : Prop where
  obeys {c' : Core γ} {id : TaskId} {task : Task γ} : R c c' → c'.executor.tasks[id]? = some task →
    (Engine.process b c'.setup task).Obeys R c'
  resumed {c' c'' : Core γ} {id : TaskId} {task : Task γ} : R c c' →
    c'.executor.tasks[id]? = some task → R c' c'' →
      R c'' { c'' with executor := c''.executor.settle id (some task) }

theorem pollNext (h : Hosts R) (hb : Runs R b c) {e : Engine γ} (hc : R c e.core)
    (he : e.Obeys R) : R e.core (e.pollNext b).2.core ∧ (e.pollNext b).2.Obeys R := by
  rw [Engine.pollNext]
  split
  · rename_i executor htake
    have hcore : R e.core { e.core with executor := executor } :=
      h.other rfl ⟨rfl, rfl, rfl⟩ rfl rfl (Executor.tasks_of_take htake).1
    exact ⟨hcore, he.later h hcore⟩
  · rename_i id task executor htake
    obtain ⟨htasks, htask⟩ := Executor.tasks_of_take htake
    extract_lets _ core
    have hcore : R e.core core := h.other rfl ⟨rfl, rfl, rfl⟩ rfl rfl htasks
    split
    rename_i rest c₁ heq
    have hpolled : Proc.Leaves R core (rest, c₁) := by
      rw [← heq]
      split
      · rename_i p hp
        exact Proc.leaves_poll h id ((he id p hp).later h hcore)
      · exact Engine.leaves_pollFirst h id ((hb.obeys hc (htask id task rfl)).later h hcore)
    have hrun : R e.core c₁ := h.trans hcore hpolled.run
    split
    · have hsettled : R c₁ { c₁ with executor := c₁.executor.settle id none } :=
        h.calm rfl ⟨rfl, rfl, rfl⟩ rfl rfl rfl
      refine ⟨h.trans hrun hsettled, fun k p hk ↦ ?_⟩
      exact (he k p (SortedMap.getElem?_erase_eq_some_iff.1 hk).2).later h (h.trans hrun hsettled)
    · have hsettled : R c₁ { c₁ with executor := c₁.executor.settle id (some task) } :=
        hb.resumed hc (htask id task rfl) hrun
      refine ⟨h.trans hrun hsettled, fun k p hk ↦ ?_⟩
      obtain ⟨-, rfl⟩ | ⟨-, hk⟩ := SortedMap.getElem?_insert_eq_some_iff.1 hk
      · exact hpolled.obeys.later h hsettled
      · exact (he k p hk).later h (h.trans hrun hsettled)

theorem work (h : Hosts R) (hb : Runs R b c) {e : Engine γ} (hc : R c e.core) (he : e.Obeys R) :
    R e.core (e.work b).2.core ∧ (e.work b).2.Obeys R := by
  have hdelivered := h.delivered e.core
  rw [Engine.work]
  split
  · rename_i c₁ heq
    rw [heq] at hdelivered
    exact ⟨hdelivered, he.later h hdelivered⟩
  · rename_i c₁ heq
    rw [heq] at hdelivered
    obtain ⟨hrun, hobeys⟩ := h.pollNext hb (e := { e with core := c₁ }) (h.trans hc hdelivered)
      (he.later h hdelivered)
    exact ⟨h.trans hdelivered hrun, hobeys⟩

theorem settle (h : Hosts R) {e : Engine γ} (he : e.Obeys R) :
    R e.core e.settle.2.core ∧ e.settle.2.Obeys R := by
  have hresolved := h.resolveQuiescence e.core
  rw [Engine.settle]
  split
  · rename_i c₁ heq
    rw [heq] at hresolved
    exact ⟨hresolved, he.later h hresolved⟩
  · rename_i c₁ heq
    rw [heq] at hresolved
    have hfailed := h.trans hresolved (h.failed c₁ (hasWork_of_resolveQuiescence heq))
    exact ⟨hfailed, he.later h hfailed⟩

end Core.Hosts

/-! ## Between two steps of the engine -/

/-- The states that the engine is in between two of its steps, from the start on: as long as there
is something to do it does it, and otherwise it deals with quiescence until the root unit has
reported. -/
inductive Engine.Reachable (b : Behaviour γ) (setup : Setup) (root : UnitId) (code : γ)
    (previous : Option Report) : Engine γ → Prop where
  | start : Reachable b setup root code previous ⟨Core.start setup root code previous, ∅⟩
  | work {e : Engine γ} (h : Reachable b setup root code previous e) :
      Reachable b setup root code previous (e.work b).2
  | settle {e : Engine γ} (h : Reachable b setup root code previous e) (hidle : (e.work b).1 = false)
      (hreport : (e.work b).2.core.rootReport = none) :
      Reachable b setup root code previous (e.work b).2.settle.2

section

variable {b : Behaviour γ} {setup : Setup} {root : UnitId} {code : γ} {previous : Option Report}
  {e : Engine γ}

/-- What contains the pieces contains the way to every state between two steps. -/
theorem Core.Hosts.reachable (h : Hosts R) (hb : Hosts.Runs R b (start setup root code previous))
    (he : e.Reachable b setup root code previous) :
    R (start setup root code previous) e.core ∧ e.Obeys R := by
  induction he with
  | start => exact ⟨h.refl _, fun _ _ hp ↦ absurd hp (by simp)⟩
  | work _ ih =>
    obtain ⟨hrun, hobeys⟩ := ih
    obtain ⟨hworked, hobeys⟩ := h.work hb hrun hobeys
    exact ⟨h.trans hrun hworked, hobeys⟩
  | settle _ _ _ ih =>
    obtain ⟨hrun, hobeys⟩ := ih
    obtain ⟨hworked, hobeys⟩ := h.work hb hrun hobeys
    obtain ⟨hsettled, hobeys⟩ := h.settle hobeys
    exact ⟨h.trans hrun (h.trans hworked hsettled), hobeys⟩

theorem Engine.exists_reachable_drive (he : e.Reachable b setup root code previous) (n : Nat) :
    ∃ e' : Engine γ, e'.Reachable b setup root code previous ∧ e'.core = (drive b n e).2 := by
  induction n generalizing e with
  | zero => exact ⟨e, he, rfl⟩
  | succ n ih =>
    have hworked := he.work
    rw [drive]
    split
    · rename_i e₁ heq
      rw [heq] at hworked
      exact ih hworked
    · rename_i e₁ heq
      rw [heq] at hworked
      split
      · exact ⟨e₁, hworked, rfl⟩
      · rename_i hreport
        have hsettled := he.settle (by rw [heq]) (by rw [heq]; exact hreport)
        rw [heq] at hsettled
        split
        · rename_i e₂ heq
          rw [heq] at hsettled
          exact ih hsettled
        · rename_i e₂ heq
          rw [heq] at hsettled
          exact ⟨e₂, hsettled, rfl⟩

/-- The state that a run ends in is one of them. -/
theorem Engine.exists_reachable_run (b : Behaviour γ) (setup : Setup) (root : UnitId) (code : γ)
    (previous : Option Report) : ∃ e : Engine γ, e.Reachable b setup root code previous ∧
      e.core = (run b setup root code previous).2 := by
  rw [run]
  split
  · split
    · exact ⟨_, .start, rfl⟩
    · exact exists_reachable_drive .start _
  · exact exists_reachable_drive .start _

end

/-! ## Operations of a kind -/

/-- Whether an operation is one that the engine carries out by itself. -/
def UnitOp.IsOwn : {α : Type} → UnitOp γ α → Prop
  | _, eagerStart | _, subUnitFinished _ | _, release _ | _, restart _ | _, endLocalPhase
  | _, grantClosures | _, failStuck => True
  | _, _ => False

theorem UnitOp.IsUrging.isOwn {op : UnitOp γ α} (h : op.IsUrging) : op.IsOwn := by
  cases op <;> trivial

/-- An operation of a task carries out only operations of a certain kind on units. The kind may
depend on the unit. -/
def Op.Uses (A : UnitId → (α : Type) → UnitOp γ α → Prop) : {α : Type} → Op γ α → Prop
  | _, onUnit id op => A id _ op
  | _, _ => True

/-- A process carries out only operations of a certain kind on units, whatever their answers are. -/
def Proc.Uses (A : UnitId → (α : Type) → UnitOp γ α → Prop) : {α : Type} → Proc γ α → Prop
  | _, done _ => True
  | _, perform op next => op.Uses A ∧ ∀ c : Core γ, (next (c.perform op).1).Uses A
  | _, await _ next => ∀ v, (next v).Uses A
  | _, yield next => next.Uses A
  | _, never => True
  | _, together _ parts next => (∀ i, (parts i).Uses A) ∧ ∀ r, (next r).Uses A

theorem Proc.Uses.mono {A' : UnitId → (α : Type) → UnitOp γ α → Prop}
    (hAA' : ∀ {id : UnitId} {α : Type} {op : UnitOp γ α}, A id α op → A' id α op) {p : Proc γ α}
    (hp : p.Uses A) : p.Uses A' := by
  induction p with
  | done | never => trivial
  | perform op next ih =>
    refine ⟨?_, fun c ↦ ih _ (hp.2 c)⟩
    cases op with
    | onUnit id op => exact hAA' hp.1
    | look | answer | openLedger | enter | closeLedger | write => trivial
  | await channel next ih => exact fun v ↦ ih v (hp v)
  | yield next ih => exact ih hp
  | together turns parts next ih ihnext => exact ⟨fun i ↦ ih i (hp.1 i), fun r ↦ ihnext r (hp.2 r)⟩

theorem Proc.uses_of_forall (hA : ∀ {id : UnitId} {α : Type} (op : UnitOp γ α), A id α op)
    (p : Proc γ α) : p.Uses A := by
  induction p with
  | done | never => trivial
  | perform op next ih =>
    refine ⟨?_, fun c ↦ ih _⟩
    cases op with
    | onUnit id op => exact hA op
    | look | answer | openLedger | enter | closeLedger | write => trivial
  | await channel next ih => exact ih
  | yield next ih => exact ih
  | together turns parts next ih ihnext => exact ⟨ih, ihnext⟩

/-- What tasks do besides is done by the engine, too. -/
theorem Core.Hosts.perform (h : Hosts R) {op : Op γ α} (hop : op.Uses A)
    (hA : ∀ {id : UnitId} {α : Type} {op : UnitOp γ α}, A id α op → R c (c.atUnit id op).2) :
    R c (c.perform op).2 := by
  cases op with
  | onUnit id op => exact hA hop
  | look u f =>
    rw [Core.perform]
    split <;> exact h.refl c
  | answer channel p => exact h.fill c _ _
  | openLedger | enter | closeLedger | write => exact h.calm rfl ⟨rfl, rfl, rfl⟩ rfl rfl rfl

/-- A process obeys a relation that contains the operations that it carries out on units. -/
theorem Proc.Uses.obeys (h : Hosts R) {p : Proc γ α} (hp : p.Uses A)
    (hA : ∀ c', R c c' → ∀ {id : UnitId} {α : Type} {op : UnitOp γ α}, A id α op →
      R c' (c'.atUnit id op).2) : p.Obeys R c := by
  induction p generalizing c with
  | done | never => trivial
  | perform op next ih =>
    intro c' hc
    have hdone : R c' (c'.perform op).2 := h.perform hp.1 (hA c' hc)
    exact ⟨hdone, ih _ (hp.2 c') fun c'' hc' ↦ hA c'' (h.trans hc (h.trans hdone hc'))⟩
  | await channel next ih => exact fun v ↦ ih v (hp v) hA
  | yield next ih => exact ih hp hA
  | together turns parts next ih ihnext =>
    exact ⟨fun i ↦ ih i (hp.1 i) hA, fun r ↦ ihnext r (hp.2 r) hA⟩

namespace Core

/-- A relation between states contains everything that happens in runs where tasks carry out only
operations of a certain kind. -/
structure Admits (B : (α : Type) → UnitOp γ α → Prop) (R : Core γ → Core γ → Prop) : Prop where
  own {α : Type} {op : UnitOp γ α} : op.IsOwn → B α op
  refl (c : Core γ) : R c c
  trans {c c' c'' : Core γ} : R c c' → R c' c'' → R c c''
  other {c c' : Core γ} : c'.units = c.units → c'.setup = c.setup → c'.mail = c.mail →
    c'.detector.graph = c.detector.graph → R c c'
  acted {c : Core γ} {id : UnitId} {u : UnitNode γ} {α : Type} {op : UnitOp γ α} :
    c.units[id]? = some u → B α op → R c (c.carryOut id u op)
  handled {c : Core γ} {id : UnitId} {u : UnitNode γ} {m : Message} {mail : Mailboxes Message} :
    c.units[id]? = some u → c.mail.next = some ((id, m), mail) →
      R c ({ c with mail := mail }.carryOut id u (.handle m))
  missed {c : Core γ} {id : UnitId} {m : Message} {mail : Mailboxes Message} :
    c.units[id]? = none → c.mail.next = some ((id, m), mail) → R c { c with mail := mail }
  dropped {c c' : Core γ} : c'.units = c.units → c'.setup = c.setup →
    c'.mail = c.mail.dropParked.2 → c'.detector.graph = c.detector.graph → R c c'

/-- Runs contain themselves, whatever tasks do. -/
theorem admits_reaches : Admits (fun _ _ ↦ True) (Reaches (γ := γ)) where
  own _ := trivial
  refl := .refl
  trans := .trans
  other hunits hsetup _ _ := (Reaches.refl _).other hunits hsetup
  acted hu _ := reaches_carryOut hu _
  handled {c _ _ m mail} hu _ :=
    ((Reaches.refl c).other (d := { c with mail := mail }) rfl rfl).trans
      (reaches_carryOut (c := { c with mail := mail }) hu (.handle m))
  missed _ _ := (Reaches.refl _).other rfl rfl
  dropped hunits hsetup _ _ := (Reaches.refl _).other hunits hsetup

/-- A relation between states contains what follows from an operation on a unit: tasks are spawned,
and units are told of sub-units that have finished. -/
structure Relays (R : Core γ → Core γ → Prop) : Prop where
  refl (c : Core γ) : R c c
  trans {c c' c'' : Core γ} : R c c' → R c' c'' → R c c''
  other {c c' : Core γ} : c'.units = c.units → c'.setup = c.setup → c'.mail = c.mail →
    c'.detector.graph = c.detector.graph → R c c'
  received {c : Core γ} {id : UnitId} {u : UnitNode γ} : c.units[id]? = some u →
    ∀ report, R c (c.carryOut id u (.subUnitFinished report))

namespace Relays

theorem spawnAll (h : Relays R) (hc : R c c') (ts : List (Task γ)) : R c (ts.foldl spawn c') :=
  foldl_of_trans (R := R) h.trans (fun _ _ _ ↦ h.other rfl rfl rfl rfl) hc

theorem handReport (h : Relays R) (c : Core γ) (origin : UnitId) (report : Report) (n : Nat) :
    R c (c.handReport origin report n).2 := by
  induction n generalizing c origin report with
  | zero => exact h.refl c
  | succ n ih =>
    rw [Core.handReport]
    split
    · dsimp only
      split
      · exact h.other rfl rfl rfl rfl
      · exact h.refl c
    · rename_i parent _
      split
      · exact h.refl c
      · rename_i u hu
        have hreceived : R c (c.carryOut parent u (.subUnitFinished report)) := h.received hu report
        dsimp only
        split
        · exact hreceived
        · exact h.trans hreceived (ih _ _ _)

/-- What follows from an operation on a unit: tasks are spawned, and reports are handed on. -/
theorem atUnit (h : Relays R) {id : UnitId} {u : UnitNode γ} (hu : c.units[id]? = some u)
    {op : UnitOp γ α} (hc : R c' (c.carryOut id u op)) : R c' (c.atUnit id op).2 := by
  rw [Core.atUnit, hu]
  dsimp only
  split
  · exact h.spawnAll hc _
  · exact h.spawnAll (h.trans hc (h.handReport _ _ _ _)) _

end Relays

namespace Admits

theorem relays (h : Admits B R) : Relays R where
  refl := h.refl
  trans := h.trans
  other := h.other
  received hu _ := h.acted hu (h.own trivial)

theorem atUnit (h : Admits B R) (c : Core γ) (id : UnitId) {op : UnitOp γ α} (hop : B α op) :
    R c (c.atUnit id op).2 := by
  cases hu : c.units[id]? with
  | none =>
    rw [atUnit_of_none hu]
    exact h.refl c
  | some u => exact h.relays.atUnit hu (h.acted hu hop)

theorem deliverNext (h : Admits B R) (c : Core γ) : R c c.deliverNext.2 := by
  rw [Core.deliverNext]
  split
  · exact h.refl c
  · rename_i id m mail hnext
    cases hu : c.units[id]? with
    | none =>
      rw [atUnit_of_none (c := { c with mail := mail }) hu]
      exact h.missed hu hnext
    | some u => exact h.relays.atUnit (c := { c with mail := mail }) hu (h.handled hu hnext)

/-- What the engine does by itself is among the operations that are admitted. -/
theorem hosts (h : Admits B R) : Hosts R where
  refl := h.refl
  trans := h.trans
  other hunits hframe hmail hgraph _ := h.other hunits hframe.setup hmail hgraph
  urged c id _ _ hop := h.atUnit c id (h.own hop.isOwn)
  failed c _ := foldl_of_trans (R := R) h.trans (fun u _ c ↦ h.atUnit c u (h.own trivial)) (h.refl c)
  delivered := h.deliverNext
  dropped hunits hframe hmail hgraph _ := h.dropped hunits hframe.setup hmail hgraph

end Admits

/-- Whatever is done to a unit, with everything that follows from it. -/
theorem reaches_atUnit (c : Core γ) (id : UnitId) (op : UnitOp γ α) : Reaches c (c.atUnit id op).2 :=
  admits_reaches.atUnit c id trivial

end Core

open Core (Admits)

/-- What contains the operations contains the way to every state between two steps. -/
theorem Core.Admits.reachable (h : Admits B R) {b : Behaviour γ} {setup : Setup} {root : UnitId}
    {code : γ} {previous : Option Report} {e : Engine γ}
    (hb : ∀ setup task, (Engine.process b setup task).Uses fun _ ↦ B)
    (he : e.Reachable b setup root code previous) : R (start setup root code previous) e.core :=
  (h.hosts.reachable ⟨fun _ _ ↦ (hb _ _).obeys h.hosts fun c' _ _ _ _ hop ↦ h.atUnit c' _ hop,
    fun _ _ _ ↦ h.other rfl rfl rfl rfl⟩ he).1

/-- **What contains the pieces contains the run.** Everything that the engine does, from the start
to the end of a run, is put together from what the relation admits, if all processes carry out only
operations of the kind that it admits. -/
theorem Core.Admits.run (h : Admits B R) {b : Behaviour γ}
    (hb : ∀ setup task, (Engine.process b setup task).Uses fun _ ↦ B) (setup : Setup) (root : UnitId)
    (code : γ) (previous : Option Report) :
    R (Core.start setup root code previous) (Engine.run b setup root code previous).2 := by
  obtain ⟨e, he, heq⟩ := Engine.exists_reachable_run b setup root code previous
  rw [← heq]
  exact h.reachable hb he

/-- **The engine takes steps.** Whatever the engine does, from the start to the end of a run, is a
sequence of operations on units, arrivals of new units and changes that concern no unit. -/
theorem Engine.reaches_run (b : Behaviour γ) (setup : Setup) (root : UnitId) (code : γ)
    (previous : Option Report) :
    Core.Reaches (Core.start setup root code previous) (run b setup root code previous).2 :=
  Core.admits_reaches.run (fun _ _ ↦ Proc.uses_of_forall (fun _ ↦ trivial) _) setup root code
    previous

end ScopeGraphs
