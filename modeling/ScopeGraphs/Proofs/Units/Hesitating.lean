import ScopeGraphs.Proofs.Engine.Finality
import ScopeGraphs.Proofs.Units.Abating
import ScopeGraphs.Proofs.Units.Recording

/-!
# What an undecided unit asserts

A unit that has asked whether its previous result still holds is undecided until it is told to
reuse that result or to run. Its fragment should not change in the meantime, or else what is
confirmed and replayed is not what the unit holds. Whatever commits a unit to running is refused
while it is undecided: adding edges, asking queries and creating scopes of its own
(`Action.attempt_of_commits`).

Setting a datum commits a unit to nothing. It is refused only if the slot of the datum is closed,
and slots of an undecided unit may be open: those of scopes that were created to be shared before
the unit asked, and those that were open in the snapshot it has resumed. Such a datum is set, and
nothing else that a checker does changes the graphs of an undecided unit
(`Action.sameGraphs_attempt_iff`). As long as a unit is undecided, its graphs change through such
data and through edges that arrive from other units, and in no other way
(`Core.graphs_stay_iff`).
-/

namespace ScopeGraphs

variable {γ α : Type}

/-! ## Graphs that stay the same -/

/-- The second unit has the same fragment as the first, and has asserted the same. -/
def UnitNode.SameGraphs (u v : UnitNode γ) : Prop :=
  v.graph = u.graph ∧ v.localGraph = u.localGraph

namespace ScopeGraph

variable {g : ScopeGraph} {e : Edge} {s : Scope} {d : Datum}

theorem addEdge_eq_self_iff : g.addEdge e = g ↔ e ∈ g.edges := by
  constructor
  · intro h
    rw [← h]
    exact mem_edges_addEdge.2 (.inl rfl)
  · intro h
    refine congrArg (ScopeGraph.mk · g.data) (Std.ExtTreeSet.ext_mem fun e' ↦ ?_)
    rw [SortedSet.mem_insert_iff, or_iff_right_iff_imp]
    rintro rfl
    exact h

theorem setDatum_eq_self_iff : g.setDatum s d = g ↔ g.datum? s = some d := by
  constructor
  · intro h
    rw [← h, datum?, setDatum, SortedMap.getElem?_insert_eq, if_pos rfl]
  · intro h
    refine congrArg (ScopeGraph.mk g.edges) (Std.ExtTreeMap.ext_getElem? fun s' ↦ ?_)
    rw [SortedMap.getElem?_insert_eq]
    split
    · rename_i heq
      rw [← heq]
      exact h.symm
    · rfl

end ScopeGraph

namespace Turn

variable {t t' : Turn γ}

theorem Records.sameGraphs (h : t.Records [] [] t') : t.unit.SameGraphs t'.unit :=
  ⟨h.graph, h.localGraph⟩

theorem Moves.sameGraphs (h : t.Moves Deed.IsSilent t') : t.unit.SameGraphs t'.unit :=
  h.records.sameGraphs

end Turn

/-! ## Data -/

/-- Whether a checker can set the datum of a scope. -/
def UnitNode.TakesDatum (u : UnitNode γ) (s : Scope) : Prop :=
  u.mayAct = true ∧ u.owns s = true ∧ u.scopes.contains s = true ∧
    u.waits.contains (.closeSlot s .datum) = true

/-- Whether a unit holds a datum, in its fragment and in what it has asserted itself. -/
def UnitNode.HoldsDatum (u : UnitNode γ) (s : Scope) (d : Datum) : Prop :=
  u.graph.datum? s = some d ∧ u.localGraph.datum? s = some d

namespace Attempt

variable {t : Turn γ} {s : Scope}

theorem setDatum_of_takesDatum (h : t.unit.TakesDatum s) (d : Datum) :
    setDatum s d t = (.ok ⟨⟩, (t.assertDatum s d).grant (.closeSlot s .datum) t.unit.id) := by
  obtain ⟨hact, hown, hknown, hopen⟩ := h
  rw [setDatum, requireLive_bind, if_pos hact, unit_bind, require_bind, if_pos hown,
    requireKnown_bind, if_pos hknown, require_bind, if_pos hopen]
  rfl

/-- A datum that cannot be set is refused, and the unit is left as it was. -/
theorem setDatum_of_not_takesDatum (h : ¬ t.unit.TakesDatum s) (d : Datum) :
    (setDatum s d t).2 = t := by
  rw [setDatum, requireLive_bind]
  split
  · rename_i hact
    rw [unit_bind, require_bind]
    split
    · rename_i hown
      rw [requireKnown_bind]
      split
      · rename_i hknown
        rw [require_bind, if_neg fun hopen ↦ h ⟨hact, hown, hknown, hopen⟩]
      · rfl
    · rfl
  · rfl

/-- Setting a datum changes the graphs of a unit exactly if it can be set and is not there. -/
theorem sameGraphs_setDatum_iff (d : Datum) :
    t.unit.SameGraphs (setDatum s d t).2.unit ↔
      ¬ (t.unit.TakesDatum s ∧ ¬ t.unit.HoldsDatum s d) := by
  by_cases htakes : t.unit.TakesDatum s
  · have hown : s.owner = t.unit.id := UnitNode.owns_iff.1 htakes.2.1
    have hset : t.Records [] [(s, d)] (t.assertDatum s d) := .assertDatum t s d
    have hgranted : (t.assertDatum s d).Moves Deed.IsSilent
        ((t.assertDatum s d).grant (.closeSlot s .datum) t.unit.id) :=
      (Turn.Moves.refl _).grant trivial
    have hrecords := hset.moves hgranted
    have hkept : [(s, d)].filter (fun e ↦ e.1.owner = t.unit.id) = [(s, d)] := by simp [hown]
    rw [setDatum_of_takesDatum htakes, UnitNode.SameGraphs, hrecords.graph, hrecords.localGraph,
      hkept]
    have hboth : t.unit.graph.setDatum s d = t.unit.graph ∧
        t.unit.localGraph.setDatum s d = t.unit.localGraph ↔ t.unit.HoldsDatum s d :=
      and_congr ScopeGraph.setDatum_eq_self_iff ScopeGraph.setDatum_eq_self_iff
    exact hboth.trans (by simp [htakes])
  · rw [setDatum_of_not_takesDatum htakes]
    exact iff_of_true ⟨rfl, rfl⟩ fun h ↦ htakes h.1

end Attempt

/-! ## What a checker does -/

namespace Action

/-- Whether an action commits a unit to running. -/
def Commits : {α : Type} → Action γ α → Prop
  | _, freshScope _ _ _ sharing => sharing = false
  | _, addEdge _ | _, beginQuery _ => True
  | _, _ => False

/-- Whether an action sets a datum that the unit does not hold. -/
def SetsDatum (u : UnitNode γ) : {α : Type} → Action γ α → Prop
  | _, setDatum s d => u.TakesDatum s ∧ ¬ u.HoldsDatum s d
  | _, _ => False

variable {t : Turn γ}

/-- An undecided unit refuses whatever would commit it, and stays as it was. -/
theorem attempt_of_commits (hphase : t.unit.phase = .undecided) (hact : t.unit.mayAct = true)
    {a : Action γ α} (ha : a.Commits) :
    (a.attempt t).1 = .error (.illegalState (.undecided t.unit.id)) ∧
      (a.attempt t).2.unit = t.unit := by
  cases a with
  | freshScope base labels hasDatum sharing =>
    obtain rfl : sharing = false := ha
    have hrefused : Attempt.freshScope base labels hasDatum false t =
        (.error (.illegalState (.undecided t.unit.id)), t) := by
      rw [Attempt.freshScope_eq, Attempt.requireLive_bind, if_pos hact, if_neg Bool.false_ne_true,
        Attempt.commit_bind, if_pos hphase]
    rw [Action.attempt, hrefused]
    exact ⟨rfl, rfl⟩
  | addEdge e =>
    have hrefused : Attempt.addEdge e t = (.error (.illegalState (.undecided t.unit.id)), t) := by
      rw [Attempt.addEdge, Attempt.requireLive_bind, if_pos hact, Attempt.commit_bind,
        if_pos hphase]
    rw [Action.attempt, hrefused]
    exact ⟨rfl, rfl⟩
  | beginQuery path =>
    -- The request gets a number before it is refused.
    have hrefused : Attempt.beginQuery path t =
        (.error (.illegalState (.undecided t.unit.id)), t.newRequest.2) := by
      rw [Attempt.beginQuery, Attempt.bind_apply]
      change ((Attempt.requireLive >>= _) t.newRequest.2) = _
      rw [Attempt.requireLive_bind, if_pos (by exact hact), Attempt.commit_bind,
        if_pos (by exact hphase)]
      rfl
    rw [Action.attempt, hrefused]
    exact ⟨rfl, rfl⟩
  | initScope | shareScope | setDatum | closeLabel | closeScope | addSubUnit | askForReuse =>
    exact ha.elim

/-- What a checker does leaves the graphs of an undecided unit as they are, unless it sets a
datum. -/
theorem sameGraphs_attempt_iff (hphase : t.unit.phase = .undecided) (a : Action γ α) :
    t.unit.SameGraphs (a.attempt t).2.unit ↔ ¬ a.SetsDatum t.unit := by
  have hsilent {x : Attempt γ α} (h : x.Does (Deed.IsDiscreet t.unit.id) t.unit.id) :
      t.unit.SameGraphs (x t).2.unit ↔ ¬ False :=
    iff_of_true ((h t rfl).mono fun _ h ↦ h.isSilent).sameGraphs not_false
  have hcalm {x : Attempt γ α} (h : x.Does (Deed.IsCalm t.unit.id) t.unit.id) :
      t.unit.SameGraphs (x t).2.unit ↔ ¬ False :=
    hsilent (h.mono fun _ h ↦ h.isDiscreet)
  cases a with
  | setDatum s d => exact Attempt.sameGraphs_setDatum_iff d
  | addEdge e =>
    refine iff_of_true ?_ not_false
    by_cases hact : t.unit.mayAct = true
    · rw [(attempt_of_commits hphase hact (a := addEdge e) trivial).2]
      exact ⟨rfl, rfl⟩
    · rw [Action.attempt, Attempt.addEdge, Attempt.requireLive_bind, if_neg hact]
      exact ⟨rfl, rfl⟩
  | askForReuse =>
    have hlate : ¬ decide (t.unit.phase = .started) = true := by simp [hphase]
    rw [Action.attempt, Attempt.askForReuse, Attempt.unit_bind, Attempt.require_bind, if_neg hlate]
    exact iff_of_true ⟨rfl, rfl⟩ not_false
  | freshScope base labels hasDatum sharing =>
    exact hcalm (Attempt.does_freshScope base labels hasDatum sharing)
  | initScope s labels sharing => exact hsilent (Attempt.does_initScope s labels sharing)
  | shareScope s => exact hcalm (Attempt.does_shareScope s)
  | closeLabel s l => exact hsilent (Attempt.does_closeLabel s l)
  | closeScope s => exact hcalm (Attempt.does_closeScope s)
  | beginQuery path => exact hcalm (Attempt.does_beginQuery path)
  | addSubUnit name kind roots changed =>
    exact hsilent (Attempt.does_addSubUnit name kind roots changed (fun _ h ↦ h.isDiscreet)
      fun _ h _ ↦ h)

/-- **What an undecided unit refuses.** Whatever a checker does with an undecided unit leaves the
graphs of the unit as they are, unless it sets a datum of a scope of the unit whose slot is open.
Whatever would commit the unit to running is refused with this reason, and nothing happens to the
unit. -/
theorem undecided_iff (hphase : t.unit.phase = .undecided) (a : Action γ α) :
    (t.unit.SameGraphs (a.attempt t).2.unit ↔ ¬ a.SetsDatum t.unit) ∧
      (a.Commits → t.unit.finished = false →
        (a.attempt t).1 = .error (.illegalState (.undecided t.unit.id)) ∧
          (a.attempt t).2.unit = t.unit) := by
  refine ⟨sameGraphs_attempt_iff hphase a, fun ha hunfinished ↦ attempt_of_commits hphase ?_ ha⟩
  rw [UnitNode.mayAct, hphase, hunfinished]
  rfl

end Action

/-! ### A datum that is set before the decision -/

namespace Core

private def askerId : UnitId := ⟨"root"⟩

private def openScope : Scope := ⟨askerId, "a-0"⟩

/-- The previous run, in which nothing was asserted or asked. -/
private def idleReport : Report :=
  .mk askerId [] .empty .empty (some .unit) [] [] none .initiallyStarted []

private def asked {α : Type} (c : Core Unit) (op : UnitOp Unit α) : Core Unit :=
  (c.atUnit askerId op).2

private def beforeAsking : Core Unit :=
  start ⟨.withReuse .trivial, ["E"], 1⟩ askerId () (some idleReport)

/-- The root unit has created a scope to be shared, with a datum that is still to be set, and has
asked for reuse. -/
private def afterAsking : Core Unit :=
  asked (asked (asked beforeAsking (.handle (.start [])))
    (.act (.freshScope "a" [] true true))) (.act .askForReuse)

private def asker : UnitNode Unit :=
  (afterAsking.units[askerId]?).getD (.new askerId none (.checker ()) none false false)

private def askerTurn : Turn Unit := ⟨asker, .none, .withReuse .trivial, .empty, 0⟩

private theorem reaches_afterAsking : Reaches beforeAsking afterAsking :=
  ((reaches_atUnit _ askerId (.handle (.start []))).trans (reaches_atUnit _ _ _)).trans
    (reaches_atUnit _ _ _)

end Core

/-- The datum is set, and an edge is refused. -/
theorem Action.undecided_iff_datum :
    Core.askerTurn.unit.phase = .undecided ∧
      ¬ Core.askerTurn.unit.SameGraphs
        ((setDatum Core.openScope (.int 1)).attempt Core.askerTurn).2.unit ∧
      ((addEdge ⟨Core.openScope, "E", Core.openScope⟩).attempt Core.askerTurn).1 =
        .error (.illegalState (.undecided Core.askerId)) := by
  have hphase : Core.askerTurn.unit.phase = .undecided := by rfl
  refine ⟨hphase, ?_, ?_⟩
  · rw [(undecided_iff hphase (setDatum Core.openScope (.int 1))).1, not_not]
    exact ⟨⟨by rfl, by rfl, by rfl, by rfl⟩, fun hholds ↦ absurd hholds.1 nofun⟩
  · exact ((undecided_iff hphase (addEdge ⟨Core.openScope, "E", Core.openScope⟩)).2 trivial
      (by rfl)).1

/-- **An undecided unit may change.** There is a run in which the checker of an undecided unit
changes the fragment of the unit. -/
theorem Core.not_always_unchanged :
    ¬ ∀ (setup : Setup) (root : UnitId) (previous : Option Report) (c : Core Unit)
      (u v : UnitNode Unit) (s : Scope) (d : Datum),
      Reaches (start setup root () previous) c → c.units[u.id]? = some u →
      u.phase = .undecided → (c.atUnit u.id (.act (.setDatum s d))).2.units[u.id]? = some v →
      u.SameGraphs v := by
  intro h
  have hdatum : (asked afterAsking (.act (.setDatum openScope (.int 1)))).units[askerId]?.map
      (fun v ↦ v.graph.datum? openScope) = some (some (.int 1)) := by rfl
  obtain ⟨v, hv, hset⟩ := Option.map_eq_some_iff.1 hdatum
  have hnone : asker.graph.datum? openScope = none := by rfl
  have hsame := h _ _ _ afterAsking asker v openScope (.int 1) reaches_afterAsking (by rfl) (by rfl)
    hv
  rw [hsame.1, hnone] at hset
  exact absurd hset nofun

/-! ## Whole runs -/

namespace UnitOp

variable {t : Turn γ}

/-- Whether an operation changes the graphs of a unit that stays undecided: its checker sets a
datum, or an edge arrives that the unit does not have. -/
def Alters (u : UnitNode γ) : {α : Type} → UnitOp γ α → Prop
  | _, act a => a.SetsDatum u
  | _, handle (.addEdge _ e) => u.owns e.source = true ∧ e ∉ u.graph.edges
  | _, _ => False

theorem sameGraphs_handle_iff (hphase : t.unit.phase = .undecided) (m : Message) :
    t.unit.SameGraphs (t.handle m).unit ↔ ¬ (handle m).Alters t.unit := by
  cases m with
  | start roots =>
    have hnot : t.unit.phase ≠ .created := by simp [hphase]
    change t.unit.SameGraphs (t.start roots).unit ↔ ¬ False
    rw [Turn.start, if_pos hnot]
    exact iff_of_true ⟨rfl, rfl⟩ not_false
  | addEdge sender e =>
    change t.unit.SameGraphs (t.receiveEdge e).unit ↔ ¬ (t.unit.owns e.source = true ∧ _)
    rw [Turn.receiveEdge]
    split
    · rename_i hown
      have hsame : t.unit.SameGraphs { t.unit with graph := t.unit.graph.addEdge e } ↔
          e ∈ t.unit.graph.edges :=
        (and_iff_left rfl).trans ScopeGraph.addEdge_eq_self_iff
      exact hsame.trans (by simp [hown])
    · rename_i hforeign
      exact iff_of_true ⟨rfl, rfl⟩ fun h ↦ hforeign h.1
  | initShare sender s slots sharing =>
    refine iff_of_true (Turn.Moves.sameGraphs ?_) not_false
    exact t.moves_shareInitialized _ _ _ _ (fun _ ↦ trivial) trivial trivial
  | addShare sender s =>
    exact iff_of_true ((Turn.Moves.refl t).waitFor trivial).sameGraphs not_false
  | unitStarted | closeEdge | closeScope =>
    exact iff_of_true ((Turn.Moves.refl t).grant trivial).sameGraphs not_false
  | query | queryPrevious | confirm | counterpart =>
    exact iff_of_true ⟨rfl, rfl⟩ not_false

/-- The graphs of a unit that stays undecided change through data that its checker sets and through
edges that arrive, and in no other way. -/
theorem sameGraphs_run_iff (hphase : t.unit.phase = .undecided) (op : UnitOp γ α)
    (hafter : (op.run t).2.unit.phase = .undecided) :
    t.unit.SameGraphs (op.run t).2.unit ↔ ¬ op.Alters t.unit := by
  have hsilent {t' : Turn γ} (h : t.Moves Deed.IsSilent t') :
      t.unit.SameGraphs t'.unit ↔ ¬ False :=
    iff_of_true h.sameGraphs not_false
  have hcalm {t' : Turn γ} (h : t.Moves (Deed.IsCalm t.unit.id) t') :
      t.unit.SameGraphs t'.unit ↔ ¬ False :=
    hsilent (h.mono fun _ h ↦ h.isSilent)
  cases op with
  | act a => exact Action.sameGraphs_attempt_iff hphase a
  | handle m => exact sameGraphs_handle_iff hphase m
  | release p =>
    -- A unit that is released is undecided no longer.
    have hkept : t.canRelease = false := by
      by_contra hreleased
      exact (t.abated_release p (by simpa using hreleased)).2 hafter
    have hnone : t.unit.previous = none := by
      simpa [Turn.canRelease, hphase] using hkept
    change t.unit.SameGraphs (t.release p).unit ↔ ¬ False
    rw [t.release_of_not fun previous _ hsome ↦ by simp [hnone] at hsome]
    exact iff_of_true ⟨rfl, rfl⟩ not_false
  | begin | keepState => exact iff_of_true ⟨rfl, rfl⟩ not_false
  | eagerStart => exact hcalm t.moves_eagerStart
  | checkerFinished result => exact hcalm (t.moves_checkerFinished result)
  | awaitDecided => exact hsilent t.moves_awaitDecided
  | awaitClosed s slot => exact hsilent (t.moves_awaitClosed s slot)
  | awaitOpen => exact hsilent t.moves_awaitOpen
  | awaitDecision => exact hsilent t.moves_awaitDecision
  | awaitReport => exact hsilent t.moves_awaitReport
  | ask q => exact hcalm (t.moves_ask q)
  | endAsking ticket => exact hsilent (t.moves_endAsking ticket trivial)
  | endQuery token record => exact hsilent (t.moves_endQuery token record trivial)
  | matchStep s => exact hsilent (t.moves_matchStep s)
  | diffScope s labels => exact hsilent (t.moves_diffScope s labels)
  | subUnitFinished r => exact hsilent (t.moves_subUnitFinished r)
  | restart trace => exact hcalm (t.moves_restart trace)
  | endLocalPhase => exact hsilent t.moves_captureEnd
  | grantClosures => exact hsilent (t.moves_grantClosures (fun _ _ ↦ trivial) trivial)
  | failStuck =>
    have hdiscreet : t.Moves (Deed.IsDiscreet t.unit.id) t.failStuck := t.moves_failStuck
    exact hsilent (hdiscreet.mono fun _ h ↦ h.isSilent)

end UnitOp

/-- Whether something that happens changes the graphs of a unit that stays undecided. -/
def Event.Alters (id : UnitId) : Event γ → Prop
  | turn u op => u.id = id ∧ op.Alters u
  | joined _ | other => False

namespace Core

variable {c c' : Core γ} {id : UnitId}

/-- A unit is undecided, and has the given graphs. -/
def Hesitates (c : Core γ) (id : UnitId) (fragment asserted : ScopeGraph) : Prop :=
  ∃ u, c.units[id]? = some u ∧ u.phase = .undecided ∧ u.graph = fragment ∧ u.localGraph = asserted

variable {fragment asserted : ScopeGraph}

/-- What one step makes of the graphs of a unit that stays undecided. -/
theorem Step.hesitates_iff {e : Event γ} (h : Step c e c') (hfiled : c.Filed)
    (hbefore : c.Hesitates id fragment asserted)
    (hafter : ∃ u, c'.units[id]? = some u ∧ u.phase = .undecided) :
    c'.Hesitates id fragment asserted ↔ ¬ e.Alters id := by
  obtain ⟨u, hu, hphase, rfl, rfl⟩ := hbefore
  cases h with
  | turn h op =>
    rename_i id' u' _
    have hid' : u'.id = id' := hfiled id' u' h
    by_cases hsame : id' = id
    · subst hsame
      obtain rfl : u = u' := Option.some.inj (hu.symm.trans h)
      let t : Turn γ := ⟨u, .none, c.setup.settings, c.channels, c.nextRequest⟩
      have hturned : (c.turn u op).2.2.units[id']? = some (op.run t).2.unit := by
        rw [units_turn, SortedMap.getElem?_insert_eq, if_pos hid']
      obtain ⟨v, hv, hphase'⟩ := hafter
      obtain rfl := Option.some.inj (hturned.symm.trans hv)
      have hgraphs := op.sameGraphs_run_iff (t := t) hphase hphase'
      have halters : (Event.turn u op).Alters id' ↔ op.Alters u := and_iff_right hid'
      rw [halters, ← hgraphs]
      constructor
      · rintro ⟨w, hw, -, hgraph, hlocal⟩
        obtain rfl := Option.some.inj (hturned.symm.trans hw)
        exact ⟨hgraph, hlocal⟩
      · rintro ⟨hgraph, hlocal⟩
        exact ⟨_, hturned, hphase', hgraph, hlocal⟩
    · have hstays : (c.turn u' op).2.2.units[id]? = some u := by
        rw [units_turn, SortedMap.getElem?_insert_eq, hid', if_neg hsame]
        exact hu
      exact iff_of_true ⟨u, hstays, hphase, rfl, rfl⟩ fun halters ↦
        hsame (hid'.symm.trans halters.1)
  | joined u' =>
    have hstays : (c.addUnit u').units[id]? = some u := units_addUnit_eq_some_iff.2 (.inl hu)
    exact iff_of_true ⟨u, hstays, hphase, rfl, rfl⟩ not_false
  | other hunits hsetup => exact iff_of_true ⟨u, hunits ▸ hu, hphase, rfl, rfl⟩ not_false

/-- As long as a unit is undecided, its graphs stay what they are exactly if no datum is set by its
checker and no edge arrives from another unit. -/
theorem graphs_stay_iff {after : List (Event γ × Core γ)} (hfiled : c.Filed)
    (hbefore : c.Hesitates id fragment asserted) (hafter : Run c after c')
    (hundecided : ∀ x ∈ after, ∃ u, x.2.units[id]? = some u ∧ u.phase = .undecided) :
    (∀ x ∈ after, x.2.Hesitates id fragment asserted) ↔ ∀ x ∈ after, ¬ x.1.Alters id := by
  induction hafter with
  | nil => simp
  | cons hstep _ ih =>
    have hfirst := hundecided _ List.mem_cons_self
    rw [List.forall_mem_cons, List.forall_mem_cons, hstep.hesitates_iff hfiled hbefore hfirst]
    refine and_congr_right fun hquiet ↦ ih (hstep.filed hfiled) ?_ fun x hx ↦
      hundecided x (List.mem_cons_of_mem _ hx)
    exact (hstep.hesitates_iff hfiled hbefore hfirst).2 hquiet

end Core

end ScopeGraphs
