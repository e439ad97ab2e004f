import ScopeGraphs.Proofs.Units.Conduct
import ScopeGraphs.Proofs.Units.Lives

/-!
# What operations do to the life of a unit

Most of what a unit does in one go leaves its life alone (`Turn.Stays`). What does not is a sequence
of steps of a life (`Turn.Goes`), after which the unit may grant itself tokens and finish
(`Turn.Eases`). `Turn.Lives` puts the two together, and every operation that checkers, tasks and the
engine carry out is of this form (`UnitOp.lives_run`).

The order of the two matters. A unit that finished and went on would not be done for good, or would
wait for something after it has reported. That no operation is cut short by the unit finishing is
due to the soundness of lives: a unit that can still be released or restarted has no result yet, so
granting it tokens finishes nothing.
-/

namespace ScopeGraphs

variable {γ α β : Type} {N : String → Prop}

@[simp] theorem Promise.get?_settle {π : Type} (p : Promise π) (v : π) :
    (p.settle v).get? = p.get?.or (some v) := by
  cases p <;> rfl

@[simp] theorem Promise.get?_await {π : Type} (p : Promise π) (c : ChannelId) :
    (p.await c).get? = p.get? := by
  cases p <;> rfl

/-- The unit whose checker a task runs. -/
def Task.checker? : Task γ → Option UnitId
  | runChecker unit _ _ => some unit
  | _ => none

/-- The units whose checkers are to be run. -/
def Effects.checkers (e : Effects γ) : List UnitId := e.tasks.filterMap Task.checker?

theorem Promise.isSettled_eq {π : Type} (p : Promise π) : p.isSettled = p.get?.isSome := by
  cases p <;> rfl

namespace Turn

/-! ## What leaves a life alone -/

/-- Nothing has happened in the life of the unit. -/
structure Stays (t t' : Turn γ) : Prop where
  life : t'.unit.life = t.unit.life
  newUnits : t'.effects.newUnits = t.effects.newUnits
  checkers : t'.effects.checkers = t.effects.checkers
  finished : t'.effects.finished = t.effects.finished

variable {t t' t'' : Turn γ}

namespace Stays

theorem refl (t : Turn γ) : t.Stays t := ⟨rfl, rfl, rfl, rfl⟩

theorem trans (h : t.Stays t') (h' : t'.Stays t'') : t.Stays t'' :=
  ⟨h'.life.trans h.life, h'.newUnits.trans h.newUnits, h'.checkers.trans h.checkers,
    h'.finished.trans h.finished⟩

theorem edit (h : t.Stays t') {f : UnitNode γ → UnitNode γ} (hf : (f t'.unit).life = t'.unit.life) :
    t.Stays (t'.edit f) :=
  h.trans ⟨hf, rfl, rfl, rfl⟩

theorem send (h : t.Stays t') (receiver : UnitId) (m : Message) : t.Stays (t'.send receiver m) :=
  h.trans ⟨rfl, rfl, rfl, rfl⟩

theorem spawn (h : t.Stays t') {task : Task γ} (htask : task.checker? = none) :
    t.Stays (t'.spawn task) := by
  refine h.trans ⟨rfl, rfl, ?_, rfl⟩
  rw [Effects.checkers, Turn.spawn, List.filterMap_append, List.filterMap_cons, htask]
  exact List.append_nil _

theorem waitFor (h : t.Stays t') (token : Token) (holder : UnitId) :
    t.Stays (t'.waitFor token holder) :=
  h.trans ⟨rfl, rfl, rfl, rfl⟩

theorem newChannel (h : t.Stays t') : t.Stays t'.newChannel.2 := h.trans ⟨rfl, rfl, rfl, rfl⟩

theorem newRequest (h : t.Stays t') : t.Stays t'.newRequest.2 := h.trans ⟨rfl, rfl, rfl, rfl⟩

theorem foldl {ι : Type} {f : Turn γ → ι → Turn γ} (h : t.Stays t') (is : List ι)
    (hf : ∀ i (t : Turn γ), t.Stays (f t i)) : t.Stays (is.foldl f t') := by
  induction is generalizing t' with
  | nil => exact h
  | cons i is ih => exact ih (h.trans (hf i t'))

theorem fillAll (h : t.Stays t') (state : ChannelState Parcel) (cs : List ChannelId) :
    t.Stays (cs.foldl (fill state) t') :=
  h.foldl cs fun _ _ ↦ ⟨rfl, rfl, rfl, rfl⟩

theorem tell (h : t.Stays t') (cs : List ChannelId) (p : Parcel) : t.Stays (t'.tell cs p) :=
  h.fillAll _ _

theorem waitForAll (h : t.Stays t') (tokens : List Token) (holder : UnitId) :
    t.Stays (t'.waitForAll tokens holder) :=
  h.foldl tokens fun token t ↦ (refl t).waitFor token holder

theorem endLocalPhase (h : t.Stays t') : t.Stays t'.endLocalPhase := (h.edit (by rfl)).tell _ _

theorem capture (h : t.Stays t') : t.Stays t'.capture := h.edit (by rfl)

theorem fireDelays (h : t.Stays t') : t.Stays t'.fireDelays := (h.edit (by rfl)).tell _ _

end Stays

/-! ## Finishing -/

/-- The unit has granted itself tokens, and may have finished. Its report is the same as before, and
only a unit that waits for nothing finishes. -/
structure Eases (t t' : Turn γ) : Prop where
  newUnits : t'.effects.newUnits = t.effects.newUnits
  checkers : t'.effects.checkers = t.effects.checkers
  waits : t.unit.waits.isEmpty = true → t'.unit.waits.isEmpty = true
  report : t'.unit.currentReport = t.unit.currentReport
  life : (t'.unit.life = t.unit.life ∧ t'.effects.finished = t.effects.finished) ∨
    (t.unit.life.IsComplete ∧ t'.unit.waits.isEmpty = true ∧
      t'.unit.life = t.unit.life.ended t.unit.currentReport ∧
      t'.effects.finished = some t.unit.currentReport)

namespace Eases

theorem refl (t : Turn γ) : t.Eases t := ⟨rfl, rfl, fun h ↦ h, rfl, .inl ⟨rfl, rfl⟩⟩

theorem trans (h : t.Eases t') (h' : t'.Eases t'') : t.Eases t'' where
  newUnits := h'.newUnits.trans h.newUnits
  checkers := h'.checkers.trans h.checkers
  waits hempty := h'.waits (h.waits hempty)
  report := h'.report.trans h.report
  life := by
    obtain ⟨hlife, hfinished⟩ | ⟨hcomplete, hempty, hlife, hfinished⟩ := h.life
    · obtain ⟨hlife', hfinished'⟩ | hended := h'.life
      · exact .inl ⟨hlife'.trans hlife, hfinished'.trans hfinished⟩
      · rw [hlife, h.report] at hended
        exact .inr hended
    · obtain ⟨hlife', hfinished'⟩ | ⟨hcomplete', -⟩ := h'.life
      · exact .inr ⟨hcomplete, h'.waits hempty, hlife'.trans hlife, hfinished'.trans hfinished⟩
      · -- A unit does not finish twice.
        have hunfinished := hcomplete'.unfinished
        rw [hlife] at hunfinished
        exact nomatch hunfinished

/-- What leaves alone all that matters to finishing. -/
theorem stays (h : t.Eases t') (hstays : t'.Stays t'') (hwaits : t''.unit.waits = t'.unit.waits)
    (hreport : t''.unit.currentReport = t'.unit.currentReport) : t.Eases t'' :=
  h.trans ⟨hstays.newUnits, hstays.checkers, fun hempty ↦ hwaits ▸ hempty, hreport,
    .inl ⟨hstays.life, hstays.finished⟩⟩

theorem tell (h : t.Eases t') (cs : List ChannelId) (p : Parcel) : t.Eases (t'.tell cs p) :=
  h.stays ((Stays.refl t').tell cs p) (by rw [unit_tell]) (by rw [unit_tell])

theorem fireDelays (h : t.Eases t') : t.Eases t'.fireDelays :=
  have hfiltered : t'.Stays (t'.edit fun u ↦
      { u with delays := t'.unit.delays.filter fun d ↦ !t'.unit.isClosed d.scope d.slot }) :=
    ⟨rfl, rfl, rfl, rfl⟩
  tell (h.stays hfiltered rfl rfl) _ _

/-- A unit finishes once its checker has ended, all its sub-units have reported and it waits for
nothing. -/
theorem tryFinish (h : t.Eases t') : t.Eases t'.tryFinish := by
  refine h.trans ?_
  rw [Turn.tryFinish]
  split
  · rename_i hcan
    simp only [UnitNode.canFinish, Bool.and_eq_true, Bool.not_eq_true', UnitNode.allReported,
      List.all_eq_true] at hcan
    obtain ⟨⟨⟨hunfinished, houtcome⟩, hempty⟩, hreported⟩ := hcan
    have hcomplete : t'.unit.life.IsComplete := by
      refine ⟨hunfinished, houtcome, fun name hname ↦ ?_⟩
      exact Std.ExtTreeMap.mem_iff_contains.2 (hreported name (Std.ExtTreeMap.mem_keys.2 hname))
    let ended : Turn γ := t'.edit fun u ↦
      { u with finished := true, phase := .done, report := u.report.settle t'.unit.currentReport }
    have hunit : (ended.tell t'.unit.report.waiters (.report t'.unit.currentReport)).unit =
        ended.unit := unit_tell _ _ _
    have htold := (Stays.refl ended).tell t'.unit.report.waiters (.report t'.unit.currentReport)
    refine ⟨htold.newUnits, htold.checkers, fun _ ↦ ?_, ?_, .inr ⟨hcomplete, ?_, ?_, rfl⟩⟩
    · exact (congrArg (·.waits.isEmpty) hunit).trans hempty
    · exact (congrArg UnitNode.currentReport hunit).trans rfl
    · exact (congrArg (·.waits.isEmpty) hunit).trans hempty
    · refine (congrArg UnitNode.life hunit).trans ?_
      simp [ended, Turn.edit, UnitNode.life, Life.ended]
  · exact refl t'

theorem grant (h : t.Eases t') (token : Token) (holder : UnitId) :
    t.Eases (t'.grant token holder) := by
  rw [Turn.grant]
  split
  · exact h
  · rename_i waits hwaits
    refine tryFinish (fireDelays (h.trans ⟨rfl, rfl, fun hempty ↦ ?_, rfl, .inl ⟨rfl, rfl⟩⟩))
    -- There is nothing to be granted to a unit that waits for nothing.
    have hmem := TokenBag.mem_of_remove? hwaits
    rw [TokenBag.isEmpty, Std.ExtTreeMap.isEmpty_iff] at hempty
    rw [hempty] at hmem
    exact absurd hmem Std.ExtTreeMap.not_mem_empty

theorem grantAll (h : t.Eases t') (tokens : List (Token × UnitId)) :
    t.Eases (t'.grantAll tokens) := by
  rw [Turn.grantAll]
  induction tokens generalizing t' with
  | nil => exact h
  | cons e es ih => exact ih (h.grant e.1 e.2)

/-- A unit that has not finished yet in this go may do so. -/
theorem comesTo (h : t.Eases t') (hfinished : t.effects.finished = none) :
    t'.unit.ComesTo t.unit.life t'.effects.finished := by
  obtain ⟨hlife, hsame⟩ | ⟨hcomplete, hempty, hlife, hreport⟩ := h.life
  · exact .inl ⟨hsame.trans hfinished, hlife⟩
  · rw [← h.report] at hlife hreport
    exact .inr ⟨hreport, hcomplete, hempty, hlife⟩

/-- A unit whose checker has not ended does not finish. -/
theorem stays_of_outcome (h : t.Eases t') (houtcome : t.unit.outcome = none) : t.Stays t' := by
  obtain ⟨hlife, hfinished⟩ | ⟨hcomplete, -⟩ := h.life
  · exact ⟨hlife, h.newUnits, h.checkers, hfinished⟩
  · have hsome : t.unit.outcome.isSome = true := hcomplete.outcome
    rw [houtcome] at hsome
    exact nomatch hsome

end Eases

/-! ## Going on -/

/-- The unit has gone on in its life, without finishing. If a checker is to be run it is that of the
unit. -/
def Goes (N : String → Prop) (t t' : Turn γ) : Prop :=
  ∃ us, t.unit.life.Leads N us t'.unit.life ∧ t'.effects.newUnits = t.effects.newUnits ++ us ∧
    t'.effects.finished = t.effects.finished ∧
      ∀ id ∈ t'.effects.checkers,
        id ∈ t.effects.checkers ∨ id = t.unit.id ∧ t.unit.kind.isChecker = true

/-- The unit has gone on in its life, and may have finished in the end. -/
def Lives (N : String → Prop) (t t' : Turn γ) : Prop := ∃ t₁, t.Goes N t₁ ∧ t₁.Eases t'

namespace Goes

theorem refl (t : Turn γ) : t.Goes N t :=
  ⟨[], .refl _, (List.append_nil _).symm, rfl, fun _ hid ↦ .inl hid⟩

theorem trans (h : t.Goes N t') (h' : t'.Goes N t'') : t.Goes N t'' := by
  obtain ⟨us, hleads, hnew, hfinished, hcheckers⟩ := h
  obtain ⟨vs, hleads', hnew', hfinished', hcheckers'⟩ := h'
  have hid : t'.unit.id = t.unit.id := hleads.remains.id
  have hkind : t'.unit.kind = t.unit.kind := hleads.remains.kind
  refine ⟨us ++ vs, hleads.trans hleads', ?_, hfinished'.trans hfinished, fun id hmem ↦ ?_⟩
  · rw [hnew', hnew, List.append_assoc]
  · obtain hmem | hrun := hcheckers' id hmem
    · exact hcheckers id hmem
    · rw [hid, hkind] at hrun
      exact .inr hrun

theorem stays (h : t.Goes N t') (hstays : t'.Stays t'') : t.Goes N t'' := by
  obtain ⟨us, hleads, hnew, hfinished, hcheckers⟩ := h
  exact ⟨us, hstays.life ▸ hleads, hstays.newUnits.trans hnew, hstays.finished.trans hfinished,
    fun id hid ↦ hcheckers id (hstays.checkers ▸ hid)⟩

/-- One step of a life. -/
theorem of_step {us : List (UnitNode γ)} {y : Life γ} (hstep : t.unit.life.Step N us y)
    (hlife : t'.unit.life = y) (hnew : t'.effects.newUnits = t.effects.newUnits ++ us)
    (hfinished : t'.effects.finished = t.effects.finished)
    (hcheckers : t'.effects.checkers = t.effects.checkers) : t.Goes N t' :=
  ⟨us, hlife ▸ .single hstep, hnew, hfinished, fun _ hid ↦ .inl (hcheckers ▸ hid)⟩

theorem of_edit {f : UnitNode γ → UnitNode γ} {y : Life γ} (hstep : t.unit.life.Step N [] y)
    (hlife : (f t.unit).life = y) : t.Goes N (t.edit f) :=
  .of_step hstep hlife (List.append_nil _).symm rfl rfl

theorem lives (h : t.Goes N t') : t.Lives N t' := ⟨t', h, .refl t'⟩

end Goes

theorem Stays.goes (h : t.Stays t') : t.Goes N t' := (Goes.refl t).stays h

theorem Stays.lives (h : t.Stays t') : t.Lives N t' := h.goes.lives

theorem Eases.lives (h : t.Eases t') : t.Lives N t' := ⟨t, .refl t, h⟩

theorem Goes.eases (h : t.Goes N t') (h' : t'.Eases t'') : t.Lives N t'' := ⟨t', h, h'⟩

theorem Goes.then (h : t.Goes N t') (h' : t'.Lives N t'') : t.Lives N t'' :=
  let ⟨t₁, hgoes, heases⟩ := h'
  ⟨t₁, h.trans hgoes, heases⟩

theorem Lives.eases (h : t.Lives N t') (h' : t'.Eases t'') : t.Lives N t'' :=
  let ⟨t₁, hgoes, heases⟩ := h
  ⟨t₁, hgoes, heases.trans h'⟩

/-! ## Scopes -/

namespace Stays

variable (h : t.Stays t')

include h

theorem assertEdge (e : Edge) : t.Stays (t'.assertEdge e) := by
  refine h.trans ?_
  unfold Turn.assertEdge
  dsimp only
  split <;> exact ⟨rfl, rfl, rfl, rfl⟩

theorem assertDatum (s : Scope) (d : Datum) : t.Stays (t'.assertDatum s d) := by
  refine h.trans ?_
  unfold Turn.assertDatum
  dsimp only
  split <;> exact ⟨rfl, rfl, rfl, rfl⟩

theorem assertGraph (g : ScopeGraph) (p : Renaming) : t.Stays (t'.assertGraph g p) :=
  (h.foldl g.edges.toList fun e t ↦ (refl t).assertEdge (e.rename p)).foldl g.data.toList fun e t ↦
    (refl t).assertDatum (p.apply e.1) (e.2.rename p)

theorem closeShare (s : Scope) (slots : List Slot) : t.Stays (t'.closeShare s slots) :=
  (h.foldl slots fun slot t ↦ (refl t).send s.owner (.closeEdge t.unit.id s slot)).send _ _

theorem initRoot (root : Scope) : t.Stays (t'.initRoot root) := by
  rw [Turn.initRoot]
  split
  · exact h
  · exact (h.edit (by rfl)).send _ _

theorem closeShares : t.Stays t'.closeShares := by
  have hshares := (h.edit (f := fun u ↦ { u with shared := ∅ }) (by rfl)).foldl
    t'.unit.shared.toList fun e t ↦ (refl t).closeShare e.1 e.2.toList
  exact (hshares.foldl _ fun root t ↦ (refl t).initRoot root).fireDelays

theorem keepOpen (s : Scope) (slots : List Slot) : t.Stays (t'.keepOpen s slots) := h.edit (by rfl)

theorem dropShared (s : Scope) (slot : Slot) : t.Stays (t'.dropShared s slot) :=
  (h.edit (by rfl)).fireDelays

theorem handRoot (child : UnitId) (root : Scope) : t.Stays (Turn.handRoot child t' root) := by
  rw [Turn.handRoot]
  split
  · exact h.waitFor _ _
  · exact h.send _ _

/-- What a unit asserts again from the previous run; as it has no result, nothing that it closes
makes it finish. -/
theorem replay (houtcome : t.unit.outcome = none) (previous : Report) (p : Renaming) :
    t.Stays (t'.replay previous p) := by
  unfold Turn.replay
  extract_lets captured known own counters begun asserted
  have hasserted : t.Stays asserted := Stays.assertGraph (h.edit (by rfl)) _ p
  have hopen : asserted.unit.outcome = none := (congrArg Life.outcome hasserted.life).trans houtcome
  exact (hasserted.trans (((Eases.refl asserted).grantAll _).stays_of_outcome hopen)).closeShares

theorem resumeRoot (x : Snapshot) (e : Scope × Scope) : t.Stays (Turn.resumeRoot x t' e) := by
  rw [Turn.resumeRoot]
  split
  · exact h
  · exact (h.edit (by rfl)).send _ _

theorem restore (x : Snapshot) : t.Stays (t'.restore x) := by
  unfold Turn.restore
  extract_lets me known inits opens own slots asserted before resumed
  have hslots : t.Stays slots :=
    (((h.edit (by rfl)).waitForAll _ _).waitForAll _ _).waitForAll _ _
  have hasserted : t.Stays asserted := hslots.assertGraph _ _
  have hresumed : t.Stays resumed := hasserted.foldl _ fun e t ↦ (refl t).resumeRoot x e
  exact (hresumed.edit (by rfl)).endLocalPhase

end Stays

/-- Initialising a scope ends with a token being granted. -/
theorem lives_shareInitialized (t : Turn γ) (sender : UnitId) (s : Scope) (slots : List Slot)
    (sharing : Bool) : t.Lives N (t.shareInitialized sender s slots sharing) := by
  unfold shareInitialized
  extract_lets opened shared
  have hopened : t.Stays opened := (Stays.refl t).waitForAll _ _
  have hshared : t.Stays shared := by
    unfold shared
    split
    · exact hopened.waitFor _ _
    · exact hopened
  exact hshared.goes.eases ((Eases.refl shared).grant _ _)

/-! ## Running -/

@[simp] theorem life_settleActive (t : Turn γ) (a : Activation) : (t.settleActive a).unit.life =
    { t.unit.life with active := t.unit.life.active.or (some a) } := by
  rw [settleActive, unit_tell]
  simp [edit, UnitNode.life]

@[simp] theorem life_settleDecision (t : Turn γ) (p : Option Renaming) :
    (t.settleDecision p).unit.life =
      { t.unit.life with decision := t.unit.life.decision.or (some p) } := by
  rw [settleDecision, unit_tell]
  simp [edit, UnitNode.life]

/-- A step of a life that ends with the news that the unit is active and with the decision about
reuse. -/
theorem goes_settle {a : Activation} {d : Option Renaming} {x : Life γ} (hlife : t'.unit.life = x)
    (hnew : t'.effects.newUnits = t.effects.newUnits)
    (hfinished : t'.effects.finished = t.effects.finished)
    (hcheckers : t'.effects.checkers = t.effects.checkers)
    (hstep : t.unit.life.Step N []
      { x with active := x.active.or (some a), decision := x.decision.or (some d) }) :
    t.Goes N ((t'.settleActive a).settleDecision d) := by
  have hactive : (t'.edit fun u ↦ { u with whenActive := u.whenActive.settle a }).Stays
      (t'.settleActive a) := (Stays.refl _).tell _ _
  have hdecision : ((t'.settleActive a).edit fun u ↦ { u with decision := u.decision.settle d }).Stays
      ((t'.settleActive a).settleDecision d) := (Stays.refl _).tell _ _
  refine .of_step hstep ?_ ?_ ?_ ?_
  · rw [life_settleDecision, life_settleActive, hlife]
  · exact (hdecision.newUnits.trans (hactive.newUnits.trans hnew)).trans (List.append_nil _).symm
  · exact hdecision.finished.trans (hactive.finished.trans hfinished)
  · exact hdecision.checkers.trans (hactive.checkers.trans hcheckers)

/-- A unit that runs has gone on by one step before its activation is granted. -/
theorem exists_restart (t : Turn γ) (hcan : t.canRestart = true) {trace : Trace}
    (htrace : trace ≠ .released) :
    ∃ t₁, t.Goes N t₁ ∧ t₁.unit.life = t.unit.life.restarted trace ∧
      t.restart trace = t₁.grant .activate t₁.unit.id := by
  rw [restart, if_pos hcan]
  extract_lets active settled compared
  have hphase : t.unit.phase = .started ∨ t.unit.phase = .undecided := by
    simpa [canRestart] using hcan
  have hsettled : t.Goes N settled := goes_settle rfl rfl rfl rfl (.run hphase htrace)
  have hcompared : settled.Stays compared := by
    unfold compared
    split
    · exact (Stays.refl settled).edit (by rfl)
    · exact .refl settled
  have hlife : settled.unit.life = t.unit.life.restarted trace := by
    rw [life_settleDecision, life_settleActive]
    rfl
  exact ⟨compared, hsettled.stays hcompared, hcompared.life.trans hlife, rfl⟩

theorem lives_restart (t : Turn γ) {trace : Trace} (htrace : trace ≠ .released) :
    t.Lives N (t.restart trace) := by
  by_cases hcan : t.canRestart = true
  · obtain ⟨t₁, hgoes, -, heq⟩ := t.exists_restart hcan htrace
    exact heq ▸ hgoes.eases ((Eases.refl t₁).grant _ _)
  · rw [restart, if_neg hcan]
    exact (Stays.refl t).lives

/-- A unit that is made to run before its checker has ended does so, and does not finish on the
spot. -/
theorem restarted_of_outcome (t : Turn γ) (hcan : t.canRestart = true)
    (houtcome : t.unit.outcome = none) {trace : Trace} (htrace : trace ≠ .released) :
    (t.restart trace).unit.phase = .active ∧ (t.restart trace).unit.trace = trace ∧
      (t.restart trace).effects.finished = t.effects.finished := by
  obtain ⟨t₁, ⟨_, -, -, hfinished, -⟩, hlife, heq⟩ :=
    t.exists_restart (N := fun _ ↦ True) hcan htrace
  have hgranted := ((Eases.refl t₁).grant .activate t₁.unit.id).stays_of_outcome
    ((congrArg Life.outcome hlife).trans houtcome)
  have hlife' := hgranted.life.trans hlife
  rw [heq]
  exact ⟨congrArg Life.phase hlife', congrArg Life.trace hlife', hgranted.finished.trans hfinished⟩

theorem lives_eagerStart (t : Turn γ) : t.Lives N t.eagerStart := by
  rw [eagerStart]
  split
  · exact t.lives_restart (by simp)
  · exact (Stays.refl t).lives

/-- A unit whose checker has not ended does not finish as it is made to run. -/
theorem goes_eagerStart (t : Turn γ) (houtcome : t.unit.outcome = none) :
    t.Goes N t.eagerStart ∧ t.eagerStart.unit.outcome = none := by
  rw [eagerStart]
  split
  · rename_i hphase
    obtain ⟨t₁, hgoes, hlife, heq⟩ :=
      t.exists_restart (by simp [canRestart, hphase]) (by simp : Trace.initiallyStarted ≠ .released)
    have hopen : t₁.unit.outcome = none := (congrArg Life.outcome hlife).trans houtcome
    have hgranted := ((Eases.refl t₁).grant .activate t₁.unit.id).stays_of_outcome hopen
    rw [heq]
    exact ⟨hgoes.stays hgranted, (congrArg Life.outcome hgranted.life).trans hopen⟩
  · exact ⟨.refl t, houtcome⟩

/-! ## Sub-units -/

/-- Adding a sub-unit is a step of the unit, unless it is refused. -/
theorem goes_addSubUnit (t : Turn γ) {name : String} {kind : UnitKind γ}
    (hopen : ¬ t.unit.life.IsBarren) (hname : t.unit.life.MayAdd N name kind) (roots : List Scope)
    (changed : Bool) : t.Goes N (t.addSubUnit name kind roots changed).2 := by
  unfold addSubUnit
  extract_lets u child previous before paired blank node handed waiting added
  split
  · exact .refl t
  · rename_i hfree
    split
    · exact .refl t
    · have hpaired : t.Stays paired := (Stays.refl t).edit (by rfl)
      have hwaiting : t.Stays waiting :=
        Stays.waitFor (hpaired.foldl roots fun root t ↦ (Stays.refl t).handRoot child root) _ _
      have hblank : blank.life.IsNewborn := Life.isNewborn_new _ _ _ _ _ _
      -- A stand-in that replays gets its renaming beforehand.
      have hnode : node.life.IsNewborn ∧ node.id = child ∧ node.parent = some u.id ∧
          node.kind = kind ∧ node.previous = previous := by
        unfold node
        split
        · exact ⟨{ hblank with reuse := nofun }, rfl, rfl, rfl, rfl⟩
        · exact ⟨hblank, rfl, rfl, rfl, rfl⟩
      obtain ⟨hborn, hid, hparent, hkind, hprevious⟩ := hnode
      have hfree : t.unit.life.subUnits[name]? = none :=
        Std.ExtTreeMap.getElem?_eq_none_of_contains_eq_false (Bool.eq_false_iff.2 hfree)
      refine .of_step (.join hopen hfree hid hparent hborn hprevious (hkind ▸ hname)) ?_ ?_ ?_ ?_
      · have hlife : waiting.unit.life = t.unit.life := hwaiting.life
        exact congrArg (fun x : Life γ ↦ { x with subUnits := x.subUnits.insert name child }) hlife
      · exact congrArg (· ++ [node]) hwaiting.newUnits
      · exact hwaiting.finished
      · exact hwaiting.checkers

theorem phase_addSubUnit (t : Turn γ) (name : String) (kind : UnitKind γ) (roots : List Scope)
    (changed : Bool) : (t.addSubUnit name kind roots changed).2.unit.phase = t.unit.phase := by
  by_cases haccepts : t.unit.Accepts name kind roots
  · obtain ⟨_, _, _, hunit, -⟩ := t.addSubUnit_of_accepts name kind roots changed haccepts
    rw [hunit]
  · rw [t.addSubUnit_of_not_accepts name kind roots changed haccepts]

theorem mem_missingSubUnits {name : String} {r : Report} (h : (name, r) ∈ t.missingSubUnits) :
    t.unit.life.Recalls name r ∧ t.unit.life.subUnits[name]? = none := by
  rw [missingSubUnits] at h
  split at h
  · rename_i previous hprevious
    obtain ⟨hmem, hmissing⟩ := List.mem_filter.1 h
    rw [Bool.not_eq_true'] at hmissing
    exact ⟨⟨previous, hprevious, hmem⟩,
      Std.ExtTreeMap.getElem?_eq_none_of_contains_eq_false hmissing⟩
  · exact absurd h List.not_mem_nil

/-- A unit that reuses its previous result adds stand-ins for its previous sub-units, and stays in
the phase that it is in. -/
theorem goes_replaySubUnits (t : Turn γ) (hopen : ¬ t.unit.life.IsBarren) :
    t.Goes N t.replaySubUnits ∧ t.replaySubUnits.unit.phase = t.unit.phase := by
  have hall (es : List (String × Report)) (t : Turn γ) (hopen : ¬ t.unit.life.IsBarren)
      (hes : ∀ e ∈ es, t.unit.life.Recalls e.1 e.2) :
      t.Goes N (es.foldl (fun t e ↦ (t.addSubUnit e.1 (.phantom true)
        (e.2.roots.map t.unit.reuseOrIdentity.apply) false).2) t) ∧
      (es.foldl (fun t e ↦ (t.addSubUnit e.1 (.phantom true)
        (e.2.roots.map t.unit.reuseOrIdentity.apply) false).2) t).unit.phase = t.unit.phase := by
    induction es generalizing t with
    | nil => exact ⟨.refl t, rfl⟩
    | cons e es ih =>
      let added : Turn γ := (t.addSubUnit e.1 (.phantom true)
        (e.2.roots.map t.unit.reuseOrIdentity.apply) false).2
      have hadded : t.Goes N added :=
        t.goes_addSubUnit hopen (.inr ⟨rfl, _, hes e List.mem_cons_self⟩) _ _
      have hphase : added.unit.phase = t.unit.phase := t.phase_addSubUnit _ _ _ _
      obtain ⟨us, hleads, -⟩ := id hadded
      have hremains := hleads.remains
      have hstill : ¬ added.unit.life.IsBarren := by
        rintro (hdone | hremoved)
        · exact hopen (.inl (hphase.symm.trans hdone))
        · exact hopen (.inr (hremains.kind.symm.trans hremoved))
      obtain ⟨hgoes, hphase'⟩ := ih added hstill fun e' he' ↦ by
        obtain ⟨previous, hprevious, hmem⟩ := hes e' (List.mem_cons_of_mem _ he')
        exact ⟨previous, hremains.previous.trans hprevious, hmem⟩
      exact ⟨hadded.trans hgoes, hphase'.trans hphase⟩
  exact hall t.missingSubUnits t hopen fun e he ↦ (mem_missingSubUnits he).1

/-- The stand-in for a unit that is gone. -/
def standIn (id : UnitId) (e : String × Report) : UnitNode γ :=
  .new (id.child e.1) none (.phantom false) (some e.2) false false

/-- Stand-ins for units that are gone change nothing in the unit that adds them. -/
theorem addRemovedSubUnits_spec (t : Turn γ) : t.addRemovedSubUnits.unit = t.unit ∧
    t.addRemovedSubUnits.effects.newUnits =
      t.effects.newUnits ++ t.missingSubUnits.map (standIn t.unit.id) ∧
    t.addRemovedSubUnits.effects.finished = t.effects.finished ∧
    t.addRemovedSubUnits.effects.checkers = t.effects.checkers := by
  have hall (es : List (String × Report)) (t : Turn γ) :
      let t' := es.foldl (fun t e ↦
        let child := t.unit.id.child e.1
        (t.addUnit (.new child none (.phantom false) (some e.2) false false)).send child
          (.start e.2.roots)) t
      t'.unit = t.unit ∧
        t'.effects.newUnits = t.effects.newUnits ++ es.map (standIn t.unit.id) ∧
        t'.effects.finished = t.effects.finished ∧
        t'.effects.checkers = t.effects.checkers := by
    induction es generalizing t with
    | nil => exact ⟨rfl, (List.append_nil _).symm, rfl, rfl⟩
    | cons e es ih =>
      let added : Turn γ := (t.addUnit (standIn t.unit.id e)).send (t.unit.id.child e.1)
        (.start e.2.roots)
      obtain ⟨hunit, hnew, hrest⟩ := ih added
      refine ⟨hunit, hnew.trans ?_, hrest⟩
      exact List.append_assoc _ [standIn t.unit.id e] _
  exact hall t.missingSubUnits t

theorem goes_addRemovedSubUnits (t : Turn γ) (hbarren : t.unit.life.IsBarren) :
    t.Goes N t.addRemovedSubUnits := by
  obtain ⟨hunit, hnew, hfinished, hcheckers⟩ := t.addRemovedSubUnits_spec
  have hall (es : List (String × Report)) (x : Life γ) (hbarren : x.IsBarren)
      (hes : ∀ e ∈ es, x.Recalls e.1 e.2 ∧ x.subUnits[e.1]? = none) :
      x.Leads N (es.map (standIn x.id)) x := by
    induction es with
    | nil => exact .refl x
    | cons e es ih =>
      obtain ⟨hrecalls, hfree⟩ := hes e List.mem_cons_self
      exact (Life.Leads.single (.standIn hbarren hfree hrecalls)).trans
        (ih fun e' he' ↦ hes e' (List.mem_cons_of_mem _ he'))
  refine ⟨_, ?_, hnew, hfinished, fun _ hid ↦ .inl (hcheckers ▸ hid)⟩
  rw [hunit]
  exact hall _ _ hbarren fun e he ↦ mem_missingSubUnits he

/-- Whether a unit finishes before or after it adds stand-ins makes no difference. -/
theorem Eases.addRemovedSubUnits (h : t.Eases t') :
    t.addRemovedSubUnits.Eases t'.addRemovedSubUnits := by
  obtain ⟨hunit, hnew, hfinished, hcheckers⟩ := t.addRemovedSubUnits_spec
  obtain ⟨hunit', hnew', hfinished', hcheckers'⟩ := t'.addRemovedSubUnits_spec
  have hsame : t'.unit.id = t.unit.id ∧ t'.missingSubUnits = t.missingSubUnits := by
    have hlife : t'.unit.life.id = t.unit.life.id ∧
        t'.unit.life.previous = t.unit.life.previous ∧
        t'.unit.life.subUnits = t.unit.life.subUnits := by
      obtain ⟨hlife, -⟩ | ⟨-, -, hlife, -⟩ := h.life <;> rw [hlife] <;> exact ⟨rfl, rfl, rfl⟩
    obtain ⟨hid, hprevious, hsubUnits⟩ := hlife
    have hprevious : t'.unit.previous = t.unit.previous := hprevious
    have hsubUnits : t'.unit.subUnits = t.unit.subUnits := hsubUnits
    exact ⟨hid, by rw [missingSubUnits, missingSubUnits, hprevious, hsubUnits]⟩
  constructor
  · rw [hnew', hnew, hsame.1, hsame.2, h.newUnits]
  · rw [hcheckers', hcheckers, h.checkers]
  · rw [hunit, hunit']
    exact h.waits
  · rw [hunit, hunit']
    exact h.report
  · rw [hunit, hunit', hfinished, hfinished']
    exact h.life

/-! ## Reuse -/

/-- A unit that is released has gone on by one step before it adds its stand-ins. -/
theorem exists_release (t : Turn γ) (hsound : t.unit.life.IsSound)
    (hphase : t.unit.phase = .undecided) {previous : Report}
    (hprevious : t.unit.previous = some previous) (p : Renaming) :
    ∃ t₁, t.Goes N t₁ ∧ t₁.unit.life = t.unit.life.released p ∧
      t.release p = t₁.replaySubUnits := by
  unfold release
  split
  · rename_i previous _ _
    extract_lets replayed told settled
    let begun : Turn γ := t.edit fun u ↦ { u with reuse := some p }
    have houtcome : t.unit.outcome = none := hsound.outcome_of_undecided hphase
    have hreplayed : begun.Stays replayed := (Stays.refl begun).replay houtcome previous p
    clear_value replayed
    have htold : told.unit.life =
        { t.unit.life with reuse := some p, trace := .released, phase := .released } :=
      congrArg (fun x : Life γ ↦ { x with trace := .released, phase := .released }) hreplayed.life
    have hsettled : t.Goes N settled :=
      (goes_settle (t := t) htold hreplayed.newUnits hreplayed.finished hreplayed.checkers
        (.release hphase p)).stays (Stays.refl _).endLocalPhase
    have hlife : settled.unit.life =
        ((told.settleActive .reusing).settleDecision (some p)).unit.life :=
      (Stays.refl _).endLocalPhase.life
    rw [life_settleDecision, life_settleActive, htold] at hlife
    clear_value settled
    -- The grant does not find a result.
    have hgranted := ((Eases.refl settled).grant .activate settled.unit.id).stays_of_outcome
      ((congrArg Life.outcome hlife).trans houtcome)
    exact ⟨_, hsettled.stays hgranted, hgranted.life.trans hlife, rfl⟩
  · rename_i hnot
    exact (hnot previous hphase hprevious).elim

/-- A unit that is released is not cut short, and adds its stand-ins last. -/
theorem goes_release (t : Turn γ) (hsound : t.unit.life.IsSound) (p : Renaming) :
    t.Goes N (t.release p) := by
  by_cases hcan : t.canRelease = true
  · simp only [canRelease, Bool.and_eq_true, decide_eq_true_eq] at hcan
    obtain ⟨hphase, hsome⟩ := hcan
    obtain ⟨previous, hprevious⟩ := Option.isSome_iff_exists.1 hsome
    obtain ⟨t₁, hgoes, hlife, heq⟩ := t.exists_release (N := N) hsound hphase hprevious p
    rw [heq]
    refine hgoes.trans (goes_replaySubUnits _ ?_).1
    rw [hlife]
    rintro (hdone | hremoved)
    · exact nomatch hdone
    · have hkind : t.unit.life.kind.isChecker = true := hsound.undecided hphase
      rw [show t.unit.life.kind = .phantom false from hremoved] at hkind
      exact nomatch hkind
  · rw [t.release_of_not fun previous hphase hprevious ↦ hcan ?_]
    · exact .refl t
    · simp [canRelease, hphase, hprevious]

/-! ## Starting -/

section

variable (t) (hkind : t.unit.kind.isChecker = false) (hphase : t.unit.phase = .started)

include hkind hphase

omit hkind in
theorem isLive_of_started : t.unit.phase.isLive = true := by
  rw [hphase]
  rfl

/-- A unit without a checker is given up. -/
theorem lives_fail (reason : String) : t.Lives N (t.fail reason) := by
  unfold fail
  extract_lets failed
  have hsettled : t.Goes N ((failed.settleActive .running).settleDecision none) :=
    goes_settle (t := t) rfl rfl rfl rfl
      (.serve hkind (t.isLive_of_started hphase) (.inl rfl) _ _ _ _ _)
  exact hsettled.eases ((Eases.refl _).tryFinish)

theorem lives_startReplaying (hreplays : t.unit.kind = .phantom true)
    (houtcome : t.unit.outcome = none) : t.Lives N t.startReplaying := by
  unfold startReplaying
  split
  · exact t.lives_fail hkind hphase _
  · rename_i previous _
    extract_lets p replayed told handed
    let begun : Turn γ := t.edit fun u ↦ { u with reuse := some p }
    have hreplayed : begun.Stays replayed := (Stays.refl begun).replay houtcome previous p
    clear_value replayed
    have htold : told.unit.life =
        { t.unit.life with reuse := some p, trace := .released, phase := .released } :=
      congrArg (fun x : Life γ ↦ { x with trace := .released, phase := .released }) hreplayed.life
    have hsettled : t.Goes N ((told.settleActive .reusing).settleDecision (some p)) :=
      goes_settle (t := t) htold hreplayed.newUnits hreplayed.finished hreplayed.checkers
        (.serve hkind (t.isLive_of_started hphase) (.inr ⟨hphase, .inr ⟨rfl, hreplays⟩⟩) _ _ _ _ _)
    have hlife := life_settleDecision (told.settleActive .reusing) (some p)
    rw [life_settleActive, htold] at hlife
    have hopen : ¬ ((told.settleActive .reusing).settleDecision (some p)).unit.life.IsBarren := by
      rw [hlife]
      rintro (hdone | hremoved)
      · exact nomatch hdone
      · exact nomatch hreplays.symm.trans hremoved
    obtain ⟨hgoes, hstill⟩ := goes_replaySubUnits (N := N) _ hopen
    have hhanded : t.Goes N handed := hsettled.trans hgoes
    have hlive : handed.unit.phase.isLive = true := by
      rw [hstill.trans (congrArg Life.phase hlife)]
      rfl
    clear_value handed
    obtain ⟨_, hleads, -⟩ := id hhanded
    have hkind' : handed.unit.life.kind.isChecker = false :=
      (congrArg UnitKind.isChecker hleads.remains.kind).trans hkind
    have hserved : handed.Goes N (handed.edit fun u ↦
        { u with outcome := some (previous.result.map (Datum.rename p)) }) :=
      .of_edit (.serve hkind' hlive (.inl rfl) _ _ _ _ _) rfl
    exact (hhanded.trans hserved).eases ((Eases.refl _).tryFinish)

theorem lives_startRemoved (hremoved : t.unit.kind = .phantom false) :
    t.Lives N t.startRemoved := by
  unfold startRemoved
  extract_lets told settled
  have hsettled : t.Goes N settled :=
    goes_settle (t := t) rfl rfl rfl rfl
      (.serve hkind (t.isLive_of_started hphase) (.inl rfl) _ _ _ _ _)
  have hlife : settled.unit.life.kind = t.unit.kind ∧ settled.unit.life.phase = .started := by
    rw [life_settleDecision, life_settleActive]
    exact ⟨rfl, hphase⟩
  clear_value settled
  have hkind' : settled.unit.life.kind.isChecker = false :=
    (congrArg UnitKind.isChecker hlife.1).trans hkind
  have hserved : settled.Goes N (settled.edit fun u ↦ { u with outcome := some none }) :=
    .of_edit (.serve hkind' (hlife.2 ▸ rfl) (.inl rfl) _ _ _ _ _) rfl
  have hbarren : (settled.edit fun u ↦ { u with outcome := some none }).unit.life.IsBarren :=
    .inr (hlife.1.trans hremoved)
  exact ((hsettled.trans hserved).trans (goes_addRemovedSubUnits _ hbarren)).eases
    ((Eases.refl _).tryFinish)

theorem lives_startLibrary (lib : Library) : t.Lives N (t.startLibrary lib) := by
  unfold startLibrary
  extract_lets asserted active settled
  have hasserted : t.Stays asserted := by
    unfold asserted
    split
    · exact ((Stays.refl t).edit (by rfl)).assertGraph _ _
    · exact (Stays.refl t).edit (by rfl)
  clear_value asserted
  have hactive : active.unit.life = { t.unit.life with phase := .active } :=
    congrArg (fun x : Life γ ↦ { x with phase := .active }) hasserted.life
  have hdecided : t.Goes N ((active.settleActive .running).settleDecision none) :=
    goes_settle (t := t) hactive hasserted.newUnits hasserted.finished hasserted.checkers
      (.serve hkind (t.isLive_of_started hphase) (.inr ⟨hphase, .inl rfl⟩) _ _ _ _ _)
  have hclosed : ((active.settleActive .running).settleDecision none).Stays settled :=
    (Stays.refl _).closeShares
  have hlife := hclosed.life
  rw [life_settleDecision, life_settleActive, hactive] at hlife
  have hsettled : t.Goes N settled := hdecided.stays hclosed
  clear_value settled
  have hserved : settled.Goes N (settled.edit fun u ↦ { u with outcome := some none }) :=
    .of_edit (.serve (hlife ▸ hkind) (hlife ▸ rfl) (.inl rfl) _ _ _ _ _) rfl
  exact (hsettled.trans hserved).eases ((Eases.refl _).tryFinish)

end

/-- Starting leads a unit as far as it can go without its checker. -/
theorem lives_start (t : Turn γ) (hsound : t.unit.life.IsSound) (roots : List Scope) :
    t.Lives N (t.start roots) := by
  unfold start
  split
  · exact (Stays.refl t).lives
  · rename_i hphase
    extract_lets begun told
    have hphase : t.unit.phase = .created := not_not.1 hphase
    have hbegun : t.Goes N begun := .of_edit (.start hphase) rfl
    have htold : begun.Stays told := by
      unfold told
      split
      · exact (Stays.refl begun).send _ _
      · exact .refl begun
    have hstarted : told.unit.phase = .started := congrArg Life.phase htold.life
    have hopen : told.unit.outcome = none :=
      (congrArg Life.outcome htold.life).trans (hsound.created hphase)
    have hgoes : t.Goes N told := hbegun.stays htold
    clear_value told
    split
    · rename_i hkind
      let running : Turn γ := told.waitFor .activate told.unit.id
      refine Goes.lives (hgoes.trans ⟨[], .refl _, (List.append_nil _).symm, rfl, fun id hid ↦ ?_⟩)
      rw [Effects.checkers, spawn, List.filterMap_append] at hid
      refine (List.mem_append.1 hid).imp_right fun hnew ↦ ⟨List.mem_singleton.1 hnew, ?_⟩
      rw [hkind]
      rfl
    · rename_i hkind
      exact hgoes.then (told.lives_startReplaying (by rw [hkind]; rfl) hstarted hkind hopen)
    · rename_i hkind
      exact hgoes.then (told.lives_startRemoved (by rw [hkind]; rfl) hstarted hkind)
    · rename_i lib hkind
      exact hgoes.then (told.lives_startLibrary (by rw [hkind]; rfl) hstarted lib)

/-! ## Ending -/

theorem lives_checkerFinished (t : Turn γ) (result : Except String Datum) :
    t.Lives N (t.checkerFinished result) := by
  unfold checkerFinished
  split
  · exact (Stays.refl t).lives
  · rename_i hunfinished
    extract_lets ended captured released done settled active rest
    obtain ⟨outcome, houtcome, hended⟩ : ∃ outcome, outcome.isSome = true ∧
        ended.unit.life = { t.unit.life with outcome := outcome } ∧
        ended.effects = t.effects := by
      cases result with
      | ok d => exact ⟨some (some d), rfl, rfl, rfl⟩
      | error e => exact ⟨some none, rfl, rfl, rfl⟩
    have hcaptured : ended.Stays captured := by
      unfold captured
      split
      · exact (Stays.refl ended).capture.endLocalPhase
      · exact .refl ended
    clear_value captured
    have hdone : done.unit.life = { t.unit.life with outcome := outcome, phase := .done } :=
      congrArg (fun x : Life γ ↦ { x with phase := .done }) (hcaptured.life.trans hended.1)
    have hsettled : t.Goes N settled :=
      goes_settle (t := t) hdone (hcaptured.newUnits.trans (congrArg _ hended.2))
        (hcaptured.finished.trans (congrArg _ hended.2))
        (hcaptured.checkers.trans (congrArg _ hended.2))
        (.conclude (Bool.eq_false_iff.2 hunfinished) houtcome)
    have hactive : settled.Eases active := (Eases.refl settled).grant _ _
    have hbarren : settled.unit.life.IsBarren := by
      rw [life_settleDecision, life_settleActive, hdone]
      exact .inl rfl
    clear_value settled
    unfold rest
    split
    · exact hsettled.eases hactive.tryFinish
    · -- The stand-ins are added after the unit may have finished, which comes to the same.
      exact (hsettled.trans (goes_addRemovedSubUnits _ hbarren)).eases
        hactive.addRemovedSubUnits.tryFinish

theorem eases_grantClosures (t : Turn γ) : t.Eases t.grantClosures := by
  unfold grantClosures
  extract_lets granted
  have hgranted : t.Eases granted := (Eases.refl t).grantAll _
  have hemptied : granted.Stays (granted.edit fun u ↦ { u with shared := ∅ }) :=
    ⟨rfl, rfl, rfl, rfl⟩
  exact (hgranted.stays hemptied rfl rfl).fireDelays

theorem lives_failStuck (t : Turn γ) : t.Lives N t.failStuck := by
  unfold failStuck
  split
  · exact (Stays.refl t).lives
  · rename_i hunfinished
    extract_lets entries delays effects granted emptied hungUp ended
    have hgranted : t.Stays granted := ⟨rfl, rfl, rfl, rfl⟩
    have hhungUp : t.Stays hungUp := (hgranted.edit (by rfl)).fillAll _ _
    have hclosed : t.Stays hungUp.endLocalPhase := hhungUp.endLocalPhase
    clear_value hungUp
    unfold fail
    extract_lets failed
    have hfailed : failed.unit.life = { t.unit.life with
        phase := .done, outcome := t.unit.life.outcome.orElse fun _ ↦ some none } :=
      congrArg (fun x : Life γ ↦ { x with
        phase := .done, outcome := x.outcome.orElse fun _ ↦ some none }) hclosed.life
    have hsettled : t.Goes N ((failed.settleActive .running).settleDecision none) :=
      goes_settle (t := t) hfailed hclosed.newUnits hclosed.finished hclosed.checkers
        (.conclude (Bool.eq_false_iff.2 hunfinished) (by cases t.unit.life.outcome <;> rfl))
    exact hsettled.eases ((Eases.refl _).tryFinish)

/-! ## Messages, waiting and asking -/

theorem lives_handle (t : Turn γ) (hsound : t.unit.life.IsSound) (m : Message) :
    t.Lives N (t.handle m) := by
  cases m with
  | start roots => exact t.lives_start hsound roots
  | unitStarted | closeEdge | closeScope => exact ((Eases.refl t).grant _ _).lives
  | initShare sender s slots sharing => exact t.lives_shareInitialized sender s slots sharing
  | addShare sender s => exact ((Stays.refl t).waitFor _ _).lives
  | addEdge sender e =>
    rw [handle, receiveEdge]
    split
    · exact ((Stays.refl t).edit (by rfl)).lives
    · exact (Stays.refl t).lives
  | query | queryPrevious | confirm | counterpart => exact ((Stays.refl t).spawn rfl).lives

theorem stays_listen (t : Turn γ) {π : Type} {promise : UnitNode γ → Promise π}
    {put : Promise π → UnitNode γ → UnitNode γ} {wrap : π → Parcel}
    (hput : ∀ (u : UnitNode γ) c, (put ((promise u).await c) u).life = u.life) :
    t.Stays (t.listen promise put wrap).2 := by
  have hchannel := (Stays.refl t).newChannel
  rw [listen]
  dsimp only
  split
  · exact hchannel.trans ⟨rfl, rfl, rfl, rfl⟩
  · exact hchannel.edit (hput _ _)

theorem stays_awaitDecided (t : Turn γ) : t.Stays t.awaitDecided.2 := by
  have hlisten : t.Stays (t.listen UnitNode.whenActive
      (fun p u ↦ { u with whenActive := p }) .activation).2 :=
    t.stays_listen fun u c ↦ by simp [UnitNode.life]
  rw [awaitDecided]
  split
  · exact hlisten
  · exact hlisten
  · exact hlisten
  · exact .refl t

theorem stays_awaitClosed (t : Turn γ) (s : Scope) (slot : Slot) :
    t.Stays (t.awaitClosed s slot).2 := by
  rw [awaitClosed]
  dsimp only
  split
  · exact .refl t
  · exact ⟨rfl, rfl, rfl, rfl⟩

theorem stays_matchStep (t : Turn γ) (s : Scope) : t.Stays (t.matchStep s).2 := by
  unfold matchStep
  dsimp only
  split
  · exact .refl t
  · split
    · exact .refl t
    · split
      · split
        · exact .refl t
        · exact ⟨rfl, rfl, rfl, rfl⟩
      · split <;> exact .refl t

theorem stays_diffScope (t : Turn γ) (s : Scope) (labels : List Label) :
    t.Stays (t.diffScope s labels).2 := by
  unfold diffScope
  split
  · exact .refl t
  · exact ⟨rfl, rfl, rfl, rfl⟩

end Turn

/-! ## Actions of the checker -/

/-- Checkers add sub-units under certain names only, and no stand-ins. -/
def Action.IsRegular (N : String → Prop) : {α : Type} → Action γ α → Prop
  | _, addSubUnit name kind _ _ => N name ∧ ∀ replay, kind ≠ .phantom replay
  | _, _ => True

namespace Attempt

variable {t : Turn γ} (hkind : t.unit.kind.isChecker = true) (hsound : t.unit.life.IsSound)

include hkind hsound

/-- As long as a checker may act its unit has no result. -/
theorem lives_requireLive {f : PUnit → Attempt γ α}
    (h : t.unit.phase.isLive = true → t.unit.outcome = none → t.Lives N (f ⟨⟩ t).2) :
    t.Lives N ((requireLive >>= f) t).2 := by
  rw [requireLive_bind]
  split
  · rename_i hact
    rw [UnitNode.mayAct, Bool.and_eq_true] at hact
    refine h hact.1 (Option.not_isSome_iff_eq_none.1 fun houtcome ↦ ?_)
    have hdone : t.unit.phase = .done := hsound.outcome hkind houtcome
    rw [hdone] at hact
    exact nomatch hact.1
  · exact (Turn.Stays.refl t).lives

omit hkind hsound in
/-- An action that commits the unit goes on with a unit that has no result. -/
theorem lives_commit (houtcome : t.unit.outcome = none) {f : PUnit → Attempt γ α}
    (h : ∀ t' : Turn γ, t'.unit.outcome = none → t'.Lives N (f ⟨⟩ t').2) :
    t.Lives N ((commit >>= f) t).2 := by
  rw [commit_bind]
  split
  · exact (Turn.Stays.refl t).lives
  · obtain ⟨hgoes, hopen⟩ := t.goes_eagerStart (N := N) houtcome
    exact hgoes.then (h _ hopen)

theorem lives_freshScope (base : String) (labels : List Label) (hasDatum sharing : Bool) :
    t.Lives N (freshScope base labels hasDatum sharing t).2 := by
  have hcreate (t : Turn γ) : t.Stays (create base labels hasDatum sharing t).2 := by
    rw [create, unit_bind, change_bind, change_bind]
    exact ((Turn.Stays.refl t).edit (by rfl)).waitForAll _ _
  rw [freshScope_eq]
  refine lives_requireLive hkind hsound fun _ houtcome ↦ ?_
  split
  · exact (hcreate t).lives
  · exact lives_commit houtcome fun t' _ ↦ (hcreate t').lives

theorem lives_initScope (s : Scope) (labels : List Label) (sharing : Bool) :
    t.Lives N (initScope s labels sharing t).2 := by
  refine lives_requireLive hkind hsound fun _ _ ↦ ?_
  rw [unit_bind]
  split
  · exact t.lives_shareInitialized _ _ _ _
  · exact (((Turn.Stays.refl t).keepOpen _ _).send _ _).lives

theorem lives_shareScope (s : Scope) : t.Lives N (shareScope s t).2 := by
  refine lives_requireLive hkind hsound fun _ _ ↦ ?_
  rw [unit_bind]
  split
  · exact ((Turn.Stays.refl t).waitFor _ _).lives
  · exact ((Turn.Stays.refl t).send _ _).lives

theorem lives_setDatum (s : Scope) (d : Datum) : t.Lives N (setDatum s d t).2 := by
  refine lives_requireLive hkind hsound fun _ _ ↦ ?_
  have hrefused : t.Lives N t := (Turn.Stays.refl t).lives
  rw [unit_bind, require_bind]
  split
  · rw [requireKnown_bind]
    split
    · rw [require_bind]
      split
      · exact ((Turn.Stays.refl t).assertDatum s d).goes.eases ((Turn.Eases.refl _).grant _ _)
      · exact hrefused
    · exact hrefused
  · exact hrefused

theorem lives_addEdge (e : Edge) : t.Lives N (addEdge e t).2 := by
  refine lives_requireLive hkind hsound fun _ houtcome ↦ lives_commit houtcome fun t' _ ↦ ?_
  have hrefused : t'.Lives N t' := (Turn.Stays.refl t').lives
  have hadded : t'.Lives N (t'.assertEdge e) := ((Turn.Stays.refl t').assertEdge e).lives
  rw [unit_bind]
  split
  · rw [requireKnown_bind]
    split
    · rw [require_bind]
      split
      · exact hadded
      · exact hrefused
    · exact hrefused
  · rw [require_bind]
    split
    · exact hadded
    · exact hrefused

theorem lives_closeLabel (s : Scope) (l : Label) : t.Lives N (closeLabel s l t).2 := by
  refine lives_requireLive hkind hsound fun _ _ ↦ ?_
  rw [unit_bind]
  split
  · exact ((Turn.Eases.refl t).grant _ _).lives
  · split
    · exact (((Turn.Stays.refl t).dropShared _ _).send _ _).lives
    · exact (Turn.Stays.refl t).lives

theorem lives_closeScope (s : Scope) : t.Lives N (closeScope s t).2 := by
  refine lives_requireLive hkind hsound fun _ _ ↦ ?_
  rw [unit_bind]
  split
  · exact ((Turn.Eases.refl t).grant _ _).lives
  · exact ((Turn.Stays.refl t).send _ _).lives

theorem lives_beginQuery (path : Path) : t.Lives N (beginQuery path t).2 := by
  have hnumbered : t.Stays t.newRequest.2 := (Turn.Stays.refl t).newRequest
  rw [beginQuery, bind_apply]
  refine hnumbered.goes.then (lives_requireLive (t := t.newRequest.2) hkind hsound
    fun _ houtcome ↦ lives_commit houtcome fun t' _ ↦ ?_)
  exact ((Turn.Stays.refl t').waitFor _ _).lives

omit hsound in
theorem goes_addSubUnit (hlive : t.unit.phase.isLive = true) {name : String} {kind : UnitKind γ}
    (hname : N name ∧ ∀ replay, kind ≠ .phantom replay) (roots : List Scope) (changed : Bool) :
    t.Goes N (t.addSubUnit name kind roots changed).2 := by
  refine t.goes_addSubUnit ?_ (.inl hname) roots changed
  rintro (hdone | hremoved)
  · rw [show t.unit.phase = .done from hdone] at hlive
    exact nomatch hlive
  · rw [show t.unit.kind = .phantom false from hremoved] at hkind
    exact nomatch hkind

/-- Only a unit that is alive adds sub-units for its checker. -/
theorem lives_addSubUnit {name : String} {kind : UnitKind γ}
    (hname : N name ∧ ∀ replay, kind ≠ .phantom replay) (roots : List Scope) (changed : Bool) :
    t.Lives N (addSubUnit name kind roots changed t).2 :=
  lives_requireLive hkind hsound fun hlive _ ↦
    (goes_addSubUnit hkind hlive hname roots changed).lives

omit hsound in
theorem lives_askForReuse : t.Lives N (askForReuse t).2 := by
  rw [askForReuse, unit_bind, require_bind]
  split
  · rename_i hphase
    have hphase : t.unit.phase = .started := of_decide_eq_true hphase
    rw [get_bind]
    split
    · rename_i hmay
      have hprevious : t.unit.previous.isSome = true := by
        rw [mayReuse, Bool.and_eq_true, Option.any_eq_true] at hmay
        exact Option.isSome_iff_exists.2 (hmay.2.imp fun _ h ↦ h.1)
      have hundecided : t.Goes N (t.edit fun u ↦ { u with phase := .undecided }) :=
        .of_edit (.hesitate hphase hkind hprevious) rfl
      rw [change_bind]
      cases t.unit.previous.bind Report.snapshot with
      | some x => exact (hundecided.stays (((Turn.Stays.refl _).restore x).spawn rfl)).lives
      | none => exact (hundecided.stays ((Turn.Stays.refl _).spawn rfl)).lives
    · rw [change_bind]
      exact t.lives_restart (by simp)
  · exact (Turn.Stays.refl t).lives

theorem lives_attempt {a : Action γ α} (ha : a.IsRegular N) : t.Lives N (a.attempt t).2 := by
  cases a with
  | freshScope base labels hasDatum sharing =>
    exact lives_freshScope hkind hsound base labels hasDatum sharing
  | initScope s labels sharing => exact lives_initScope hkind hsound s labels sharing
  | shareScope s => exact lives_shareScope hkind hsound s
  | setDatum s d => exact lives_setDatum hkind hsound s d
  | addEdge e => exact lives_addEdge hkind hsound e
  | closeLabel s l => exact lives_closeLabel hkind hsound s l
  | closeScope s => exact lives_closeScope hkind hsound s
  | beginQuery path => exact lives_beginQuery hkind hsound path
  | addSubUnit name kind roots changed => exact lives_addSubUnit hkind hsound ha roots changed
  | askForReuse => exact lives_askForReuse hkind

end Attempt

/-! ## All operations -/

namespace UnitOp

/-- Whether an operation is one that happens to a unit in some run. Only checkers begin to work and
act, and they name sub-units in a certain way. Nobody is told to run because it was released. That a
sub-unit has finished is told by the engine, together with what made the sub-unit finish. -/
def IsRegular (N : String → Prop) (u : UnitNode γ) : {α : Type} → UnitOp γ α → Prop
  | _, act a => u.kind.isChecker = true ∧ a.IsRegular N
  | _, begin _ => u.kind.isChecker = true
  | _, restart trace => trace ≠ .released
  | _, subUnitFinished _ => False
  | _, _ => True

/-- **Every operation goes on in the life of its unit**, and only then does the unit finish. -/
theorem lives_run {t : Turn γ} (hsound : t.unit.life.IsSound) {op : UnitOp γ α}
    (hop : op.IsRegular N t.unit) : t.Lives N (op.run t).2 := by
  cases op with
  | act a => exact Attempt.lives_attempt hop.1 hsound hop.2
  | begin state =>
    exact (Turn.Goes.of_edit (f := fun u ↦ { u with begun := true, checkerState := state })
      (.begin hop) rfl).lives
  | keepState => exact Turn.Stays.lives ⟨rfl, rfl, rfl, rfl⟩
  | eagerStart => exact t.lives_eagerStart
  | checkerFinished result => exact t.lives_checkerFinished result
  | awaitDecided => exact t.stays_awaitDecided.lives
  | awaitClosed s slot => exact (t.stays_awaitClosed s slot).lives
  | awaitOpen => exact (t.stays_listen fun u c ↦ by rfl).lives
  | awaitDecision => exact (t.stays_listen fun u c ↦ by simp [UnitNode.life]).lives
  | awaitReport => exact (t.stays_listen fun u c ↦ by simp [UnitNode.life]).lives
  | ask q => exact ((((Turn.Stays.refl t).newRequest.newChannel).waitFor _ _).send _ _).lives
  | endAsking ticket => exact ((Turn.Eases.refl t).grant _ _).lives
  | endQuery token record =>
    exact ((Turn.Stays.refl t).edit (by rfl)).goes.eases ((Turn.Eases.refl _).grant _ _)
  | matchStep s => exact (t.stays_matchStep s).lives
  | diffScope s labels => exact (t.stays_diffScope s labels).lives
  | handle m => exact t.lives_handle hsound m
  | subUnitFinished r => exact hop.elim
  | release p => exact (t.goes_release hsound p).lives
  | restart trace => exact t.lives_restart hop
  | endLocalPhase => exact (Turn.Stays.refl t).capture.endLocalPhase.lives
  | grantClosures => exact t.eases_grantClosures.lives
  | failStuck => exact t.lives_failStuck

/-- Where a unit comes to in one go. -/
theorem comesTo_run {u : UnitNode γ} (hsound : u.life.IsSound) {op : UnitOp γ α}
    (hop : op.IsRegular N u) (settings : Settings) (channels : Channels Parcel) (request : Nat) :
    let t := (op.run ⟨u, .none, settings, channels, request⟩).2
    ∃ y, u.life.Leads N t.effects.newUnits y ∧ t.unit.ComesTo y t.effects.finished := by
  obtain ⟨t₁, ⟨us, hleads, hnew, hfinished, -⟩, heases⟩ :=
    lives_run (t := ⟨u, .none, settings, channels, request⟩) hsound hop
  have hus : t₁.effects.newUnits = us := hnew
  refine ⟨t₁.unit.life, ?_, ?_⟩
  · rw [heases.newUnits, hus]
    exact hleads
  · exact heases.comesTo hfinished

/-- If a checker is to be run it is that of the unit. -/
theorem checker_run {u : UnitNode γ} (hsound : u.life.IsSound) {op : UnitOp γ α}
    (hop : op.IsRegular N u) (settings : Settings) (channels : Channels Parcel) (request : Nat)
    {id : UnitId} (hid : id ∈
      (op.run ⟨u, .none, settings, channels, request⟩).2.effects.checkers) :
    id = u.id ∧ u.kind.isChecker = true := by
  obtain ⟨t₁, ⟨us, -, -, -, hcheckers⟩, heases⟩ :=
    lives_run (t := ⟨u, .none, settings, channels, request⟩) hsound hop
  exact (hcheckers id (heases.checkers ▸ hid)).resolve_left List.not_mem_nil

/-- Where a unit comes to that is handed the report of a sub-unit. -/
theorem comesTo_subUnitFinished (u : UnitNode γ) (r : Report) (settings : Settings)
    (channels : Channels Parcel) (request : Nat) :
    let t := Turn.subUnitFinished ⟨u, .none, settings, channels, request⟩ r
    t.effects.newUnits = [] ∧ t.effects.checkers = [] ∧
      t.unit.ComesTo (u.life.receive r) t.effects.finished := by
  have heases := (Turn.Eases.refl (Turn.edit ⟨u, .none, settings, channels, request⟩ fun u ↦
    { u with subReports := u.subReports.insert r.id.localName r })).tryFinish
  exact ⟨heases.newUnits, heases.checkers, heases.comesTo rfl⟩

end UnitOp

end ScopeGraphs
