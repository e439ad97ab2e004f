import ScopeGraphs.Proofs.Renamings
import ScopeGraphs.Proofs.Units.Adding
import ScopeGraphs.Proofs.Units.Families

/-!
# Taking over a report of the previous run

A unit that is released takes over its report of the previous run, and so does a stand-in when it is
started: from then on it has a sub-unit for every one that is in the report (`UnitNode.Inherits`).
A stand-in also has the assertions, the queries and the result of its report, renamed
(`UnitNode.Copies`), under a renaming that sends every scope where that of the unit above sends it,
because the root scopes that it is handed are the previous ones, renamed
(`Turn.exists_adds_start`).

Nothing else takes over anything (`UnitOp.continues_run`), and nothing that happens to a stand-in
afterwards changes what it has (`UnitOp.abides_run`).
-/

namespace ScopeGraphs

variable {γ α : Type}

/-! ## What a stand-in keeps -/

/-- What a stand-in has taken over. -/
def UnitNode.legacy (u : UnitNode γ) : Option Report × Option Renaming × ScopeGraph ×
    List QueryRecord × Trace × Option (Option Datum) × SortedMap String UnitId :=
  (u.previous, u.reuse, u.localGraph, u.queries, u.trace, u.outcome, u.subUnits)

/-- The second unit has taken over the same as the first one. It may be done by now, if it had a
result. -/
structure UnitNode.Abides (u v : UnitNode γ) : Prop where
  legacy : v.legacy = u.legacy
  phase : v.phase = u.phase ∨ v.phase = .done ∧ u.outcome.isSome = true

namespace UnitNode.Abides

variable {u v w : UnitNode γ} {t : Turn γ}

theorem refl (u : UnitNode γ) : u.Abides u := ⟨rfl, .inl rfl⟩

theorem previous (h : u.Abides v) : v.previous = u.previous := congrArg Prod.fst h.legacy

theorem reuse (h : u.Abides v) : v.reuse = u.reuse := congrArg (·.2.1) h.legacy

theorem localGraph (h : u.Abides v) : v.localGraph = u.localGraph := congrArg (·.2.2.1) h.legacy

theorem queries (h : u.Abides v) : v.queries = u.queries := congrArg (·.2.2.2.1) h.legacy

theorem trace (h : u.Abides v) : v.trace = u.trace := congrArg (·.2.2.2.2.1) h.legacy

theorem outcome (h : u.Abides v) : v.outcome = u.outcome := congrArg (·.2.2.2.2.2.1) h.legacy

theorem subUnits (h : u.Abides v) : v.subUnits = u.subUnits := congrArg (·.2.2.2.2.2.2) h.legacy

theorem trans (h : u.Abides v) (h' : v.Abides w) : u.Abides w := by
  refine ⟨h'.legacy.trans h.legacy, ?_⟩
  obtain hsame | ⟨hdone, houtcome⟩ := h'.phase
  · rw [hsame]
    exact h.phase
  · exact .inr ⟨hdone, h.outcome ▸ houtcome⟩

theorem edit (h : u.Abides t.unit) {f : UnitNode γ → UnitNode γ}
    (hf : ((f t.unit).legacy, (f t.unit).phase) = (t.unit.legacy, t.unit.phase)) :
    u.Abides (t.edit f).unit :=
  h.trans ⟨congrArg Prod.fst hf, .inl (congrArg Prod.snd hf)⟩

theorem tell (h : u.Abides t.unit) (receivers : List ChannelId) (p : Parcel) :
    u.Abides (t.tell receivers p).unit := by
  rwa [Turn.unit_tell]

theorem settleActive (h : u.Abides t.unit) (a : Activation) : u.Abides (t.settleActive a).unit :=
  (h.edit (by rfl)).tell _ _

theorem settleDecision (h : u.Abides t.unit) (p : Option Renaming) :
    u.Abides (t.settleDecision p).unit :=
  (h.edit (by rfl)).tell _ _

theorem endLocalPhase (h : u.Abides t.unit) : u.Abides t.endLocalPhase.unit :=
  (h.edit (by rfl)).tell _ _

theorem fireDelays (h : u.Abides t.unit) : u.Abides t.fireDelays.unit :=
  (h.edit (by rfl)).tell _ _

/-- Only a unit that has a result finishes. -/
theorem tryFinish (h : u.Abides t.unit) : u.Abides t.tryFinish.unit := by
  rw [Turn.tryFinish]
  split
  · rename_i hcan
    simp only [UnitNode.canFinish, Bool.and_eq_true] at hcan
    refine h.trans ?_
    dsimp only
    rw [Turn.unit_tell]
    exact ⟨rfl, .inr ⟨rfl, hcan.1.1.2⟩⟩
  · exact h

theorem waitFor (h : u.Abides t.unit) (token : Token) (holder : UnitId) :
    u.Abides (t.waitFor token holder).unit :=
  h.trans ⟨rfl, .inl rfl⟩

theorem waitForAll (h : u.Abides t.unit) (tokens : List Token) (holder : UnitId) :
    u.Abides (t.waitForAll tokens holder).unit := by
  rw [Turn.waitForAll]
  induction tokens generalizing t with
  | nil => exact h
  | cons token tokens ih => exact ih (h.waitFor token holder)

theorem grant (h : u.Abides t.unit) (token : Token) (holder : UnitId) :
    u.Abides (t.grant token holder).unit := by
  rw [Turn.grant]
  split
  · exact h
  · have hlowered {waits : TokenBag} : u.Abides { t.unit with waits := waits } :=
      h.trans ⟨rfl, .inl rfl⟩
    exact tryFinish (fireDelays hlowered)

theorem grantAll (h : u.Abides t.unit) (tokens : List (Token × UnitId)) :
    u.Abides (t.grantAll tokens).unit := by
  rw [Turn.grantAll]
  induction tokens generalizing t with
  | nil => exact h
  | cons e es ih => exact ih (h.grant e.1 e.2)

theorem shareInitialized (h : u.Abides t.unit) (sender : UnitId) (s : Scope) (slots : List Slot)
    (sharing : Bool) : u.Abides (t.shareInitialized sender s slots sharing).unit := by
  rw [Turn.shareInitialized]
  split
  · exact ((h.waitForAll _ _).waitFor _ _).grant _ _
  · exact (h.waitForAll _ _).grant _ _

theorem listen {π : Type} {promise : UnitNode γ → Promise π}
    {put : Promise π → UnitNode γ → UnitNode γ} {wrap : π → Parcel} (h : u.Abides t.unit)
    (hput : ∀ (p : Promise π) (v : UnitNode γ), v.Abides (put p v)) :
    u.Abides (t.listen promise put wrap).2.unit := by
  rw [Turn.listen]
  dsimp only
  split
  · exact h
  · exact h.trans (hput _ _)

theorem matchStep (h : u.Abides t.unit) (s : Scope) : u.Abides (t.matchStep s).2.unit := by
  unfold Turn.matchStep
  dsimp only
  split
  · exact h
  · split
    · exact h
    · split
      · split
        · exact h
        · exact h.edit (by rfl)
      · split <;> exact h

theorem diffScope (h : u.Abides t.unit) (s : Scope) (labels : List Label) :
    u.Abides (t.diffScope s labels).2.unit := by
  unfold Turn.diffScope
  split
  · exact h
  · exact h.edit (by rfl)

theorem handle (h : u.Abides t.unit) {m : Message}
    (hm : t.unit.phase = .created → m.roots? = none) : u.Abides (t.handle m).unit := by
  cases m with
  | start roots =>
    have hphase : t.unit.phase ≠ .created := fun hcreated ↦ nomatch hm hcreated
    rw [Turn.handle, Turn.start, if_pos hphase]
    exact h
  | unitStarted | closeEdge | closeScope => exact h.grant _ _
  | initShare sender s slots sharing => exact h.shareInitialized sender s slots sharing
  | addShare sender s => exact h.waitFor _ _
  | addEdge sender e =>
    rw [Turn.handle, Turn.receiveEdge]
    split
    · exact h.edit (by rfl)
    · exact h
  | query | queryPrevious | confirm | counterpart => exact h

/-- A unit that is given up keeps the result that it has. -/
theorem failStuck (h : u.Abides t.unit) (houtcome : t.unit.outcome.isSome = true) :
    u.Abides t.failStuck.unit := by
  refine h.trans ?_
  unfold Turn.failStuck
  split
  · exact .refl _
  · extract_lets entries delays effects granted emptied hungUp ended
    have hhungUp : t.unit.Abides hungUp.unit := by
      have hunit : hungUp.unit = emptied.unit := Turn.unit_fillAll _ _ _
      rw [hunit]
      exact ⟨rfl, .inl rfl⟩
    have hclosed : t.unit.Abides hungUp.endLocalPhase.unit := hhungUp.endLocalPhase
    have hended : t.unit.Abides ended.unit :=
      hclosed.trans ⟨rfl, .inr ⟨rfl, by rw [hclosed.outcome, houtcome]⟩⟩
    clear_value ended
    obtain ⟨d, hd⟩ := Option.isSome_iff_exists.1 (hended.outcome.symm ▸ houtcome)
    have hfailed : ended.unit.Abides (ended.edit fun u ↦
        { u with
          failures := u.failures ++ ["stuck: no further progress possible"]
          outcome := u.outcome.orElse fun _ ↦ some none }).unit := by
      refine .edit (.refl _) ?_
      simp [UnitNode.legacy, hd]
    exact hended.trans (((hfailed.settleActive _).settleDecision _).tryFinish)

end UnitNode.Abides

/-- Whether an operation is one that happens to a unit in a run in which sub-units have plain names.
Checkers act for units that have one and do not add stand-ins, nobody is told to run because it was
released, and no unit is given up that has still to be started. -/
def UnitOp.IsOrderly (u : UnitNode γ) : {α : Type} → UnitOp γ α → Prop
  | _, act a => u.kind.isChecker = true ∧ a.IsRegular IsPlainName
  | _, begin _ | _, checkerFinished _ | _, endQuery _ _ => u.kind.isChecker = true
  | _, restart trace => trace ≠ .released
  | _, failStuck => u.phase ≠ .created
  | _, _ => True

/-- The root scopes with which an operation starts a unit. -/
def UnitOp.roots? : {α : Type} → UnitOp γ α → Option (List Scope)
  | _, handle m => m.roots?
  | _, _ => none

/-- **A stand-in keeps what it has taken over**, whatever happens to it but its start. -/
theorem UnitOp.abides_run (op : UnitOp γ α) {t : Turn γ} (hop : op.IsOrderly t.unit)
    (hkind : t.unit.kind.isChecker = false)
    (hphase : t.unit.phase ≠ .started ∧ t.unit.phase ≠ .undecided)
    (houtcome : t.unit.phase ≠ .created → t.unit.outcome.isSome = true)
    (hstart : t.unit.phase = .created → op.roots? = none) :
    t.unit.Abides (op.run t).2.unit := by
  have hchecker {P : Prop} (h : t.unit.kind.isChecker = true) : P := nomatch hkind.symm.trans h
  have hrefl : t.unit.Abides t.unit := .refl _
  cases op with
  | act a => exact hchecker hop.1
  | begin | checkerFinished | endQuery => exact hchecker hop
  | keepState state => exact hrefl.edit (by rfl)
  | eagerStart =>
    rw [run, Turn.eagerStart, if_neg hphase.1]
    exact hrefl
  | awaitDecided =>
    have hlisten : t.unit.Abides (t.listen UnitNode.whenActive
        (fun p u ↦ { u with whenActive := p }) .activation).2.unit :=
      hrefl.listen fun _ _ ↦ ⟨rfl, .inl rfl⟩
    rw [run, Turn.awaitDecided]
    split
    · exact hlisten
    · exact hlisten
    · exact hlisten
    · exact hrefl
  | awaitClosed s slot =>
    rw [run, Turn.awaitClosed]
    split
    · exact hrefl
    · exact ⟨rfl, .inl rfl⟩
  | awaitOpen | awaitDecision | awaitReport => exact hrefl.listen fun _ _ ↦ ⟨rfl, .inl rfl⟩
  | ask q => exact ⟨rfl, .inl rfl⟩
  | endAsking ticket => exact hrefl.grant _ _
  | matchStep s => exact hrefl.matchStep s
  | diffScope s labels => exact hrefl.diffScope s labels
  | handle m => exact hrefl.handle hstart
  | subUnitFinished r => exact (hrefl.edit (by rfl)).tryFinish
  | release p =>
    rw [run, Turn.release_of_not _ fun _ hundecided _ ↦ hphase.2 hundecided]
    exact hrefl
  | restart trace =>
    have hcan : ¬ t.canRestart = true := by simpa [Turn.canRestart] using hphase
    rw [run, Turn.restart, if_neg hcan]
    exact hrefl
  | endLocalPhase => exact (hrefl.edit (by rfl)).endLocalPhase
  | grantClosures => exact ((hrefl.grantAll _).edit (by rfl)).fireDelays
  | failStuck => exact hrefl.failStuck (houtcome hop)

/-! ## Taking over -/

namespace UnitNode

/-- A unit has taken over a report under a renaming. It has a sub-unit for every one that is in the
report. -/
structure Inherits (u : UnitNode γ) (r : Report) (p : Renaming) : Prop where
  started : u.phase ≠ .created
  previous : u.previous = some r
  reuse : u.reuse = some p
  subUnits : ∀ name s, r.sub? name = some s → u.subUnits.contains name = true

/-- A stand-in has taken over a report under a renaming, and shows what is in the report. -/
structure Copies (w : UnitNode γ) (r : Report) (p : Renaming) : Prop extends w.Inherits r p where
  phase : w.phase = .released ∨ w.phase = .done
  trace : w.trace = .released
  localGraph : w.localGraph = r.localGraph.rename p
  queries : w.queries = r.queries
  outcome : w.outcome = some (r.result.map (Datum.rename p))

variable {u v : UnitNode γ} {r : Report} {p : Renaming}

theorem Copies.abides (h : u.Copies r p) (h' : u.Abides v) : v.Copies r p := by
  have hphase : v.phase = .released ∨ v.phase = .done := by
    obtain hsame | ⟨hdone, -⟩ := h'.phase
    · exact hsame ▸ h.phase
    · exact .inr hdone
  exact
    { started := by rcases hphase with heq | heq <;> simp [heq]
      previous := h'.previous.trans h.previous
      reuse := h'.reuse.trans h.reuse
      subUnits := fun name s hs ↦ h'.subUnits ▸ h.subUnits name s hs
      phase := hphase
      trace := h'.trace.trans h.trace
      localGraph := h'.localGraph.trans h.localGraph
      queries := h'.queries.trans h.queries
      outcome := h'.outcome.trans h.outcome }

/-- A stand-in that has not been started waits as it did before. -/
theorem StandsBy.abides (h : u.StandsBy r p) (houtcome : u.outcome = none) (h' : u.Abides v) :
    v.StandsBy r p := by
  refine ⟨?_, h'.previous.trans h.previous, h'.reuse.trans h.reuse,
    h'.localGraph.trans h.localGraph⟩
  obtain hsame | ⟨-, hsome⟩ := h'.phase
  · exact hsame.trans h.phase
  · rw [houtcome] at hsome
    exact nomatch hsome

end UnitNode

/-- A plain deed by which no unit is added. -/
def Deed.IsSolitary : Deed γ → Prop
  | join _ _ => False
  | d => d.IsPlain

theorem Deed.IsSolitary.isPlain {d : Deed γ} (h : d.IsSolitary) : d.IsPlain := by
  cases d with
  | join => exact h.elim
  | raise | lower | forget | send | edge | datum | receive | share | hesitate => exact h

namespace Turn

variable {t t' : Turn γ} {r : Report} {p : Renaming} {A : Deed γ → Prop}

/-- A unit that has been started stays so. -/
theorem Moves.phase_ne_created (h : t.Moves A t') (hphase : t.unit.phase ≠ .created) :
    t'.unit.phase ≠ .created := by
  induction h with
  | refl => exact hphase
  | note _ hnotes ih =>
    exact fun hcreated ↦ ih ((hnotes.unit.phase (.inl hcreated)).symm.trans hcreated)
  | @deed t' _ d _ ih =>
    cases d with
    | lower token holder =>
      rw [Deed.after, lower]
      split <;> exact ih
    | edge e =>
      rw [Deed.after, assertEdge]
      split <;> exact ih
    | datum s d =>
      rw [Deed.after, assertDatum]
      split <;> exact ih
    | receive e =>
      rw [Deed.after, receiveEdge]
      split <;> exact ih
    | hesitate => simp [Deed.after, Turn.edit]
    | raise | forget | send | join | share => exact ih

/-- A unit that is told to start has been started afterwards. -/
theorem phase_start_ne_created (t : Turn γ) (roots : List Scope) :
    (t.start roots).unit.phase ≠ .created := by
  unfold start
  split
  · rename_i hphase
    exact hphase
  · extract_lets begun told
    have htold : told.unit.phase ≠ .created := by
      unfold told
      split <;> exact nofun
    clear_value told
    split
    · exact htold
    · have hmoves : told.Moves (Deed.IsApart t.unit.id) told.startReplaying :=
        told.moves_startReplaying
      exact hmoves.phase_ne_created htold
    · have hmoves : told.Moves (Deed.IsCalm t.unit.id) told.startRemoved := told.moves_startRemoved
      exact hmoves.phase_ne_created htold
    · rename_i lib _
      have hmoves : told.Moves (Deed.IsApart t.unit.id) (told.startLibrary lib) :=
        told.moves_startLibrary lib
      exact hmoves.phase_ne_created htold

/-- A unit that has settled for a renaming asserts its previous graph again under it. -/
theorem exists_replay (hbegun : t.Moves Deed.IsPlain t') (hreuse : t'.unit.reuse = some p)
    (houtcome : t'.unit.outcome = none) (r : Report) :
    ∃ replayed, t'.replay r p = replayed ∧ t.Moves Deed.IsPlain replayed ∧
      replayed.effects.newUnits = t'.effects.newUnits ∧
      replayed.unit.previous = t'.unit.previous ∧ replayed.unit.reuse = some p ∧
      (t'.unit.localGraph = .empty → replayed.unit.localGraph = r.localGraph.rename p) := by
  have hstays : t'.Stays (t'.replay r p) := (Stays.refl t').replay houtcome r p
  have hasserts := t'.asserts_replay r p
  have hmoves : t'.Moves (Deed.IsApart t.unit.id) (t'.replay r p) := t'.moves_replay r p
  refine ⟨_, rfl, hbegun.trans (hmoves.mono fun _ hd ↦ hd.isPlain), hstays.newUnits,
    hasserts.previous, hasserts.reuse.trans hreuse, fun hempty ↦ ?_⟩
  rw [(t'.records_replay p r).localGraph, hempty, ScopeGraph.extend_empty]
  rfl

/-- A unit that has asserted its previous graph again takes its report over when it replays its
sub-units. -/
theorem exists_adds_inherits (hmoves : t.Moves Deed.IsPlain t')
    (hnewUnits : t'.effects.newUnits = t.effects.newUnits) (hphase : t.unit.phase ≠ .created)
    (hprevious : t'.unit.previous = some r) (hreuse : t'.unit.reuse = some p) :
    ∃ js, t.Adds js t'.replaySubUnits ∧
      (∀ j ∈ js, ∃ name s, r.HasStandIn t.unit.id p j name s) ∧
      (∃ waits sharedPairs differ subUnits, t'.replaySubUnits.unit =
        { t'.unit with
          waits := waits, sharedPairs := sharedPairs, differ := differ, subUnits := subUnits }) ∧
      t'.replaySubUnits.unit.Inherits r p := by
  have horIdentity : t'.unit.reuseOrIdentity = p := by rw [UnitNode.reuseOrIdentity, hreuse]; rfl
  obtain ⟨js, hadds, hjs, hunit, hsubUnits⟩ := t'.exists_adds_replaySubUnits hprevious
  rw [horIdentity, hmoves.id] at hjs
  refine ⟨js, ?_, hjs, hunit, ?_⟩
  · simpa using (hmoves.adds_nil hnewUnits).trans hadds
  · obtain ⟨waits, sharedPairs, differ, subUnits, hunit⟩ := hunit
    refine ⟨?_, ?_, ?_, hsubUnits⟩ <;> rw [hunit]
    · exact hmoves.phase_ne_created hphase
    · exact hprevious
    · exact hreuse

/-- **A unit that is released takes its report over.** -/
theorem exists_adds_release (hsound : t.unit.life.IsSound) (hphase : t.unit.phase = .undecided)
    (hprevious : t.unit.previous = some r) (p : Renaming) :
    ∃ js, t.Adds js (t.release p) ∧
      (∀ j ∈ js, ∃ name s, r.HasStandIn t.unit.id p j name s) ∧
      (t.release p).unit.Inherits r p := by
  unfold release
  split
  · rename_i r' _ hsome
    obtain rfl : r' = r := Option.some.inj (hsome.symm.trans hprevious)
    extract_lets replayed told settled
    have hbegun : t.Moves Deed.IsPlain (t.edit fun u ↦ { u with reuse := some p }) :=
      (Moves.refl t).edit (by rfl)
    obtain ⟨replayed', heq, hmoves, hnewUnits, hknown, hreuse, -⟩ :=
      exists_replay hbegun rfl (hsound.outcome_of_undecided hphase) r'
    obtain rfl : replayed = replayed' := heq
    clear_value replayed
    let granted : Turn γ := settled.grant .activate settled.unit.id
    have hlater : replayed.Moves Deed.IsSolitary granted := by
      have htold : replayed.Moves Deed.IsSolitary told := (Moves.refl _).enter rfl ⟨nofun, nofun⟩
      exact (((htold.settleActive _).settleDecision _).endLocalPhase).grant trivial
    have hsubsides : replayed.unit.Subsides granted.unit := by
      have htold : replayed.unit.Subsides told.unit := (UnitNode.Subsides.refl _).edit (by rfl)
      exact (((htold.settleActive _).settleDecision _).endLocalPhase).grant _ _
    obtain ⟨js, hadds, hjs, -, hinherits⟩ := exists_adds_inherits
      (hmoves.trans (hlater.mono fun _ hd ↦ hd.isPlain))
      ((hlater.newUnits fun _ _ ↦ not_false).trans hnewUnits) (by simp [hphase])
      ((hsubsides.previous.trans hknown).trans hprevious) (hsubsides.reuse.trans hreuse)
    exact ⟨js, hadds, hjs, hinherits⟩
  · rename_i hne
    exact absurd hprevious (hne r hphase)

/-- A unit that stays alone in a go adds nothing. -/
theorem Moves.adds_nil_of_isSolitary (h : t.Moves Deed.IsSolitary t') : t.Adds [] t' :=
  (h.mono fun _ hd ↦ hd.isPlain).adds_nil (h.newUnits fun _ _ ↦ not_false)

theorem exists_adds_startReplaying (hprevious : t.unit.previous = some r)
    (hlocalGraph : t.unit.localGraph = .empty) (hphase : t.unit.phase ≠ .created)
    (houtcome : t.unit.outcome = none) :
    let p := t.unit.rootPairs t.unit.reuseOrIdentity
    ∃ js, t.Adds js t.startReplaying ∧
      (∀ j ∈ js, ∃ name s, r.HasStandIn t.unit.id p j name s) ∧
      t.startReplaying.unit.Copies r p := by
  unfold startReplaying
  split
  · rename_i hnone
    exact nomatch hprevious.symm.trans hnone
  · rename_i r' hsome
    obtain rfl : r' = r := Option.some.inj (hsome.symm.trans hprevious)
    extract_lets p replayed told handed
    have hbegun : t.Moves Deed.IsPlain (t.edit fun u ↦ { u with reuse := some p }) :=
      (Moves.refl t).edit (by rfl)
    obtain ⟨replayed', heq, hmoves, hnewUnits, hknown, hreuse, hgraph⟩ :=
      exists_replay hbegun rfl houtcome r'
    obtain rfl : replayed = replayed' := heq
    clear_value replayed p
    let settled : Turn γ := (told.settleActive .reusing).settleDecision (some p)
    have hlater : replayed.Moves Deed.IsSolitary settled := by
      have htold : replayed.Moves Deed.IsSolitary told := (Moves.refl _).enter rfl ⟨nofun, nofun⟩
      exact (htold.settleActive _).settleDecision _
    have habides : told.unit.Abides settled.unit :=
      ((UnitNode.Abides.refl _).settleActive _).settleDecision _
    have hlife : settled.unit.life.phase = .released := by
      rw [life_settleDecision, life_settleActive]
      rfl
    obtain ⟨js, hadds, hjs, ⟨waits, sharedPairs, differ, subUnits, hunit⟩, hinherits⟩ :=
      exists_adds_inherits (hmoves.trans (hlater.mono fun _ hd ↦ hd.isPlain))
        ((hlater.newUnits fun _ _ ↦ not_false).trans hnewUnits) hphase
        ((habides.previous.trans hknown).trans hprevious) (habides.reuse.trans hreuse)
    change t.Adds js handed at hadds
    change handed.unit = _ at hunit
    change handed.unit.Inherits r' p at hinherits
    let served : Turn γ := handed.edit fun u ↦
      { u with outcome := some (r'.result.map (Datum.rename p)) }
    have hserved : served.unit.Copies r' p :=
      { started := hinherits.started
        previous := hinherits.previous
        reuse := hinherits.reuse
        subUnits := hinherits.subUnits
        phase := .inl ((congrArg UnitNode.phase hunit).trans hlife)
        trace := (congrArg UnitNode.trace hunit).trans habides.trace
        localGraph := ((congrArg UnitNode.localGraph hunit).trans habides.localGraph).trans
          (hgraph hlocalGraph)
        queries := (congrArg UnitNode.queries hunit).trans habides.queries
        outcome := rfl }
    have hended : handed.Moves Deed.IsSolitary served.tryFinish :=
      ((Moves.refl handed).edit (by rfl)).tryFinish
    refine ⟨js, ?_, hjs, hserved.abides (.tryFinish (.refl _))⟩
    simpa using hadds.trans hended.adds_nil_of_isSolitary

/-- **A stand-in that is started takes its report over**, under a renaming that comes from the one
it was given and from its root scopes. -/
theorem exists_adds_start (h : t.unit.StandsBy r p) (hkind : t.unit.kind = .phantom true)
    (houtcome : t.unit.outcome = none) (roots : List Scope) :
    ∃ js, t.Adds js (t.start roots) ∧
      (∀ j ∈ js, ∃ name s, r.HasStandIn t.unit.id (t.unit.replayed roots) j name s) ∧
      (t.start roots).unit.Copies r (t.unit.replayed roots) := by
  unfold start
  rw [if_neg (not_not_intro h.phase)]
  extract_lets begun told
  have htold : t.Moves Deed.IsSolitary told ∧ told.unit = begun.unit := by
    have hbegun : t.Moves Deed.IsSolitary begun := (Moves.refl t).enter rfl ⟨nofun, nofun⟩
    unfold told
    split
    · exact ⟨hbegun.send trivial, rfl⟩
    · exact ⟨hbegun, rfl⟩
  clear_value told
  obtain ⟨hmoves, hunit⟩ := htold
  have hkind' : told.unit.kind = .phantom true := by rw [hunit]; exact hkind
  split
  · rename_i hchecker
    exact nomatch hkind'.symm.trans hchecker
  · obtain ⟨js, hadds, hjs, hcopies⟩ := exists_adds_startReplaying (t := told) (r := r)
      (by rw [hunit]; exact h.previous) (by rw [hunit]; exact h.localGraph)
      (by rw [hunit]; exact nofun) (by rw [hunit]; exact houtcome)
    have hsame : told.unit.rootPairs told.unit.reuseOrIdentity = t.unit.replayed roots := by
      rw [hunit]
      rfl
    rw [hsame, hmoves.id] at hjs
    rw [hsame] at hcopies
    exact ⟨js, by simpa using hmoves.adds_nil_of_isSolitary.trans hadds, hjs, hcopies⟩
  · rename_i hremoved
    exact nomatch hkind'.symm.trans hremoved
  · rename_i hlibrary
    exact nomatch hkind'.symm.trans hlibrary

end Turn

/-- The renaming of a stand-in sends all scopes where the one that it was given sends them, if it is
started with the previous root scopes, renamed. -/
theorem UnitNode.StandsBy.apply_replayed {w : UnitNode γ} {r : Report} {p : Renaming}
    (h : w.StandsBy r p) (s : Scope) :
    (w.replayed (r.roots.map p.apply)).apply s = p.apply s := by
  have heq : w.replayed (r.roots.map p.apply) =
      p.putEach (r.roots.zip (r.roots.map p.apply)) := by
    rw [replayed, rootPairs, reuseOrIdentity, h.previous, h.reuse]
    rfl
  rw [heq, Renaming.apply_putEach_zip_map]

end ScopeGraphs
