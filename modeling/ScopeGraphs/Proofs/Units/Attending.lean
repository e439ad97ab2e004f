import ScopeGraphs.Proofs.Units.Awaking

/-!
# Nobody waits for a slot that is closed

Whatever happens to a unit, nobody waits afterwards for a slot that is closed, and whoever has been
taken off the list was told when it was closed, unless the unit was given up (`UnitOp.alert_run`,
`UnitOp.delays_run`).

Most operations are put together from pieces that tell whoever has to be told (`Turn.Heeds`). Three
kinds of them are not. Some open slots of scopes of other units, some put somebody on the list and make
a channel for that, and one gives the unit up. None of them takes anybody off the list, except the last.

What a unit keeps open on a scope of another unit when it resumes a state of the previous run takes the
place of what it kept open there before. This closes nothing because a unit keeps slots open only on
scopes that it has initialised, and a state is resumed only on scopes that it has not
(`UnitNode.IsAnnounced`).
-/

namespace ScopeGraphs

variable {γ α β : Type}

/-! ## What opens slots or lets somebody wait -/

namespace UnitNode.Opens

variable {u : UnitNode γ} {t : Turn γ}

theorem keepOpen (h : u.Opens t.unit) (s : Scope) (slots : List Slot) :
    u.Opens (t.keepOpen s slots).unit :=
  h.trans (.share t.unit s _ fun _ _ hshares ↦
    SortedSet.mem_foldl_insert.2 (.inr (shares_iff.1 hshares)))

theorem resumeRoot (h : u.Opens t.unit) (x : Snapshot) (e : Scope × Scope) :
    u.Opens (Turn.resumeRoot x t e).unit := by
  rw [Turn.resumeRoot]
  split
  · exact h
  · rename_i hnew
    refine h.trans (.share t.unit e.2 _ fun hu slot hshares ↦ absurd (hu e.2 slot hshares) ?_)
    simp only [Bool.or_eq_true, not_or] at hnew
    exact fun hmem ↦ hnew.2 (Std.ExtTreeSet.mem_iff_contains.1 hmem)

theorem restore (h : u.Opens t.unit) (x : Snapshot) : u.Opens (t.restore x).unit := by
  unfold Turn.restore
  extract_lets me known initialized opened own slotted asserted before resumed
  have hasserted : t.Calms asserted :=
    (((((Turn.Calms.refl t).edit (by rfl)).waitForAll _ _).waitForAll _ _).waitForAll _ _).assertGraph
      _ _
  have hresumed (es : List (Scope × Scope)) {t : Turn γ} (h : u.Opens t.unit) :
      u.Opens (es.foldl (Turn.resumeRoot x) t).unit := by
    induction es generalizing t with
    | nil => exact h
    | cons e es ih => exact ih (h.resumeRoot x e)
  have hended : resumed.Calms
      (resumed.edit fun u ↦ { u with snapshot := some x }).endLocalPhase :=
    ((Turn.Calms.refl resumed).edit (by rfl)).endLocalPhase
  exact (hresumed _ (h.trans hasserted.opens)).trans hended.opens

theorem listen {π : Type} {promise : UnitNode γ → Promise π}
    {put : Promise π → UnitNode γ → UnitNode γ} {wrap : π → Parcel} (h : u.Opens t.unit)
    (hput : ∀ (p : Promise π) (v : UnitNode γ), (put p v).vigil = v.vigil) :
    u.Opens (t.listen promise put wrap).2.unit := by
  unfold Turn.listen
  dsimp only
  split
  · exact h
  · exact h.trans (.of_vigil (hput _ _))

theorem awaitDecided (h : u.Opens t.unit) : u.Opens t.awaitDecided.2.unit := by
  have hlisten : u.Opens (t.listen UnitNode.whenActive
      (fun p u ↦ { u with whenActive := p }) .activation).2.unit :=
    h.listen fun _ _ ↦ rfl
  rw [Turn.awaitDecided]
  split
  · exact hlisten
  · exact hlisten
  · exact hlisten
  · exact h

end UnitNode.Opens

/-- Nobody waits for a slot of a unit that has just been added. -/
theorem UnitNode.IsBlank.isAlert {u : UnitNode γ} (h : u.IsBlank) : u.IsAlert := by
  refine ⟨fun s slot hshares ↦ ?_, fun d hd ↦ ?_⟩
  · rw [UnitNode.shares, h.shared, Std.ExtTreeMap.getElem?_empty] at hshares
    exact absurd hshares Bool.false_ne_true
  · rw [h.delays] at hd
    exact absurd hd List.not_mem_nil

namespace Turn

variable {t t' : Turn γ}

/-- Whoever waited for a slot does so still, or was told when it was closed, and nobody waits for a
slot that is closed. -/
structure Attends (t t' : Turn γ) : Prop where
  alert : t.unit.IsAlert → t'.unit.IsAlert
  delays : ∀ d ∈ t.unit.delays, d ∈ t'.unit.delays ∨ t.Rouses d t'

theorem Heeds.attends (h : t.Heeds t') : t.Attends t' := ⟨h.alert, h.delays⟩

theorem attends_of_opens (h : t.unit.Opens t'.unit) : t.Attends t' :=
  ⟨h.alert, fun _ hd ↦ .inl (h.delays ▸ hd)⟩

/-- Somebody is put on the list only if the slot is open. -/
theorem attends_awaitClosed (t : Turn γ) (s : Scope) (slot : Slot) :
    t.Attends (t.awaitClosed s slot).2 := by
  rw [awaitClosed]
  split
  · exact (Heeds.refl t).attends
  · rename_i hopen
    refine ⟨fun hu ↦ ⟨hu.announced, fun d hd ↦ ?_⟩, fun d hd ↦ .inl (List.mem_append_left _ hd)⟩
    obtain hold | hnew := List.mem_append.1 hd
    · exact hu.opened d hold
    · rw [List.mem_singleton.1 hnew]
      exact Bool.eq_false_iff.2 hopen

/-- A unit that is given up has nobody on its list. -/
theorem alert_failStuck (h : t.unit.IsAlert) : t.failStuck.unit.IsAlert := by
  unfold failStuck
  split
  · exact h
  · extract_lets entries delays effects granted emptied hungUp ended
    have hemptied : emptied.unit.IsAlert :=
      ⟨fun s slot hshares ↦ by simp [UnitNode.shares, emptied, edit] at hshares,
        List.forall_mem_nil _⟩
    have hhungUp : hungUp.unit = emptied.unit := emptied.unit_fillAll _ _
    have hended : hungUp.Calms ended := (Calms.refl hungUp).endLocalPhase.edit (by rfl)
    exact (hended.fail _).opens.alert (hhungUp ▸ hemptied)

end Turn

/-! ## Actions of the checker -/

namespace Attempt

/-- Whatever comes of the attempt, whoever has to be told is told. -/
def Heeds (x : Attempt γ α) : Prop := ∀ t : Turn γ, t.Heeds (x t).2

namespace Heeds

variable {x : Attempt γ α} {f : α → Attempt γ β}

theorem bind (h : x.Heeds) (hf : ∀ a, (f a).Heeds) : (x >>= f).Heeds := by
  intro t
  have hx := h t
  rw [bind_apply]
  split
  · rename_i a t' heq
    rw [heq] at hx
    exact hx.trans (hf a t')
  · rename_i heq
    rwa [heq] at hx

theorem pure (a : α) : (Pure.pure a : Attempt γ α).Heeds := fun t ↦ .refl t

theorem throw (e : Fault) : (throw e : Attempt γ α).Heeds := fun t ↦ .refl t

theorem ite {c : Prop} [Decidable c] {x y : Attempt γ α} (hx : x.Heeds) (hy : y.Heeds) :
    (if c then x else y).Heeds := by
  split
  · exact hx
  · exact hy

/-- What follows may depend on the unit as it stands. -/
theorem unit {f : UnitNode γ → Attempt γ α} (hf : ∀ u, (f u).Heeds) :
    (Attempt.unit >>= f).Heeds := by
  intro t
  rw [unit_bind]
  exact hf _ t

theorem change {f : Turn γ → Turn γ} (hf : ∀ t : Turn γ, t.Heeds (f t)) : (change f).Heeds := hf

/-- A change by which nothing is closed. -/
theorem calms {f : Turn γ → Turn γ} (hf : ∀ t : Turn γ, t.Calms (f t)) :
    (Attempt.change f).Heeds :=
  fun t ↦ .of_calms (hf t)

theorem require (ok : Bool) (e : Fault) : (require ok e : Attempt γ PUnit).Heeds := by
  cases ok
  · exact throw e
  · exact pure _

theorem requireLive : (requireLive : Attempt γ PUnit).Heeds := unit fun _ ↦ require _ _

theorem requireKnown (s : Scope) : (requireKnown s : Attempt γ PUnit).Heeds :=
  unit fun _ ↦ require _ _

theorem commit : (commit : Attempt γ PUnit).Heeds := by
  intro t
  rw [(commit_apply t).1]
  exact (Turn.Heeds.refl t).eagerStart

end Heeds

theorem heeds_freshScope (base : String) (labels : List Label) (hasDatum sharing : Bool) :
    (freshScope base labels hasDatum sharing : Attempt γ Scope).Heeds := by
  have hcreate : (create base labels hasDatum sharing : Attempt γ Scope).Heeds :=
    .unit fun _ ↦ .bind (.calms fun t ↦ (Turn.Calms.refl t).edit (by rfl)) fun _ ↦
      .bind (.calms fun t ↦ (Turn.Calms.refl t).waitForAll _ _) fun _ ↦ .pure _
  rw [freshScope_eq]
  exact Heeds.requireLive.bind fun _ ↦ .ite hcreate (Heeds.commit.bind fun _ ↦ hcreate)

theorem heeds_shareScope (s : Scope) : (shareScope s : Attempt γ PUnit).Heeds :=
  Heeds.requireLive.bind fun _ ↦ .unit fun _ ↦ .ite
    (.calms fun t ↦ (Turn.Calms.refl t).waitFor _ _) (.calms fun t ↦ (Turn.Calms.refl t).send _ _)

theorem heeds_setDatum (s : Scope) (d : Datum) : (setDatum s d : Attempt γ PUnit).Heeds :=
  Heeds.requireLive.bind fun _ ↦ .unit fun _ ↦ (Heeds.require _ _).bind fun _ ↦
    (Heeds.requireKnown s).bind fun _ ↦ (Heeds.require _ _).bind fun _ ↦ .change fun t ↦
      (Turn.Heeds.of_calms ((Turn.Calms.refl t).assertDatum s d)).grant _ _

theorem heeds_addEdge (e : Edge) : (addEdge e : Attempt γ PUnit).Heeds := by
  have hassert : (change (Turn.assertEdge · e) : Attempt γ PUnit).Heeds :=
    .calms fun t ↦ (Turn.Calms.refl t).assertEdge e
  exact Heeds.requireLive.bind fun _ ↦ Heeds.commit.bind fun _ ↦ .unit fun _ ↦ .ite
    ((Heeds.requireKnown _).bind fun _ ↦ (Heeds.require _ _).bind fun _ ↦ hassert)
    ((Heeds.require _ _).bind fun _ ↦ hassert)

theorem heeds_closeLabel (s : Scope) (l : Label) : (closeLabel s l : Attempt γ PUnit).Heeds :=
  Heeds.requireLive.bind fun _ ↦ .unit fun _ ↦ .ite
    (.change fun t ↦ (Turn.Heeds.refl t).grant _ _)
    (.ite (.change fun t ↦ ((Turn.Heeds.refl t).dropShared _ _).calm ((Turn.Calms.refl _).send _ _))
      (.pure _))

theorem heeds_closeScope (s : Scope) : (closeScope s : Attempt γ PUnit).Heeds :=
  Heeds.requireLive.bind fun _ ↦ .unit fun _ ↦ .ite
    (.change fun t ↦ (Turn.Heeds.refl t).grant _ _) (.calms fun t ↦ (Turn.Calms.refl t).send _ _)

theorem heeds_beginQuery (path : Path) : (beginQuery path : Attempt γ Token).Heeds := by
  have hrequest : (modifyGet Turn.newRequest : Attempt γ Nat).Heeds :=
    fun t ↦ .of_calms ((Turn.Calms.refl t).other rfl rfl rfl rfl)
  exact hrequest.bind fun _ ↦ Heeds.requireLive.bind fun _ ↦ Heeds.commit.bind fun _ ↦
    .unit fun _ ↦ .bind (.calms fun t ↦ (Turn.Calms.refl t).waitFor _ _) fun _ ↦ .pure _

theorem heeds_addSubUnit (name : String) (kind : UnitKind γ) (roots : List Scope) (changed : Bool) :
    (addSubUnit name kind roots changed : Attempt γ UnitId).Heeds :=
  Heeds.requireLive.bind fun _ t ↦ .of_calms ((Turn.Calms.refl t).addSubUnit name kind roots changed)

theorem attends_initScope (s : Scope) (labels : List Label) (sharing : Bool) (t : Turn γ) :
    t.Attends (initScope s labels sharing t).2 := by
  rw [initScope, requireLive_bind]
  split
  · rw [unit_bind]
    split
    · exact ((Turn.Heeds.refl t).shareInitialized _ _ _ _).attends
    · exact Turn.attends_of_opens ((UnitNode.Opens.refl _).keepOpen s _)
  · exact (Turn.Heeds.refl t).attends

theorem attends_askForReuse (t : Turn γ) : t.Attends (askForReuse t).2 := by
  rw [askForReuse, unit_bind, require_bind]
  split
  · rw [get_bind]
    split
    · rw [change_bind]
      have hundecided : t.unit.Opens (t.edit fun u ↦ { u with phase := .undecided }).unit :=
        (UnitNode.Opens.refl _).edit (by rfl)
      cases t.unit.previous.bind Report.snapshot with
      | none => exact Turn.attends_of_opens hundecided
      | some x => exact Turn.attends_of_opens (hundecided.restore x)
    · exact ((Turn.Heeds.refl t).restart _).attends
  · exact (Turn.Heeds.refl t).attends

end Attempt

theorem Action.attends (a : Action γ α) (t : Turn γ) : t.Attends (a.attempt t).2 := by
  cases a with
  | freshScope base labels hasDatum sharing =>
    exact (Attempt.heeds_freshScope base labels hasDatum sharing t).attends
  | initScope s labels sharing => exact Attempt.attends_initScope s labels sharing t
  | shareScope s => exact (Attempt.heeds_shareScope s t).attends
  | setDatum s d => exact (Attempt.heeds_setDatum s d t).attends
  | addEdge e => exact (Attempt.heeds_addEdge e t).attends
  | closeLabel s l => exact (Attempt.heeds_closeLabel s l t).attends
  | closeScope s => exact (Attempt.heeds_closeScope s t).attends
  | beginQuery path => exact (Attempt.heeds_beginQuery path t).attends
  | addSubUnit name kind roots changed =>
    exact (Attempt.heeds_addSubUnit name kind roots changed t).attends
  | askForReuse => exact Attempt.attends_askForReuse t

/-! ## All operations -/

namespace UnitOp

/-- Whether a unit is given up. -/
def GivesUp : {α : Type} → UnitOp γ α → Prop
  | _, failStuck => True
  | _, _ => False

theorem attends (op : UnitOp γ α) (t : Turn γ) (hop : ¬ op.GivesUp) : t.Attends (op.run t).2 := by
  have hself := Turn.Heeds.refl t
  have hcalm := Turn.Calms.refl t
  have hopens := UnitNode.Opens.refl t.unit
  cases op with
  | act a => exact a.attends t
  | begin state =>
    exact Turn.attends_of_opens
      (hopens.edit (f := fun u ↦ { u with begun := true, checkerState := state }) rfl)
  | keepState state =>
    exact Turn.attends_of_opens (hopens.edit (f := fun u ↦ { u with checkerState := some state }) rfl)
  | eagerStart => exact hself.eagerStart.attends
  | checkerFinished result => exact (hself.checkerFinished result).attends
  | awaitDecided => exact Turn.attends_of_opens hopens.awaitDecided
  | awaitClosed s slot => exact t.attends_awaitClosed s slot
  | awaitOpen | awaitDecision | awaitReport => exact Turn.attends_of_opens (hopens.listen fun _ _ ↦ rfl)
  | ask q => exact Turn.attends_of_opens (hopens.waitFor _ _)
  | endAsking ticket => exact (hself.grant _ _).attends
  | endQuery token record =>
    exact ((Turn.Heeds.of_calms (hcalm.edit (by rfl))).grant _ _).attends
  | matchStep s =>
    suffices h : t.unit.Opens (t.matchStep s).2.unit from Turn.attends_of_opens h
    unfold Turn.matchStep
    dsimp only
    split
    · exact hopens
    · split
      · exact hopens
      · split
        · split
          · exact hopens
          · exact hopens.edit (by rfl)
        · split <;> exact hopens
  | diffScope s labels =>
    suffices h : t.unit.Opens (t.diffScope s labels).2.unit from Turn.attends_of_opens h
    unfold Turn.diffScope
    split
    · exact hopens
    · exact hopens.edit (by rfl)
  | handle m => exact (hself.handle m).attends
  | subUnitFinished r => exact (Turn.Heeds.of_calms (hcalm.edit (by rfl)).tryFinish).attends
  | release p => exact (hself.release p).attends
  | restart trace => exact (hself.restart trace).attends
  | endLocalPhase => exact (Turn.Heeds.of_calms (hcalm.edit (by rfl)).endLocalPhase).attends
  | grantClosures => exact hself.grantClosures.attends
  | failStuck => exact absurd trivial hop

/-- **Nobody waits for what is closed.** Whatever happens to a unit, nobody waits afterwards for a slot
that is closed. -/
theorem alert_run (op : UnitOp γ α) {t : Turn γ} (ht : t.unit.IsAlert) :
    (op.run t).2.unit.IsAlert := by
  by_cases hop : op.GivesUp
  · cases op with
    | failStuck => exact Turn.alert_failStuck ht
    | _ => exact hop.elim
  · exact (op.attends t hop).alert ht

/-- **Nobody is forgotten.** Whoever is no longer on the list after something has happened to a unit was
told when the slot was closed, or the unit was given up. -/
theorem delays_run (op : UnitOp γ α) (t : Turn γ) {d : Delay} (hd : d ∈ t.unit.delays) :
    d ∈ (op.run t).2.unit.delays ∨ t.Rouses d (op.run t).2 ∨
      op.GivesUp ∧ t.unit.finished = false := by
  by_cases hop : op.GivesUp
  · cases op with
    | failStuck =>
      cases hfinished : t.unit.finished with
      | false => exact .inr (.inr ⟨trivial, rfl⟩)
      | true =>
        have hkept : d ∈ t.failStuck.unit.delays := by rwa [Turn.failStuck, if_pos hfinished]
        exact .inl hkept
    | _ => exact hop.elim
  · exact ((op.attends t hop).delays d hd).imp_right .inl

end UnitOp

end ScopeGraphs
