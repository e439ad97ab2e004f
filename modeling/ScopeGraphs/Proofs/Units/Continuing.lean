import ScopeGraphs.Proofs.Units.Inheriting

/-!
# Units that replay nothing

A unit takes its report of the previous run over when it is released, and a stand-in does so when it
is started (`UnitOp.Replays`). Whatever else happens to a unit, it reuses its previous result if it
did so before, and the units that it adds do not replay (`UnitOp.continues_run`).
-/

namespace ScopeGraphs

variable {γ α β : Type}

namespace Turn

/-- The unit has taken over nothing, and has added no stand-ins that replay. -/
structure Continues (t t' : Turn γ) : Prop where
  reuse : t'.unit.reuse = t.unit.reuse
  newUnits : ∀ u ∈ t'.effects.newUnits, u.kind = .phantom true → u ∈ t.effects.newUnits

variable {t t' t'' : Turn γ}

namespace Continues

theorem refl (t : Turn γ) : t.Continues t := ⟨rfl, fun _ hu _ ↦ hu⟩

theorem trans (h : t.Continues t') (h' : t'.Continues t'') : t.Continues t'' where
  reuse := h'.reuse.trans h.reuse
  newUnits u hu hkind := h.newUnits u (h'.newUnits u hu hkind) hkind

theorem of_eq (hreuse : t'.unit.reuse = t.unit.reuse)
    (hnewUnits : t'.effects.newUnits = t.effects.newUnits) : t.Continues t' :=
  ⟨hreuse, fun _ hu _ ↦ hnewUnits ▸ hu⟩

theorem edit (h : t.Continues t') {f : UnitNode γ → UnitNode γ}
    (hf : (f t'.unit).reuse = t'.unit.reuse) : t.Continues (t'.edit f) :=
  h.trans (.of_eq hf rfl)

theorem stays (h : t.Continues t') (h' : t'.Stays t'') : t.Continues t'' :=
  h.trans (.of_eq (congrArg Life.reuse h'.life) h'.newUnits)

theorem eases (h : t.Continues t') (h' : t'.Eases t'') : t.Continues t'' := by
  refine h.trans (.of_eq ?_ h'.newUnits)
  obtain ⟨hlife, -⟩ | ⟨-, -, hlife, -⟩ := h'.life <;> exact congrArg Life.reuse hlife

theorem settle (h : t.Continues t') (a : Activation) (p : Option Renaming) :
    t.Continues ((t'.settleActive a).settleDecision p) := by
  have hactive : t.Continues (t'.settleActive a) :=
    stays (h.edit (by rfl)) ((Stays.refl _).tell _ _)
  exact stays (hactive.edit (by rfl)) ((Stays.refl _).tell _ _)

theorem grant (h : t.Continues t') (token : Token) (holder : UnitId) :
    t.Continues (t'.grant token holder) :=
  h.eases ((Eases.refl _).grant _ _)

theorem tryFinish (h : t.Continues t') : t.Continues t'.tryFinish :=
  h.eases ((Eases.refl _).tryFinish)

theorem endLocalPhase (h : t.Continues t') : t.Continues t'.endLocalPhase :=
  h.stays (Stays.refl _).endLocalPhase

/-- A unit that runs does not replay. -/
theorem restart (h : t.Continues t') (trace : Trace) : t.Continues (t'.restart trace) := by
  refine h.trans ?_
  unfold Turn.restart
  split
  · extract_lets active settled compared
    have hsettled : t'.Continues settled := Continues.settle ((refl t').edit (by rfl)) _ _
    have hcompared : t'.Continues compared := by
      unfold compared
      split
      · exact hsettled.edit (by rfl)
      · exact hsettled
    exact hcompared.grant _ _
  · exact refl t'

theorem eagerStart (h : t.Continues t') : t.Continues t'.eagerStart := by
  rw [Turn.eagerStart]
  split
  · exact h.restart _
  · exact h

theorem fail (h : t.Continues t') (reason : String) : t.Continues (t'.fail reason) :=
  (Continues.settle (h.edit (by rfl)) _ _).tryFinish

/-- Stand-ins for units that are gone do not replay. -/
theorem addRemovedSubUnits (h : t.Continues t') : t.Continues t'.addRemovedSubUnits := by
  obtain ⟨hunit, hnewUnits, -⟩ := t'.addRemovedSubUnits_spec
  refine h.trans ⟨congrArg UnitNode.reuse hunit, fun u hu hkind ↦ ?_⟩
  rw [hnewUnits] at hu
  refine (List.mem_append.1 hu).resolve_right fun hadded ↦ ?_
  obtain ⟨e, -, rfl⟩ := List.mem_map.1 hadded
  exact nomatch hkind

/-- A sub-unit that is no stand-in does not replay. -/
theorem addSubUnit (h : t.Continues t') (name : String) {kind : UnitKind γ}
    (hkind : kind ≠ .phantom true) (roots : List Scope) (changed : Bool) :
    t.Continues (t'.addSubUnit name kind roots changed).2 := by
  refine h.trans ⟨?_, ?_⟩
  · by_cases haccepts : t'.unit.Accepts name kind roots
    · obtain ⟨_, _, _, hunit, -⟩ := t'.addSubUnit_of_accepts name kind roots changed haccepts
      rw [hunit]
    · rw [t'.addSubUnit_of_not_accepts name kind roots changed haccepts]
  · have hmoves : t'.Moves (fun d ↦ d.IsPlain ∧ ∀ u roots, d = .join u roots →
        u.kind ≠ .phantom true) (t'.addSubUnit name kind roots changed).2 := by
      refine t'.moves_addSubUnit name kind roots changed
        (fun d (hd : d.IsCalm t'.unit.id) ↦ ?_) fun u hblank hu ↦ ⟨hblank, ?_⟩
      · refine ⟨hd.isSilent.isPlain, ?_⟩
        rintro u roots rfl hreplays
        obtain hchecker | hremoved := hd.2
        · exact nomatch (congrArg UnitKind.isChecker hreplays).symm.trans hchecker
        · rw [UnitNode.isRemoved, hreplays] at hremoved
          exact nomatch hremoved
      · rintro u' roots' heq
        obtain ⟨rfl, -⟩ := Deed.join.inj heq
        exact hu ▸ hkind
    obtain ⟨js, hadds, hjs⟩ := hmoves.exists_adds fun _ hd ↦ hd.1
    intro u hu hreplays
    rw [hadds.newUnits] at hu
    refine (List.mem_append.1 hu).resolve_right fun hadded ↦ ?_
    obtain ⟨j, hj, rfl⟩ := List.mem_map.1 hadded
    exact (hjs j hj).2 j.1 j.2 rfl hreplays

theorem shareInitialized (h : t.Continues t') (sender : UnitId) (s : Scope) (slots : List Slot)
    (sharing : Bool) : t.Continues (t'.shareInitialized sender s slots sharing) := by
  rw [Turn.shareInitialized]
  have hopened : t.Continues (t'.waitForAll (slots.map (.closeSlot s)) sender) :=
    h.stays ((Stays.refl _).waitForAll _ _)
  split
  · exact (hopened.stays ((Stays.refl _).waitFor _ _)).grant _ _
  · exact hopened.grant _ _

theorem checkerFinished (h : t.Continues t') (result : Except String Datum) :
    t.Continues (t'.checkerFinished result) := by
  refine h.trans ?_
  unfold Turn.checkerFinished
  split
  · exact refl t'
  · extract_lets ended captured released done settled active rest
    have hended : t'.Continues ended := by
      cases result <;> exact (refl t').edit (by rfl)
    have hcaptured : t'.Continues captured := by
      unfold captured
      split
      · exact hended.stays (Stays.refl _).capture.endLocalPhase
      · exact hended
    have hdone : t'.Continues done := hcaptured.edit (by rfl)
    have hactive : t'.Continues active := (hdone.settle _ _).grant _ _
    have hrest : t'.Continues rest := by
      unfold rest
      split
      · exact hactive
      · exact hactive.addRemovedSubUnits
    exact hrest.tryFinish

theorem failStuck (h : t.Continues t') : t.Continues t'.failStuck := by
  refine h.trans ?_
  unfold Turn.failStuck
  split
  · exact refl t'
  · extract_lets entries delays effects granted emptied hungUp ended
    have hemptied : t'.Continues emptied := .of_eq rfl rfl
    have hhungUp : t'.Continues hungUp := hemptied.stays ((Stays.refl _).fillAll _ _)
    have hended : t'.Continues ended := hhungUp.endLocalPhase.edit (by rfl)
    exact hended.fail _

end Continues

/-! ## Starting -/

/-- A unit that is started replays only if it is there for that. -/
theorem continues_start (t : Turn γ) (roots : List Scope)
    (hkind : t.unit.phase = .created → t.unit.kind ≠ .phantom true) :
    t.Continues (t.start roots) := by
  unfold start
  split
  · exact .refl t
  · rename_i hphase
    extract_lets begun told
    have htold : t.Continues told := by
      have hbegun : t.Continues begun := (Continues.refl t).edit (by rfl)
      unfold told
      split
      · exact hbegun.stays ((Stays.refl _).send _ _)
      · exact hbegun
    have hsame : told.unit.kind = t.unit.kind := by
      unfold told
      split <;> rfl
    clear_value told
    split
    · exact htold.trans (.of_eq rfl rfl)
    · rename_i hreplays
      exact absurd (hsame.symm.trans hreplays) (hkind (not_not.1 hphase))
    · unfold startRemoved
      extract_lets removed settled
      have hsettled : t.Continues settled := Continues.settle (htold.edit (by rfl)) _ _
      have hserved := hsettled.edit (f := fun u ↦ { u with outcome := some none }) (by rfl)
      exact hserved.addRemovedSubUnits.tryFinish
    · rename_i lib _
      unfold startLibrary
      extract_lets asserted active settled
      have hasserted : t.Continues asserted := by
        unfold asserted
        split
        · exact (htold.edit (by rfl)).stays ((Stays.refl _).assertGraph _ _)
        · exact htold.edit (by rfl)
      have hactive : t.Continues active := hasserted.edit (by rfl)
      have hsettled : t.Continues settled := (hactive.settle _ _).stays (Stays.refl _).closeShares
      exact (hsettled.edit (f := fun u ↦ { u with outcome := some none }) (by rfl)).tryFinish

theorem continues_handle (t : Turn γ) (m : Message)
    (hm : m.roots?.isSome = true → t.unit.phase = .created → t.unit.kind ≠ .phantom true) :
    t.Continues (t.handle m) := by
  have hself := Continues.refl t
  cases m with
  | start roots => exact t.continues_start roots (hm rfl)
  | unitStarted | closeEdge | closeScope => exact hself.grant _ _
  | initShare sender s slots sharing => exact hself.shareInitialized sender s slots sharing
  | addShare sender s => exact hself.stays ((Stays.refl t).waitFor _ _)
  | addEdge sender e =>
    rw [handle, receiveEdge]
    split
    · exact hself.edit (by rfl)
    · exact hself
  | query | queryPrevious | confirm | counterpart => exact hself.stays ((Stays.refl t).spawn rfl)

end Turn

/-! ## Actions of the checker -/

namespace Attempt

/-- Whatever comes of the attempt, the unit replays nothing. -/
def Continues (x : Attempt γ α) : Prop := ∀ t : Turn γ, t.Continues (x t).2

namespace Continues

variable {x : Attempt γ α} {f : α → Attempt γ β}

theorem bind (h : x.Continues) (hf : ∀ a, (f a).Continues) : (x >>= f).Continues := by
  intro t
  have hx := h t
  rw [bind_apply]
  split
  · rename_i a t' heq
    rw [heq] at hx
    exact hx.trans (hf a t')
  · rename_i heq
    rwa [heq] at hx

theorem pure (a : α) : (Pure.pure a : Attempt γ α).Continues := fun t ↦ .refl t

theorem throw (e : Fault) : (throw e : Attempt γ α).Continues := fun t ↦ .refl t

theorem ite {c : Prop} [Decidable c] {x y : Attempt γ α} (hx : x.Continues) (hy : y.Continues) :
    (if c then x else y).Continues := by
  split
  · exact hx
  · exact hy

/-- What follows may depend on the unit as it stands. -/
theorem unit {f : UnitNode γ → Attempt γ α} (hf : ∀ u, (f u).Continues) :
    (Attempt.unit >>= f).Continues := by
  intro t
  rw [unit_bind]
  exact hf _ t

theorem change {f : Turn γ → Turn γ} (hf : ∀ t : Turn γ, t.Continues (f t)) :
    (change f).Continues :=
  hf

/-- A change that leaves the life of the unit alone. -/
theorem stays {f : Turn γ → Turn γ} (hf : ∀ t : Turn γ, t.Stays (f t)) :
    (Attempt.change f).Continues :=
  fun t ↦ (Turn.Continues.refl t).stays (hf t)

/-- A change that leaves the life of the unit alone, except that it may finish. -/
theorem eases {f : Turn γ → Turn γ} (hf : ∀ t : Turn γ, t.Eases (f t)) :
    (Attempt.change f).Continues :=
  fun t ↦ (Turn.Continues.refl t).eases (hf t)

theorem require (ok : Bool) (e : Fault) : (require ok e : Attempt γ PUnit).Continues := by
  cases ok
  · exact throw e
  · exact pure _

theorem requireLive : (requireLive : Attempt γ PUnit).Continues := unit fun _ ↦ require _ _

theorem requireKnown (s : Scope) : (requireKnown s : Attempt γ PUnit).Continues :=
  unit fun _ ↦ require _ _

theorem commit : (commit : Attempt γ PUnit).Continues := by
  intro t
  rw [(commit_apply t).1]
  exact (Turn.Continues.refl t).eagerStart

end Continues

theorem continues_freshScope (base : String) (labels : List Label) (hasDatum sharing : Bool) :
    (freshScope base labels hasDatum sharing : Attempt γ Scope).Continues := by
  have hcreate : (create base labels hasDatum sharing : Attempt γ Scope).Continues :=
    .unit fun _ ↦ .bind (.stays fun t ↦ (Turn.Stays.refl t).edit (by rfl)) fun _ ↦
      .bind (.stays fun t ↦ (Turn.Stays.refl t).waitForAll _ _) fun _ ↦ .pure _
  rw [freshScope_eq]
  exact Continues.requireLive.bind fun _ ↦ .ite hcreate (Continues.commit.bind fun _ ↦ hcreate)

theorem continues_initScope (s : Scope) (labels : List Label) (sharing : Bool) :
    (initScope s labels sharing : Attempt γ PUnit).Continues :=
  Continues.requireLive.bind fun _ ↦ .unit fun _ ↦ .ite
    (.change fun t ↦ (Turn.Continues.refl t).shareInitialized _ _ _ _)
    (.stays fun t ↦ ((Turn.Stays.refl t).keepOpen _ _).send _ _)

theorem continues_shareScope (s : Scope) : (shareScope s : Attempt γ PUnit).Continues :=
  Continues.requireLive.bind fun _ ↦ .unit fun _ ↦ .ite
    (.stays fun t ↦ (Turn.Stays.refl t).waitFor _ _) (.stays fun t ↦ (Turn.Stays.refl t).send _ _)

theorem continues_setDatum (s : Scope) (d : Datum) :
    (setDatum s d : Attempt γ PUnit).Continues :=
  Continues.requireLive.bind fun _ ↦ .unit fun _ ↦ (Continues.require _ _).bind fun _ ↦
    (Continues.requireKnown s).bind fun _ ↦ (Continues.require _ _).bind fun _ ↦ .change fun t ↦
      ((Turn.Continues.refl t).stays ((Turn.Stays.refl t).assertDatum s d)).grant _ _

theorem continues_addEdge (e : Edge) : (addEdge e : Attempt γ PUnit).Continues := by
  have hassert : (change (Turn.assertEdge · e) : Attempt γ PUnit).Continues :=
    .stays fun t ↦ (Turn.Stays.refl t).assertEdge e
  exact Continues.requireLive.bind fun _ ↦ Continues.commit.bind fun _ ↦ .unit fun _ ↦ .ite
    ((Continues.requireKnown _).bind fun _ ↦ (Continues.require _ _).bind fun _ ↦ hassert)
    ((Continues.require _ _).bind fun _ ↦ hassert)

theorem continues_closeLabel (s : Scope) (l : Label) :
    (closeLabel s l : Attempt γ PUnit).Continues :=
  Continues.requireLive.bind fun _ ↦ .unit fun _ ↦ .ite
    (.eases fun t ↦ (Turn.Eases.refl t).grant _ _)
    (.ite (.stays fun t ↦ ((Turn.Stays.refl t).dropShared _ _).send _ _) (.pure _))

theorem continues_closeScope (s : Scope) : (closeScope s : Attempt γ PUnit).Continues :=
  Continues.requireLive.bind fun _ ↦ .unit fun _ ↦ .ite
    (.eases fun t ↦ (Turn.Eases.refl t).grant _ _) (.stays fun t ↦ (Turn.Stays.refl t).send _ _)

theorem continues_beginQuery (path : Path) : (beginQuery path : Attempt γ Token).Continues := by
  have hrequest : (modifyGet Turn.newRequest : Attempt γ Nat).Continues := fun t ↦
    (Turn.Continues.refl t).stays (Turn.Stays.refl t).newRequest
  exact hrequest.bind fun n ↦ Continues.requireLive.bind fun _ ↦ Continues.commit.bind fun _ ↦
    .unit fun _ ↦ .bind (.stays fun t ↦ (Turn.Stays.refl t).waitFor _ _) fun _ ↦ .pure _

theorem continues_addSubUnit (name : String) {kind : UnitKind γ} (hkind : kind ≠ .phantom true)
    (roots : List Scope) (changed : Bool) :
    (addSubUnit name kind roots changed : Attempt γ UnitId).Continues :=
  Continues.requireLive.bind fun _ t ↦ (Turn.Continues.refl t).addSubUnit name hkind roots changed

theorem continues_askForReuse : (askForReuse : Attempt γ Bool).Continues := by
  intro t
  rw [askForReuse, unit_bind, require_bind]
  split
  · rw [get_bind]
    split
    · have hundecided : t.Continues (t.edit fun u ↦ { u with phase := .undecided }) :=
        (Turn.Continues.refl t).edit (by rfl)
      rw [change_bind]
      cases t.unit.previous.bind Report.snapshot with
      | some x => exact hundecided.stays (((Turn.Stays.refl _).restore x).spawn rfl)
      | none => exact hundecided.stays ((Turn.Stays.refl _).spawn rfl)
    · exact (Turn.Continues.refl t).restart _
  · exact .refl t

end Attempt

theorem Action.continues {a : Action γ α} {N : String → Prop} (ha : a.IsRegular N) :
    a.attempt.Continues := by
  cases a with
  | freshScope base labels hasDatum sharing =>
    exact Attempt.continues_freshScope base labels hasDatum sharing
  | initScope s labels sharing => exact Attempt.continues_initScope s labels sharing
  | shareScope s => exact Attempt.continues_shareScope s
  | setDatum s d => exact Attempt.continues_setDatum s d
  | addEdge e => exact Attempt.continues_addEdge e
  | closeLabel s l => exact Attempt.continues_closeLabel s l
  | closeScope s => exact Attempt.continues_closeScope s
  | beginQuery path => exact Attempt.continues_beginQuery path
  | addSubUnit name kind roots changed =>
    exact Attempt.continues_addSubUnit name (ha.2 true) roots changed
  | askForReuse => exact Attempt.continues_askForReuse

/-! ## All operations -/

namespace UnitOp

/-- Whether an operation lets a unit take its report of the previous run over. -/
def Replays (u : UnitNode γ) : {α : Type} → UnitOp γ α → Prop
  | _, release _ => u.phase = .undecided ∧ u.previous.isSome = true
  | _, handle m => u.phase = .created ∧ u.kind = .phantom true ∧ m.roots?.isSome = true
  | _, _ => False

/-- **Nothing else is replayed.** A unit that neither is released nor starts to stand in for a unit
of the previous run goes on as it was, and adds no stand-ins that replay. -/
theorem continues_run (op : UnitOp γ α) {t : Turn γ} (hop : op.IsOrderly t.unit)
    (hreplays : ¬ op.Replays t.unit) : t.Continues (op.run t).2 := by
  have hself := Turn.Continues.refl t
  cases op with
  | act a => exact Action.continues hop.2 t
  | begin | keepState => exact .of_eq rfl rfl
  | eagerStart => exact hself.eagerStart
  | checkerFinished result => exact hself.checkerFinished result
  | awaitDecided => exact hself.stays t.stays_awaitDecided
  | awaitClosed s slot => exact hself.stays (t.stays_awaitClosed s slot)
  | awaitOpen => exact hself.stays (t.stays_listen fun u c ↦ by rfl)
  | awaitDecision => exact hself.stays (t.stays_listen fun u c ↦ by simp [UnitNode.life])
  | awaitReport => exact hself.stays (t.stays_listen fun u c ↦ by simp [UnitNode.life])
  | ask q => exact hself.stays ((((Turn.Stays.refl t).newRequest.newChannel).waitFor _ _).send _ _)
  | endAsking ticket => exact hself.grant _ _
  | endQuery token record => exact (hself.edit (by rfl)).grant _ _
  | matchStep s => exact hself.stays (t.stays_matchStep s)
  | diffScope s labels => exact hself.stays (t.stays_diffScope s labels)
  | handle m =>
    exact t.continues_handle m fun hstart hphase hkind ↦ hreplays ⟨hphase, hkind, hstart⟩
  | subUnitFinished r => exact (hself.edit (by rfl)).tryFinish
  | release p =>
    have hrefused : t.release p = t := t.release_of_not fun previous hphase hprevious ↦
      hreplays ⟨hphase, by simp [hprevious]⟩
    rw [run, hrefused]
    exact hself
  | restart trace => exact hself.restart trace
  | endLocalPhase => exact hself.stays (Turn.Stays.refl t).capture.endLocalPhase
  | grantClosures => exact hself.eases t.eases_grantClosures
  | failStuck => exact hself.failStuck

end UnitOp

/-! ## From one go to the next -/

/-- What a unit comes to in one go: it goes on in its life, or takes in a report. -/
def Life.Proceeds (N : String → Prop) (x : Life γ) (us : List (UnitNode γ)) (y : Life γ) : Prop :=
  x.Leads N us y ∨ us = [] ∧ ∃ r, y = x.receive r

namespace Life.Proceeds

variable {N : String → Prop} {x y : Life γ} {us : List (UnitNode γ)}

theorem precedes (h : x.Proceeds N us y) : x.Precedes y := by
  obtain hleads | ⟨-, r, rfl⟩ := h
  · exact hleads.precedes
  · exact x.precedes_receive r

theorem isSound (h : x.Proceeds N us y) (hx : x.IsSound) : y.IsSound := by
  obtain hleads | ⟨-, r, rfl⟩ := h
  · exact hleads.isSound hx
  · exact hx.receive r

theorem added (h : x.Proceeds N us y) : ∀ u ∈ us, ∃ name, u.id = x.id.child name ∧
    x.subUnits[name]? = none ∧ (u.parent = some x.id ∧ x.MayAdd N name u.kind ∨
      u.parent = none ∧ u.kind = .phantom false ∧ ∃ r, x.Recalls name r) := by
  obtain hleads | ⟨rfl, -⟩ := h
  · exact hleads.added
  · exact List.forall_mem_nil _

theorem newborn (h : x.Proceeds N us y) : ∀ u ∈ us, u.life.IsNewborn := by
  obtain hleads | ⟨rfl, -⟩ := h
  · exact fun u hu ↦ (hleads.newborn u hu).1
  · exact List.forall_mem_nil _

/-- The units still form a family. -/
theorem isFamily {root p : UnitId} {L : Lives γ} (h : x.Proceeds IsPlainName us y)
    (hL : L.IsFamily root) (hx : L p = some x) : (L.grow p y us).IsFamily root := by
  obtain hleads | ⟨rfl, r, rfl⟩ := h
  · exact hL.leads hx hleads
  · exact hL.update hx (x.precedes_receive r) ((hL.sound hx).receive r) rfl

end Life.Proceeds

namespace UnitOp

/-- Whether an operation adds a sub-unit for the checker. -/
def AddsSubUnit (u : UnitNode γ) : {α : Type} → UnitOp γ α → Prop
  | _, act (.addSubUnit name kind roots _) => u.mayAct = true ∧ u.Accepts name kind roots
  | _, _ => False

/-- Who adds a sub-unit for its checker has one. -/
theorem AddsSubUnit.isChecker {u : UnitNode γ} {op : UnitOp γ α} (h : op.AddsSubUnit u)
    (hop : op.IsOrderly u) : u.kind.isChecker = true := by
  cases op with
  | act a => exact hop.1
  | _ => exact h.elim

/-- A checker that is not allowed to add a sub-unit does nothing. -/
theorem run_addSubUnit_of_not {t : Turn γ} {name : String} {kind : UnitKind γ} {roots : List Scope}
    {changed : Bool}
    (h : ¬ (act (.addSubUnit name kind roots changed)).AddsSubUnit t.unit) :
    (run (act (.addSubUnit name kind roots changed)) t).2 = t := by
  have hattempt : (run (act (.addSubUnit name kind roots changed)) t).2 =
      (Attempt.addSubUnit name kind roots changed t).2 := rfl
  rw [hattempt, Attempt.addSubUnit, Attempt.requireLive_bind]
  split
  · rename_i hact
    exact t.addSubUnit_of_not_accepts name kind roots changed fun haccepts ↦ h ⟨hact, haccepts⟩
  · rfl

/-- Where a unit comes to in one go, if its checker adds sub-units under certain names only. -/
theorem exists_proceeds {u : UnitNode γ} (hsound : u.life.IsSound) (op : UnitOp γ α)
    (hop : op.IsOrderly u) {N : String → Prop}
    (hN : (∀ name, IsPlainName name → N name) ∨ ¬ op.AddsSubUnit u) (settings : Settings)
    (channels : Channels Parcel) (request : Nat) :
    let t := (op.run ⟨u, .none, settings, channels, request⟩).2
    ∃ y, u.life.Proceeds N t.effects.newUnits y ∧ t.unit.ComesTo y t.effects.finished := by
  by_cases hregular : op.IsRegular N u
  · obtain ⟨y, hleads, hcomes⟩ := comesTo_run hsound hregular settings channels request
    exact ⟨y, .inl hleads, hcomes⟩
  · cases op with
    | act a =>
      cases a with
      | addSubUnit name kind roots changed =>
        have hrefused : ¬ (act (.addSubUnit name kind roots changed)).AddsSubUnit u := by
          obtain hall | hnot := hN
          · exact absurd ⟨hop.1, hall name hop.2.1, hop.2.2⟩ hregular
          · exact hnot
        rw [run_addSubUnit_of_not hrefused]
        exact ⟨u.life, .inl (.refl _), .inl ⟨rfl, rfl⟩⟩
      | _ => exact absurd hop hregular
    | subUnitFinished r =>
      obtain ⟨hnone, -, hcomes⟩ := comesTo_subUnitFinished u r settings channels request
      exact ⟨_, .inr ⟨hnone, r, rfl⟩, hcomes⟩
    | _ => first | exact absurd hop hregular | exact absurd trivial hregular

/-- A unit whose checker adds no sub-unit adds none but those that replay. -/
theorem kind_of_not_addsSubUnit {u w : UnitNode γ} (hsound : u.life.IsSound) (op : UnitOp γ α)
    (hop : op.IsOrderly u) (hadds : ¬ op.AddsSubUnit u) (settings : Settings)
    (channels : Channels Parcel) (request : Nat)
    (hw : w ∈ (op.run ⟨u, .none, settings, channels, request⟩).2.effects.newUnits) {p : UnitId}
    (hparent : w.parent = some p) : w.kind = .phantom true := by
  obtain ⟨y, hproceeds, -⟩ := exists_proceeds hsound op hop (N := fun _ ↦ False) (.inr hadds)
    settings channels request
  obtain ⟨_, -, -, ⟨-, hfalse | hreplays⟩ | ⟨hnone, -⟩⟩ := hproceeds.added w hw
  · exact hfalse.1.elim
  · exact hreplays.1
  · exact nomatch hparent.symm.trans hnone

theorem precedes_run {u : UnitNode γ} (hsound : u.life.IsSound) (op : UnitOp γ α)
    (hop : op.IsOrderly u) (settings : Settings) (channels : Channels Parcel) (request : Nat) :
    u.life.Precedes (op.run ⟨u, .none, settings, channels, request⟩).2.unit.life := by
  obtain ⟨y, hproceeds, hcomes⟩ := exists_proceeds hsound op hop (N := IsPlainName)
    (.inl fun _ hname ↦ hname) settings channels request
  exact hproceeds.precedes.trans hcomes.precedes

end UnitOp

/-- A unit that has taken a report over does not do so again. -/
theorem UnitNode.Inherits.not_replays {u : UnitNode γ} {r : Report} {p : Renaming}
    (h : u.Inherits r p) (hsound : u.life.IsSound) (op : UnitOp γ α) : ¬ op.Replays u := by
  intro hreplays
  cases op with
  | release p =>
    -- It is not undecided, since it reuses its previous result.
    have hphase : u.life.phase = .undecided := hreplays.1
    have hnone := hsound.reuse_eq_none (hsound.undecided hphase)
      (by simp [hphase, Phase.IsCommitted])
    exact absurd (hnone.symm.trans h.reuse) (by simp)
  | handle m => exact h.started hreplays.1
  | _ => exact hreplays

namespace UnitOp

variable {u : UnitNode γ} {r : Report} {p : Renaming} (op : UnitOp γ α) (settings : Settings)
  (channels : Channels Parcel) (request : Nat)

/-- What a unit has taken over it keeps. -/
theorem inherits_run (h : u.Inherits r p) (hsound : u.life.IsSound) (hop : op.IsOrderly u) :
    (op.run ⟨u, .none, settings, channels, request⟩).2.unit.Inherits r p := by
  have hprecedes := precedes_run hsound op hop settings channels request
  have hcontinues := op.continues_run (t := ⟨u, .none, settings, channels, request⟩) hop
    (h.not_replays hsound op)
  refine ⟨fun hcreated ↦ ?_, hprecedes.previous.trans h.previous,
    hcontinues.reuse.trans h.reuse, fun name s hs ↦ ?_⟩
  · exact h.started (hprecedes.phase.eq_created hcreated)
  · have hcontains := h.subUnits name s hs
    rw [Std.ExtTreeMap.contains_eq_isSome_getElem?] at hcontains ⊢
    obtain ⟨k, hk⟩ := Option.isSome_iff_exists.1 hcontains
    exact Option.isSome_iff_exists.2 ⟨k, hprecedes.subUnits name k hk⟩

/-- A checker that reuses its previous result has taken its report over. -/
theorem exists_inherits_run (hsound : u.life.IsSound) (hop : op.IsOrderly u)
    (hkind : u.kind.isChecker = true) (h : ∀ q, u.reuse = some q → ∃ r, u.Inherits r q)
    (hreuse : (op.run ⟨u, .none, settings, channels, request⟩).2.unit.reuse = some p) :
    ∃ r, (op.run ⟨u, .none, settings, channels, request⟩).2.unit.Inherits r p := by
  by_cases hreplays : op.Replays u
  · cases op with
    | release q =>
      obtain ⟨r, hprevious⟩ := Option.isSome_iff_exists.1 hreplays.2
      obtain ⟨-, -, -, hinherits⟩ := Turn.exists_adds_release
        (t := ⟨u, .none, settings, channels, request⟩) hsound hreplays.1 hprevious q
      obtain rfl := Option.some.inj (hinherits.reuse.symm.trans hreuse)
      exact ⟨r, hinherits⟩
    | handle m =>
      rw [hreplays.2.1] at hkind
      exact nomatch hkind
    | _ => exact hreplays.elim
  · have hcontinues := op.continues_run (t := ⟨u, .none, settings, channels, request⟩) hop hreplays
    obtain ⟨r, hinherits⟩ := h p (hcontinues.reuse.symm.trans hreuse)
    exact ⟨r, op.inherits_run settings channels request hinherits hsound hop⟩

/-- **Stand-ins are added for what is taken over.** A unit that adds units that replay has taken a
report over by then, and adds them as stand-ins for sub-units in it, and no others. -/
theorem exists_adds_standIns (hsound : u.life.IsSound) (hop : op.IsOrderly u)
    (hstands : u.phase = .created → u.kind = .phantom true → ∃ r p, u.StandsBy r p) :
    let t : Turn γ := ⟨u, .none, settings, channels, request⟩
    ∃ js, t.Adds js (op.run t).2 ∧ ((∀ j ∈ js, j.1.kind ≠ .phantom true) ∨
      ∃ r q, (op.run t).2.unit.Inherits r q ∧
        ∀ j ∈ js, ∃ name s, r.HasStandIn u.id q j name s) := by
  intro t
  by_cases hreplays : op.Replays u
  · cases op with
    | release q =>
      obtain ⟨r, hprevious⟩ := Option.isSome_iff_exists.1 hreplays.2
      obtain ⟨js, hadds, hjs, hinherits⟩ :=
        t.exists_adds_release hsound hreplays.1 hprevious q
      exact ⟨js, hadds, .inr ⟨r, q, hinherits, hjs⟩⟩
    | handle m =>
      obtain ⟨hphase, hkind, hstart⟩ := hreplays
      obtain ⟨r, p, hu⟩ := hstands hphase hkind
      cases m with
      | start roots =>
        obtain ⟨js, hadds, hjs, hcopies⟩ := Turn.exists_adds_start (t := t) hu hkind
          (hsound.created hphase) roots
        exact ⟨js, hadds, .inr ⟨r, _, hcopies.toInherits, hjs⟩⟩
      | _ => exact nomatch hstart
    | _ => exact hreplays.elim
  · have hcontinues := op.continues_run (t := t) hop hreplays
    obtain ⟨js, hadds⟩ := op.exists_adds t
    refine ⟨js, hadds, .inl fun j hj hkind ↦ ?_⟩
    have hmem : j.1 ∈ (op.run t).2.effects.newUnits := by
      rw [hadds.newUnits]
      exact List.mem_append_right _ (List.mem_map_of_mem hj)
    exact absurd (hcontinues.newUnits j.1 hmem hkind) List.not_mem_nil

/-- A stand-in that has taken its report over keeps all that is in it. -/
theorem copies_run (h : u.Copies r p) (hkind : u.kind = .phantom true) (hop : op.IsOrderly u) :
    (op.run ⟨u, .none, settings, channels, request⟩).2.unit.Copies r p := by
  have hphase : u.phase ≠ .started ∧ u.phase ≠ .undecided := by
    obtain heq | heq := h.phase <;> simp [heq]
  have habides := op.abides_run (t := ⟨u, .none, settings, channels, request⟩) hop
    (congrArg UnitKind.isChecker hkind) hphase (fun _ ↦ by simp [h.outcome])
    fun hcreated ↦ absurd hcreated h.started
  exact h.abides habides

theorem phase_run_of_roots? {roots : List Scope} (hroots : op.roots? = some roots) :
    (op.run ⟨u, .none, settings, channels, request⟩).2.unit.phase ≠ .created := by
  cases op with
  | handle m =>
    cases m with
    | start roots' => exact Turn.phase_start_ne_created _ roots'
    | _ => exact nomatch hroots
  | _ => exact nomatch hroots

/-- **What a stand-in comes to.** A stand-in that has not been started waits until it is. If it is
started with the previous root scopes, renamed, it takes its report over, under a renaming that does
the same as the one that it was given. -/
theorem standsBy_run (h : u.StandsBy r p) (hkind : u.kind = .phantom true)
    (hsound : u.life.IsSound) (hop : op.IsOrderly u)
    (hroots : ∀ roots ∈ op.roots?, roots = r.roots.map p.apply) :
    let v := (op.run ⟨u, .none, settings, channels, request⟩).2.unit
    v.StandsBy r p ∨ ∃ q, (∀ s, q.apply s = p.apply s) ∧ v.Copies r q := by
  intro v
  have houtcome : u.outcome = none := hsound.created h.phase
  cases hstart : op.roots? with
  | none =>
    have habides := op.abides_run (t := ⟨u, .none, settings, channels, request⟩) hop
      (congrArg UnitKind.isChecker hkind) (by simp [h.phase]) (fun hne ↦ absurd h.phase hne)
      fun _ ↦ hstart
    exact .inl (h.abides houtcome habides)
  | some roots =>
    obtain rfl := hroots roots hstart
    cases op with
    | handle m =>
      cases m with
      | start roots =>
        obtain rfl := Option.some.inj hstart
        obtain ⟨-, -, -, hcopies⟩ := Turn.exists_adds_start
          (t := ⟨u, .none, settings, channels, request⟩) h hkind houtcome (r.roots.map p.apply)
        exact .inr ⟨_, h.apply_replayed, hcopies⟩
      | _ => exact nomatch hstart
    | _ => exact nomatch hstart

end UnitOp

end ScopeGraphs
