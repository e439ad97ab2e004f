import ScopeGraphs.Proofs.Engine.Watching
import ScopeGraphs.Proofs.Units.Living

/-!
# Runs in strides

A unit that finishes hands its report to the unit above it, which may finish in turn. All of this
belongs to the operation that the first unit finished in. A *stride* of a run is such an operation
with everything that follows from it, together with the reports that were handed on and the units
that handed them, or else a change that concerns no unit. Messages are handled like any other
operation, in any order.

What happens is *regular* (`UnitOp.IsRegular`): only checkers act, under names of a certain kind for
the sub-units that they add, and only the engine tells a unit that a sub-unit has finished. What the
engine does from the start of a run on is a sequence of such strides
(`Engine.Reachable.exists_strides`).
-/

namespace ScopeGraphs

variable {γ α : Type}

namespace Core

/-! ## Strides -/

/-- The reports that are handed on when a unit has finished, with the units that hand them on: the
unit itself, and as many of those above it as finish in turn. -/
def handedUp (c : Core γ) (origin : UnitId) (report : Report) : Nat → List (UnitId × Report)
  | 0 => []
  | n + 1 =>
    (origin, report) ::
      match (c.units[origin]?).bind UnitNode.parent with
      | none => []
      | some parent =>
        match c.units[parent]? with
        | none => []
        | some u =>
          match (c.turn u (.subUnitFinished report)).2.1.finished with
          | none => []
          | some report' =>
            handedUp (c.carryOut parent u (.subUnitFinished report)) parent report' n

/-- The reports that are handed on as an operation is carried out on a unit. -/
def handedOn (c : Core γ) (id : UnitId) (op : UnitOp γ α) : List (UnitId × Report) :=
  match c.units[id]? with
  | none => []
  | some u =>
    match (c.turn u op).2.1.finished with
    | none => []
    | some report => (c.carryOut id u op).handedUp id report ((c.carryOut id u op).units.size + 1)

/-- One stride of a run, with the reports that are handed on in it. -/
inductive Stride (N : String → Prop) : Core γ → List (UnitId × Report) → Core γ → Prop where
  | did {c : Core γ} (id : UnitId) {α : Type} (op : UnitOp γ α)
      (hop : ∀ u, c.units[id]? = some u → op.IsRegular N u) :
      Stride N c (c.handedOn id op) (c.atUnit id op).2
  | other {c c' : Core γ} (hunits : c'.units = c.units) (hframe : SameFrame c c')
      (hparked : c'.mail.parked = c.mail.parked ∨ c'.mail.parked = ∅) : Stride N c [] c'

/-- A run from one state to another in strides, with all reports that are handed on in it. -/
inductive Strides (N : String → Prop) : Core γ → List (UnitId × Report) → Core γ → Prop where
  | refl (c : Core γ) : Strides N c [] c
  | tail {c c' c'' : Core γ} {hs hs' : List (UnitId × Report)} (h : Strides N c hs c')
      (hstride : Stride N c' hs' c'') : Strides N c (hs ++ hs') c''

variable {N : String → Prop} {c c' c'' : Core γ} {hs hs' : List (UnitId × Report)}

theorem Stride.strides (h : Stride N c hs c') : Strides N c hs c' := .tail (.refl c) h

theorem Strides.trans (h : Strides N c hs c') (h' : Strides N c' hs' c'') :
    Strides N c (hs ++ hs') c'' := by
  induction h' with
  | refl => rwa [List.append_nil]
  | tail _ hstride ih =>
    rw [← List.append_assoc]
    exact .tail ih hstride

/-! ## The units after an operation -/

theorem units_foldl_addUnit (c : Core γ) (us : List (UnitNode γ)) (id : UnitId) :
    (us.foldl addUnit c).units[id]? = (c.units[id]?).or (us.find? fun u ↦ u.id = id) := by
  induction us generalizing c with
  | nil => exact (Option.or_none).symm
  | cons u us ih =>
    rw [List.foldl_cons, ih, units_addUnit, Option.or_assoc, List.find?_cons]
    by_cases heq : u.id = id <;> simp [heq]

/-- Effects on other units: the units that are added are there afterwards, unless their ids were
taken. -/
theorem applyEffects_spec (c : Core γ) (origin : UnitId) (e : Effects γ) :
    SameFrame c (c.applyEffects origin e) ∧ ∀ id : UnitId, (c.applyEffects origin e).units[id]? =
      (c.units[id]?).or (e.newUnits.find? fun u ↦ u.id = id) := by
  have hwaits (es : List WaitEvent) (c : Core γ) : SameFrame c (es.foldl (noteWait origin) c) := by
    induction es generalizing c with
    | nil => exact ⟨rfl, rfl, rfl⟩
    | cons e es ih =>
      have hnoted : SameFrame c (c.noteWait origin e) := by cases e <;> exact ⟨rfl, rfl, rfl⟩
      exact hnoted.trans (ih (c.noteWait origin e))
  have hjoined (us : List (UnitNode γ)) (c : Core γ) : SameFrame c (us.foldl addUnit c) := by
    induction us generalizing c with
    | nil => exact ⟨rfl, rfl, rfl⟩
    | cons u us ih =>
      have hadded : SameFrame c (c.addUnit u) := by
        rw [addUnit]
        split <;> exact ⟨rfl, rfl, rfl⟩
      exact hadded.trans (ih (c.addUnit u))
  have hposted (ms : List (UnitId × Message)) (c : Core γ) : SameFrame c (ms.foldl post c) := by
    induction ms generalizing c with
    | nil => exact ⟨rfl, rfl, rfl⟩
    | cons m ms ih =>
      have hsent : SameFrame c (c.post m) := ⟨rfl, rfl, rfl⟩
      exact hsent.trans (ih (c.post m))
  refine ⟨((hwaits _ _).trans (hjoined _ _)).trans (hposted _ _), fun id ↦ ?_⟩
  rw [applyEffects, (foldl_post _ _).1, units_foldl_addUnit, (foldl_noteWait _ _ _).1]

/-- The turn in which an operation is carried out on a unit. -/
def turnOf (c : Core γ) (u : UnitNode γ) (op : UnitOp γ α) : Turn γ :=
  (op.run ⟨u, .none, c.setup.settings, c.channels, c.nextRequest⟩).2

/-- What an operation on a unit changes: the unit, and the units that it adds. -/
theorem carryOut_spec (c : Core γ) {id : UnitId} {u : UnitNode γ} (hid : u.id = id)
    (op : UnitOp γ α) :
    SameFrame c (c.carryOut id u op) ∧ ∀ k : UnitId, (c.carryOut id u op).units[k]? =
      if id = k then some (c.turnOf u op).unit
      else (c.units[k]?).or ((c.turnOf u op).effects.newUnits.find? fun w ↦ w.id = k) := by
  obtain ⟨channels, nextRequest, executor, hturn⟩ := c.exists_turn u op
  have hturned : SameFrame c (c.turn u op).2.2 := by
    rw [hturn]
    exact ⟨rfl, rfl, rfl⟩
  obtain ⟨hframe, hunits⟩ := applyEffects_spec (c.turn u op).2.2 id (c.turn u op).2.1
  refine ⟨hturned.trans hframe, fun k ↦ ?_⟩
  rw [carryOut, hunits, units_turn, hid, SortedMap.getElem?_insert_eq]
  split
  · rfl
  · rfl

/-- One unit has changed, and some units have been added unless their ids were taken. -/
structure Carries (c : Core γ) (id : UnitId) (u v : UnitNode γ) (us : List (UnitNode γ))
    (c' : Core γ) : Prop where
  frame : SameFrame c c'
  unit : c.units[id]? = some u
  units : ∀ k : UnitId, c'.units[k]? =
    if id = k then some v else (c.units[k]?).or (us.find? fun w ↦ w.id = k)

namespace Carries

variable {id : UnitId} {u v : UnitNode γ} {us : List (UnitNode γ)}

/-- What the unit does besides does not concern units. -/
theorem other (h : Carries c id u v us c') (hunits : c''.units = c'.units)
    (hframe : SameFrame c' c'') : Carries c id u v us c'' :=
  ⟨h.frame.trans hframe, h.unit, fun k ↦ hunits ▸ h.units k⟩

theorem changed (h : Carries c id u v us c') : c'.units[id]? = some v := by
  rw [h.units, if_pos rfl]

theorem kept (h : Carries c id u v us c') {k : UnitId} (hne : id ≠ k) {w : UnitNode γ}
    (hw : c.units[k]? = some w) : c'.units[k]? = some w := by
  rw [h.units, if_neg hne, hw, Option.some_or]

/-- What is found afterwards is the unit, or was there before, or has been added. -/
theorem cases (h : Carries c id u v us c') {k : UnitId} {w : UnitNode γ}
    (hw : c'.units[k]? = some w) :
    (id = k ∧ v = w) ∨ (id ≠ k ∧ c.units[k]? = some w) ∨
      (id ≠ k ∧ c.units[k]? = none ∧ w ∈ us ∧ w.id = k) := by
  rw [h.units] at hw
  split at hw
  · rename_i heq
    exact .inl ⟨heq, Option.some.inj hw⟩
  · rename_i hne
    obtain hold | ⟨hnone, hnew⟩ := Option.or_eq_some_iff.1 hw
    · exact .inr (.inl ⟨hne, hold⟩)
    · exact .inr (.inr ⟨hne, hnone, List.mem_of_find?_eq_some hnew,
        by simpa using List.find?_some hnew⟩)

/-- An id under which a unit has been added is taken afterwards. -/
theorem exists_of_mem (h : Carries c id u v us c') {w : UnitNode γ} (hw : w ∈ us) :
    ∃ w', c'.units[w.id]? = some w' := by
  rw [h.units]
  split
  · exact ⟨v, rfl⟩
  · refine Option.isSome_iff_exists.1 ?_
    rw [Option.isSome_or, Bool.or_eq_true]
    exact .inr (List.find?_isSome.2 ⟨w, hw, decide_eq_true rfl⟩)

end Carries

theorem carries_carryOut {id : UnitId} {u : UnitNode γ} (hu : c.units[id]? = some u)
    (hid : u.id = id) (op : UnitOp γ α) : Carries c id u (c.turnOf u op).unit
      (c.turnOf u op).effects.newUnits (c.carryOut id u op) :=
  ⟨(c.carryOut_spec hid op).1, hu, (c.carryOut_spec hid op).2⟩

/-! ## Sound states -/

/-- Units are filed under their ids and have sound lives, and the unit above a unit is there. -/
structure IsSound (c : Core γ) : Prop where
  filed : c.Filed
  sound : ∀ (id : UnitId) (u : UnitNode γ), c.units[id]? = some u → u.life.IsSound
  parent : ∀ (id : UnitId) (u : UnitNode γ) (p : UnitId),
    c.units[id]? = some u → u.parent = some p → ∃ v, c.units[p]? = some v

theorem isSound_start (setup : Setup) (root : UnitId) (code : γ) (previous : Option Report) :
    (start setup root code previous).IsSound where
  filed := filed_start setup root code previous
  sound id u hu := by
    obtain ⟨-, rfl⟩ := units_start_eq_some_iff.1 hu
    exact (Life.isNewborn_new _ _ _ _ _ _).isSound
  parent id u p hu hparent := by
    obtain ⟨-, rfl⟩ := units_start_eq_some_iff.1 hu
    exact nomatch hparent

theorem IsSound.of_units_eq (h : c.IsSound) (hunits : c'.units = c.units) : c'.IsSound where
  filed id u hu := h.filed id u (hunits ▸ hu)
  sound id u hu := h.sound id u (hunits ▸ hu)
  parent id u p hu hparent := hunits ▸ h.parent id u p (hunits ▸ hu) hparent

/-- A state stays sound when a unit goes on with its life and adds units that are newborn. -/
theorem Carries.isSound {id : UnitId} {u v : UnitNode γ} {us : List (UnitNode γ)}
    (h : Carries c id u v us c') (hc : c.IsSound) (hv : v.life.IsSound)
    (hprecedes : u.life.Precedes v.life)
    (hus : ∀ w ∈ us, w.life.IsNewborn ∧ ∀ p, w.parent = some p → p = id) : c'.IsSound where
  filed k w hw := by
    obtain ⟨rfl, rfl⟩ | ⟨-, hold⟩ | ⟨-, -, -, hid⟩ := h.cases hw
    · exact hprecedes.id.trans (hc.filed _ _ h.unit)
    · exact hc.filed k w hold
    · exact hid
  sound k w hw := by
    obtain ⟨-, rfl⟩ | ⟨-, hold⟩ | ⟨-, -, hmem, -⟩ := h.cases hw
    · exact hv
    · exact hc.sound k w hold
    · exact (hus w hmem).1.isSound
  parent k w p hw hp := by
    -- Units do not vanish.
    have hstays (p : UnitId) (x : UnitNode γ) (hx : c.units[p]? = some x) :
        ∃ x, c'.units[p]? = some x := by
      by_cases heq : id = p
      · exact ⟨v, heq ▸ h.changed⟩
      · exact ⟨x, h.kept heq hx⟩
    obtain ⟨-, rfl⟩ | ⟨-, hold⟩ | ⟨-, -, hmem, -⟩ := h.cases hw
    · obtain ⟨x, hx⟩ := hc.parent id u p h.unit (hprecedes.parent.symm.trans hp)
      exact hstays p x hx
    · obtain ⟨x, hx⟩ := hc.parent k w p hold hp
      exact hstays p x hx
    · exact (hus w hmem).2 p hp ▸ ⟨v, h.changed⟩

/-! ## Reports on their way up -/

/-- Reports are handed on from a unit that has finished, with the units that hand them on. -/
inductive HandsUp : Core γ → UnitId → Report → List (UnitId × Report) → Core γ → Prop where
  /-- There is no unit above. -/
  | top {c c' : Core γ} {origin : UnitId} {report : Report} {w : UnitNode γ}
      (hw : c.units[origin]? = some w) (hparent : w.parent = none) (hunits : c'.units = c.units)
      (hroot : c'.root = c.root)
      (hreport : c'.rootReport = if origin = c.root then some report else c.rootReport) :
      HandsUp c origin report [(origin, report)] c'
  /-- The unit above goes on. -/
  | stay {c c' : Core γ} {origin p : UnitId} {report : Report} {w u v : UnitNode γ}
      (hw : c.units[origin]? = some w) (hparent : w.parent = some p)
      (hcarries : Carries c p u v [] c') (hv : v.ComesTo (u.life.receive report) none) :
      HandsUp c origin report [(origin, report)] c'
  /-- The unit above finishes in turn. -/
  | up {c c' c'' : Core γ} {origin p : UnitId} {report report' : Report} {w u v : UnitNode γ}
      {hs : List (UnitId × Report)} (hw : c.units[origin]? = some w) (hparent : w.parent = some p)
      (hcarries : Carries c p u v [] c') (hv : v.ComesTo (u.life.receive report) (some report'))
      (h : HandsUp c' p report' hs c'') : HandsUp c origin report ((origin, report) :: hs) c''

theorem HandsUp.other {origin : UnitId} {report : Report} (h : HandsUp c origin report hs c')
    {d : Core γ} (hunits : d.units = c'.units) (hframe : SameFrame c' d) :
    HandsUp c origin report hs d := by
  induction h with
  | top hw hparent hunits' hroot hreport =>
    exact .top hw hparent (hunits.trans hunits') (hframe.root.trans hroot)
      (hframe.rootReport.trans hreport)
  | stay hw hparent hcarries hv => exact .stay hw hparent (hcarries.other hunits hframe) hv
  | up hw hparent hcarries hv _ ih => exact .up hw hparent hcarries hv (ih hunits hframe)

/-- A unit that is handed a report goes on with its life. -/
theorem Carries.received {p : UnitId} {u v : UnitNode γ} {report : Report}
    {finished : Option Report} (h : Carries c p u v [] c')
    (hv : v.ComesTo (u.life.receive report) finished) (hc : c.IsSound) :
    c'.IsSound ∧ u.life.Precedes v.life := by
  have hprecedes := (u.life.precedes_receive report).trans hv.precedes
  have hsound := hv.isSound ((hc.sound p u h.unit).receive report)
  exact ⟨h.isSound hc hsound hprecedes (List.forall_mem_nil _), hprecedes⟩

/-- The engine hands reports on as far as they go: no unit is on the way twice, since it would have
to finish twice, so there are enough units to count the way with. -/
theorem handsUp_handReport {origin : UnitId} {report : Report} (hc : c.IsSound) {w : UnitNode γ}
    (hw : c.units[origin]? = some w) {ids seen : List UnitId} {n : Nat}
    (hids : ∀ (k : UnitId) (u : UnitNode γ), c.units[k]? = some u → k ∈ ids) (hnodup : seen.Nodup)
    (hseen : ∀ k ∈ seen, ∃ u, c.units[k]? = some u ∧ u.finished = true)
    (hcount : ids.length < seen.length + n) :
    HandsUp c origin report (c.handedUp origin report n) (c.handReport origin report n).2 := by
  induction n generalizing c origin report w seen with
  | zero =>
    have hsub : seen.Subperm ids := hnodup.subperm fun k hk ↦
      let ⟨u, hu, _⟩ := hseen k hk
      hids k u hu
    exact absurd hsub.length_le (by omega)
  | succ n ih =>
    rw [handedUp, handReport, hw, Option.bind_some]
    cases hparent : w.parent with
    | none =>
      refine .top hw hparent ?_ ?_ ?_ <;> dsimp only <;> split <;> rfl
    | some p =>
      obtain ⟨u, hu⟩ := hc.parent origin w p hw hparent
      have hcarries := carries_carryOut hu (hc.filed p u hu) (.subUnitFinished report)
      obtain ⟨hnew, -, hv⟩ :=
        UnitOp.comesTo_subUnitFinished u report c.setup.settings c.channels c.nextRequest
      rw [show (c.turnOf u (.subUnitFinished report)).effects.newUnits = [] from hnew] at hcarries
      have hv : (c.turnOf u (.subUnitFinished report)).unit.ComesTo (u.life.receive report)
          (c.turn u (.subUnitFinished report)).2.1.finished := hv
      obtain ⟨hc', -⟩ := hcarries.received hv hc
      dsimp only
      rw [hu]
      dsimp only
      cases hfinished : (c.turn u (.subUnitFinished report)).2.1.finished with
      | none => exact .stay hw hparent hcarries (hfinished ▸ hv)
      | some report' =>
        rw [hfinished] at hv
        obtain ⟨hcomplete, -, -, hlife⟩ := hv.reported
        have hunfinished : u.finished = false := hcomplete.unfinished
        have hids' : ∀ (k : UnitId) (x : UnitNode γ),
            (c.carryOut p u (.subUnitFinished report)).units[k]? = some x → k ∈ ids := fun k x hx ↦ by
          obtain ⟨rfl, -⟩ | ⟨-, hold⟩ | ⟨-, -, hmem, -⟩ := hcarries.cases hx
          · exact hids p u hu
          · exact hids k x hold
          · exact absurd hmem List.not_mem_nil
        have hnodup' : (p :: seen).Nodup := by
          refine List.nodup_cons.2 ⟨fun hmem ↦ ?_, hnodup⟩
          obtain ⟨x, hx, hdone⟩ := hseen p hmem
          obtain rfl := Option.some.inj (hu.symm.trans hx)
          exact absurd (hunfinished.symm.trans hdone) (by simp)
        refine .up hw hparent hcarries hv (ih hc' hcarries.changed hids' hnodup' ?_ ?_)
        · refine List.forall_mem_cons.2 ⟨⟨_, hcarries.changed, ?_⟩, fun k hk ↦ ?_⟩
          · exact congrArg Life.finished hlife
          · obtain ⟨x, hx, hdone⟩ := hseen k hk
            refine ⟨x, hcarries.kept ?_ hx, hdone⟩
            rintro rfl
            obtain rfl := Option.some.inj (hu.symm.trans hx)
            exact absurd (hunfinished.symm.trans hdone) (by simp)
        · rw [List.length_cons]
          omega

/-! ## What a stride does -/

/-- What a stride does to units. -/
inductive Advances (N : String → Prop) : Core γ → List (UnitId × Report) → Core γ → Prop where
  /-- Nothing. -/
  | rest {c c' : Core γ} (hunits : c'.units = c.units) (hframe : SameFrame c c') :
      Advances N c [] c'
  /-- A unit goes on. -/
  | acted {c c' : Core γ} {id : UnitId} {u v : UnitNode γ} {us : List (UnitNode γ)} {y : Life γ}
      (hcarries : Carries c id u v us c') (hleads : u.life.Leads N us y)
      (hv : v.ComesTo y none) : Advances N c [] c'
  /-- A unit goes on and finishes. -/
  | finished {c c' c'' : Core γ} {id : UnitId} {u v : UnitNode γ} {us : List (UnitNode γ)}
      {y : Life γ} {report : Report} {hs : List (UnitId × Report)}
      (hcarries : Carries c id u v us c') (hleads : u.life.Leads N us y)
      (hv : v.ComesTo y (some report)) (h : HandsUp c' id report hs c'') : Advances N c hs c''

theorem units_spawnAll (c : Core γ) (ts : List (Task γ)) :
    (ts.foldl spawn c).units = c.units ∧ SameFrame c (ts.foldl spawn c) := by
  induction ts generalizing c with
  | nil => exact ⟨rfl, .refl c⟩
  | cons t ts ih =>
    obtain ⟨hunits, hframe⟩ := ih (c.spawn t)
    exact ⟨hunits, ⟨hframe.setup, hframe.root, hframe.rootReport⟩⟩

/-- A unit that goes on leaves the state sound. -/
theorem Carries.went {id : UnitId} {u v : UnitNode γ} {us : List (UnitNode γ)} {y : Life γ}
    {finished : Option Report} (h : Carries c id u v us c') (hleads : u.life.Leads N us y)
    (hv : v.ComesTo y finished) (hc : c.IsSound) : c'.IsSound ∧ u.life.Precedes v.life := by
  have hprecedes := hleads.precedes.trans hv.precedes
  have hsound := hv.isSound (hleads.isSound (hc.sound id u h.unit))
  refine ⟨h.isSound hc hsound hprecedes fun w hw ↦ ?_, hprecedes⟩
  obtain ⟨hborn, hparent⟩ := hleads.newborn w hw
  exact ⟨hborn, fun p hp ↦ (hparent p hp).trans (hc.filed id u h.unit)⟩

/-- A regular operation on a unit is a unit going on, and reports going up if it finishes. -/
theorem advances_atUnit (hc : c.IsSound) (id : UnitId) {op : UnitOp γ α}
    (hop : ∀ u, c.units[id]? = some u → op.IsRegular N u) :
    Advances N c (c.handedOn id op) (c.atUnit id op).2 := by
  cases hu : c.units[id]? with
  | none =>
    rw [handedOn, atUnit, hu]
    exact .rest rfl (.refl c)
  | some u =>
    obtain ⟨y, hleads, hv⟩ := UnitOp.comesTo_run (hc.sound id u hu) (hop u hu) c.setup.settings
      c.channels c.nextRequest
    have hcarries := carries_carryOut hu (hc.filed id u hu) op
    have hleads : u.life.Leads N (c.turnOf u op).effects.newUnits y := hleads
    have hv : (c.turnOf u op).unit.ComesTo y (c.turn u op).2.1.finished := hv
    rw [handedOn, atUnit, hu]
    dsimp only
    cases hfinished : (c.turn u op).2.1.finished with
    | none =>
      obtain ⟨hunits, hframe⟩ := units_spawnAll (c.carryOut id u op) (c.turn u op).2.1.tasks
      exact .acted (hcarries.other hunits hframe) hleads (hfinished ▸ hv)
    | some report =>
      rw [hfinished] at hv
      obtain ⟨hc', -⟩ := hcarries.went hleads hv hc
      have hids : ∀ (k : UnitId) (x : UnitNode γ), (c.carryOut id u op).units[k]? = some x →
          k ∈ (c.carryOut id u op).units.keys := fun k x hx ↦ by
        rw [Std.ExtTreeMap.mem_keys, Std.ExtTreeMap.mem_iff_isSome_getElem?, hx]
        rfl
      have hup : HandsUp (c.carryOut id u op) id report _ _ :=
        handsUp_handReport hc' hcarries.changed hids List.nodup_nil (List.forall_mem_nil _)
          (n := (c.carryOut id u op).units.size + 1)
          (by rw [Std.ExtTreeMap.length_keys, List.length_nil]; omega)
      obtain ⟨hunits, hframe⟩ := units_spawnAll
        ((c.carryOut id u op).handReport id report ((c.carryOut id u op).units.size + 1)).2
        ((c.turn u op).2.1.tasks ++
          ((c.carryOut id u op).handReport id report ((c.carryOut id u op).units.size + 1)).1)
      exact .finished hcarries hleads hv (hup.other hunits hframe)

theorem Stride.advances (h : Stride N c hs c') (hc : c.IsSound) : Advances N c hs c' := by
  cases h with
  | did id op hop => exact advances_atUnit hc id hop
  | other hunits hframe => exact .rest hunits hframe

end Core

end ScopeGraphs
