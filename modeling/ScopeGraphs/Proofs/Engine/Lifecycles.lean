import ScopeGraphs.Proofs.Engine.Strides

/-!
# Lifecycles

What a life keeps (`Life.Precedes`, `Life.IsSound`) every unit keeps in every run, whatever happens
to it and in which order: it is started, confirmed or denied reuse, made to run, ended by its
checker or given up, and all this may come late or more than once.

A unit finishes once. The reports that are handed on in a run are those of the units that finish
(`Core.Finishes`), so each of them is handed on once, and the report of the root is never replaced.
-/

namespace ScopeGraphs

variable {γ : Type} {N : String → Prop}

namespace Core

variable {c c' c'' : Core γ} {hs hs' : List (UnitId × Report)}

/-! ## From one state to a later one -/

/-- All units are still there, at later stages of their lives. -/
def Precedes (c c' : Core γ) : Prop :=
  ∀ (id : UnitId) (u : UnitNode γ), c.units[id]? = some u →
    ∃ v, c'.units[id]? = some v ∧ u.life.Precedes v.life

namespace Precedes

theorem of_units_eq (h : c'.units = c.units) : c.Precedes c' :=
  fun _ u hu ↦ ⟨u, h ▸ hu, .refl _⟩

theorem trans (h : c.Precedes c') (h' : c'.Precedes c'') : c.Precedes c'' := fun id u hu ↦
  let ⟨v, hv, huv⟩ := h id u hu
  let ⟨w, hw, hvw⟩ := h' id v hv
  ⟨w, hw, huv.trans hvw⟩

end Precedes

/-- The units that finish between two states are those that hand on a report, each its own. -/
structure Finishes (c : Core γ) (hs : List (UnitId × Report)) (c' : Core γ) : Prop where
  nodup : (hs.map Prod.fst).Nodup
  before : ∀ e ∈ hs, ∀ u, c.units[e.1]? = some u → u.finished = false
  after : ∀ e ∈ hs, ∃ v, c'.units[e.1]? = some v ∧ v.finished = true ∧ v.report.get? = some e.2
  all : ∀ (id : UnitId) (v : UnitNode γ), c'.units[id]? = some v → v.finished = true →
    (∃ u, c.units[id]? = some u ∧ u.finished = true) ∨ id ∈ hs.map Prod.fst

namespace Finishes

theorem of_units_eq (h : c'.units = c.units) : c.Finishes [] c' where
  nodup := List.nodup_nil
  before := List.forall_mem_nil _
  after := List.forall_mem_nil _
  all _ v hv hfinished := .inl ⟨v, h ▸ hv, hfinished⟩

theorem trans (h : c.Finishes hs c') (h' : c'.Finishes hs' c'') (hc : c.Precedes c')
    (hc' : c'.Precedes c'') : c.Finishes (hs ++ hs') c'' where
  nodup := by
    rw [List.map_append]
    refine h.nodup.append h'.nodup fun id hid hid' ↦ ?_
    obtain ⟨e, he, rfl⟩ := List.mem_map.1 hid
    obtain ⟨e', he', heq⟩ := List.mem_map.1 hid'
    -- What finishes first is not unfinished afterwards.
    obtain ⟨v, hv, hfinished, -⟩ := h.after e he
    have hunfinished := h'.before e' he' v (heq ▸ hv)
    exact nomatch hunfinished.symm.trans hfinished
  before := by
    refine List.forall_mem_append.2 ⟨h.before, fun e he u hu ↦ ?_⟩
    obtain ⟨v, hv, hprecedes⟩ := hc e.1 u hu
    have hunfinished : v.life.finished = false := h'.before e he v hv
    refine Bool.eq_false_iff.2 fun hfinished ↦ ?_
    exact nomatch hunfinished.symm.trans (hprecedes.finished hfinished)
  after := by
    refine List.forall_mem_append.2 ⟨fun e he ↦ ?_, h'.after⟩
    obtain ⟨v, hv, hfinished, hreport⟩ := h.after e he
    obtain ⟨w, hw, hprecedes⟩ := hc' e.1 v hv
    exact ⟨w, hw, hprecedes.finished hfinished, hprecedes.report _ hreport⟩
  all id w hw hfinished := by
    rw [List.map_append, List.mem_append]
    obtain ⟨v, hv, hfinished⟩ | hid := h'.all id w hw hfinished
    · exact (h.all id v hv hfinished).imp_right .inl
    · exact .inr (.inr hid)

end Finishes

/-- What becomes of a sound state: a later one, which is sound. -/
structure Passes (c : Core γ) (hs : List (UnitId × Report)) (c' : Core γ) : Prop where
  sound : c'.IsSound
  precedes : c.Precedes c'
  finishes : c.Finishes hs c'

namespace Passes

theorem of_units_eq (hc : c.IsSound) (h : c'.units = c.units) : c.Passes [] c' :=
  ⟨hc.of_units_eq h, .of_units_eq h, .of_units_eq h⟩

theorem trans (h : c.Passes hs c') (h' : c'.Passes hs' c'') : c.Passes (hs ++ hs') c'' :=
  ⟨h'.sound, h.precedes.trans h'.precedes, h.finishes.trans h'.finishes h.precedes h'.precedes⟩

end Passes

/-! ## One stride -/

namespace Carries

variable {id : UnitId} {u v : UnitNode γ} {us : List (UnitNode γ)} {y : Life γ}
  {finished : Option Report}

theorem precedes (h : Carries c id u v us c') (hv : u.life.Precedes v.life) : c.Precedes c' := by
  intro k w hw
  by_cases heq : id = k
  · subst heq
    obtain rfl := Option.some.inj (h.unit.symm.trans hw)
    exact ⟨v, h.changed, hv⟩
  · exact ⟨w, h.kept heq hw, .refl _⟩

/-- Only the unit that is carried on may finish. -/
theorem finishes (h : Carries c id u v us c') (hv : v.ComesTo y finished) (hy : y.IsSound)
    (hsame : y.finished = u.finished) (hus : ∀ w ∈ us, w.life.IsNewborn) :
    c.Finishes (finished.toList.map fun r ↦ (id, r)) c' := by
  -- The others are as they were, or newborn.
  have hothers (k : UnitId) (w : UnitNode γ) (hw : c'.units[k]? = some w) (hne : id ≠ k)
      (hfinished : w.finished = true) : ∃ u, c.units[k]? = some u ∧ u.finished = true := by
    obtain ⟨heq, -⟩ | ⟨-, hold⟩ | ⟨-, -, hmem, -⟩ := h.cases hw
    · exact absurd heq hne
    · exact ⟨w, hold, hfinished⟩
    · have hunfinished : w.finished = false := (hus w hmem).finished
      exact nomatch hunfinished.symm.trans hfinished
  cases finished with
  | none =>
    refine ⟨List.nodup_nil, List.forall_mem_nil _, List.forall_mem_nil _, fun k w hw hfinished ↦ ?_⟩
    by_cases heq : id = k
    · subst heq
      obtain rfl := Option.some.inj (h.changed.symm.trans hw)
      have hlife : v.finished = y.finished := congrArg Life.finished hv.life_eq
      exact .inl ⟨u, h.unit, (hlife.trans hsame).symm.trans hfinished⟩
    · exact .inl (hothers k w hw heq hfinished)
  | some r =>
    obtain ⟨hcomplete, -, -, hlife⟩ := hv.reported
    refine ⟨List.nodup_singleton _, List.forall_mem_singleton.2 fun x hx ↦ ?_,
      List.forall_mem_singleton.2 ⟨v, h.changed, congrArg Life.finished hlife, hv.report hy⟩,
      fun k w hw hfinished ↦ ?_⟩
    · obtain rfl := Option.some.inj (h.unit.symm.trans hx)
      exact hsame.symm.trans hcomplete.unfinished
    · by_cases heq : id = k
      · exact .inr (List.mem_singleton.2 heq.symm)
      · exact .inl (hothers k w hw heq hfinished)

end Carries

/-- A unit that is handed a report goes on, and may finish. -/
theorem Carries.passes_received {p : UnitId} {u v : UnitNode γ} {report : Report}
    {finished : Option Report} (h : Carries c p u v [] c')
    (hv : v.ComesTo (u.life.receive report) finished) (hc : c.IsSound) :
    c.Passes (finished.toList.map fun r ↦ (p, r)) c' := by
  obtain ⟨hsound, hprecedes⟩ := h.received hv hc
  exact ⟨hsound, h.precedes hprecedes,
    h.finishes hv ((hc.sound p u h.unit).receive report) rfl (List.forall_mem_nil _)⟩

/-- The units on the way up finish one after the other. -/
theorem HandsUp.passes {origin : UnitId} {report : Report} (h : HandsUp c origin report hs c')
    (hc : c.IsSound) : ∃ hs', hs = (origin, report) :: hs' ∧ c.Passes hs' c' := by
  induction h with
  | top _ _ hunits => exact ⟨[], rfl, .of_units_eq hc hunits⟩
  | stay _ _ hcarries hv => exact ⟨[], rfl, hcarries.passes_received hv hc⟩
  | up _ _ hcarries hv _ ih =>
    have hpassed := hcarries.passes_received hv hc
    obtain ⟨hs', rfl, hpasses⟩ := ih hpassed.sound
    exact ⟨_, rfl, hpassed.trans hpasses⟩

theorem Advances.passes (h : Advances N c hs c') (hc : c.IsSound) : c.Passes hs c' := by
  have hwent {id : UnitId} {u v : UnitNode γ} {us : List (UnitNode γ)} {y : Life γ}
      {finished : Option Report} {c₁ : Core γ} (hcarries : Carries c id u v us c₁)
      (hleads : u.life.Leads N us y) (hv : v.ComesTo y finished) :
      c.Passes (finished.toList.map fun r ↦ (id, r)) c₁ := by
    obtain ⟨hsound, hprecedes⟩ := hcarries.went hleads hv hc
    exact ⟨hsound, hcarries.precedes hprecedes,
      hcarries.finishes hv (hleads.isSound (hc.sound _ _ hcarries.unit)) hleads.remains.finished
        fun w hw ↦ (hleads.newborn w hw).1⟩
  cases h with
  | rest hunits => exact .of_units_eq hc hunits
  | acted hcarries hleads hv => exact hwent hcarries hleads hv
  | finished hcarries hleads hv h =>
    have hpassed := hwent hcarries hleads hv
    obtain ⟨hs', rfl, hpasses⟩ := h.passes hpassed.sound
    exact hpassed.trans hpasses

/-- Reports go up only to units that are above. -/
theorem HandsUp.untouched {origin : UnitId} {report : Report} (h : HandsUp c origin report hs c')
    (above : UnitId → Prop) (habove : ∀ (k : UnitId) (u : UnitNode γ) (p : UnitId), above k →
      c.units[k]? = some u → u.parent = some p → above p) (horigin : above origin) {k : UnitId}
    (hk : ¬ above k) : c'.units[k]? = c.units[k]? := by
  induction h with
  | top _ _ hunits => rw [hunits]
  | stay hw hparent hcarries =>
    have hp := habove _ _ _ horigin hw hparent
    rw [hcarries.units, if_neg (by rintro rfl; exact hk hp), List.find?_nil, Option.or_none]
  | up hw hparent hcarries hv _ ih =>
    have hp := habove _ _ _ horigin hw hparent
    rw [ih (fun k' x q hk' hx hq ↦ ?_) hp, hcarries.units, if_neg (by rintro rfl; exact hk hp),
      List.find?_nil, Option.or_none]
    -- Nobody gets another parent.
    obtain ⟨rfl, rfl⟩ | ⟨-, hold⟩ | ⟨-, -, hmem, -⟩ := hcarries.cases hx
    · exact habove _ _ q hk' hcarries.unit (hv.precedes.parent.symm.trans hq)
    · exact habove k' x q hk' hold hq
    · exact absurd hmem List.not_mem_nil

/-- Units that are added in a stride are still newborn at its end. -/
theorem Advances.newborn (h : Advances N c hs c') (hc : c.IsSound) {id : UnitId} {v : UnitNode γ}
    (hv : c'.units[id]? = some v) (hnew : c.units[id]? = none) : v.life.IsNewborn := by
  have hadded {k : UnitId} {u w : UnitNode γ} {us : List (UnitNode γ)} {y : Life γ} {c₁ : Core γ}
      (hcarries : Carries c k u w us c₁) (hleads : u.life.Leads N us y)
      (hv : c₁.units[id]? = some v) : v.life.IsNewborn := by
    obtain ⟨rfl, -⟩ | ⟨-, hold⟩ | ⟨-, -, hmem, -⟩ := hcarries.cases hv
    · exact nomatch hcarries.unit.symm.trans hnew
    · exact nomatch hold.symm.trans hnew
    · exact (hleads.newborn v hmem).1
  cases h with
  | rest hunits => exact nomatch (hunits ▸ hv).symm.trans hnew
  | acted hcarries hleads => exact hadded hcarries hleads hv
  | finished hcarries hleads hcomes h =>
    -- The units above were there before.
    have hkept := h.untouched (fun k ↦ ∃ x, c.units[k]? = some x) (fun k x q hk hx hq ↦ ?_)
      ⟨_, hcarries.unit⟩ (k := id) (by simp [hnew])
    · exact hadded hcarries hleads (hkept ▸ hv)
    · obtain ⟨rfl, rfl⟩ | ⟨-, hold⟩ | ⟨-, hnone, -⟩ := hcarries.cases hx
      · exact hc.parent _ _ q hcarries.unit
          (hleads.precedes.parent.symm.trans (hcomes.precedes.parent.symm.trans hq))
      · exact hc.parent k x q hold hq
      · obtain ⟨x', hx'⟩ := hk
        exact nomatch hx'.symm.trans hnone

/-! ## The root -/

theorem HandsUp.rootReport {origin : UnitId} {report : Report}
    (h : HandsUp c origin report hs c') : c'.root = c.root ∧ (c'.rootReport = c.rootReport ∨
      ∃ r, (c.root, r) ∈ hs ∧ c'.rootReport = some r) := by
  induction h with
  | top hw hparent hunits hroot hreport =>
    refine ⟨hroot, ?_⟩
    split at hreport
    · rename_i heq
      exact .inr ⟨_, heq ▸ List.mem_cons_self, hreport⟩
    · exact .inl hreport
  | stay _ _ hcarries => exact ⟨hcarries.frame.root, .inl hcarries.frame.rootReport⟩
  | up _ _ hcarries _ _ ih =>
    obtain ⟨hroot, hreport⟩ := ih
    rw [hcarries.frame.root] at hroot hreport
    rw [hcarries.frame.rootReport] at hreport
    exact ⟨hroot, hreport.imp_right fun ⟨r, hr, heq⟩ ↦ ⟨r, List.mem_cons_of_mem _ hr, heq⟩⟩

theorem Advances.rootReport (h : Advances N c hs c') : c'.root = c.root ∧
    (c'.rootReport = c.rootReport ∨ ∃ r, (c.root, r) ∈ hs ∧ c'.rootReport = some r) := by
  cases h with
  | rest _ hframe => exact ⟨hframe.root, .inl hframe.rootReport⟩
  | acted hcarries => exact ⟨hcarries.frame.root, .inl hcarries.frame.rootReport⟩
  | finished hcarries _ _ h =>
    have hup := h.rootReport
    rwa [hcarries.frame.root, hcarries.frame.rootReport] at hup

/-- The report of a run is that of its root unit. -/
def IsReported (c : Core γ) : Prop := ∀ r, c.rootReport = some r →
  ∃ u, c.units[c.root]? = some u ∧ u.finished = true ∧ u.report.get? = some r

/-- The report of a run is not replaced, since the root unit does not finish again. -/
theorem Advances.reported (h : Advances N c hs c') (hc : c.IsSound) (hreported : c.IsReported) :
    c'.IsReported ∧ ∀ r, c.rootReport = some r → c'.rootReport = some r := by
  have hpasses := h.passes hc
  obtain ⟨hroot, heq | ⟨r', hmem, heq⟩⟩ := h.rootReport
  · rw [IsReported, heq, hroot]
    refine ⟨fun r hr ↦ ?_, fun r hr ↦ hr⟩
    obtain ⟨u, hu, hfinished, hreport⟩ := hreported r hr
    obtain ⟨v, hv, hprecedes⟩ := hpasses.precedes _ u hu
    exact ⟨v, hv, hprecedes.finished hfinished, hprecedes.report r hreport⟩
  · rw [IsReported, heq, hroot]
    refine ⟨fun r hr ↦ Option.some.inj hr ▸ hpasses.finishes.after _ hmem, fun r hr ↦ ?_⟩
    obtain ⟨u, hu, hfinished, -⟩ := hreported r hr
    exact nomatch (hpasses.finishes.before _ hmem u hu).symm.trans hfinished

/-! ## Whole runs -/

theorem Strides.passes (h : Strides N c hs c') (hc : c.IsSound) : c.Passes hs c' := by
  induction h with
  | refl => exact .of_units_eq hc rfl
  | tail _ hstride ih => exact ih.trans ((hstride.advances ih.sound).passes ih.sound)

theorem Strides.reported (h : Strides N c hs c') (hc : c.IsSound) (hreported : c.IsReported) :
    c'.IsReported := by
  induction h with
  | refl => exact hreported
  | tail h hstride ih =>
    have hsound := (h.passes hc).sound
    exact ((hstride.advances hsound).reported hsound ih).1

section

variable {setup : Setup} {root : UnitId} {code : γ} {previous : Option Report}

/-- **Lives go forward only.** In every run, whatever happens to a unit and in which order, each
stride leads a unit along the edges of `Phase.Edge`, and units begin their lives as created. A unit
that is done stays so, one that reuses its previous result does so until it is done, and one that
has finished stays finished. The units that finish in a stride are those that hand on a report in
it, namely their own. In the whole run nobody hands on a report twice, and the report of the root is
never replaced. -/
theorem Strides.lifecycle (h : Strides N (start setup root code previous) hs c)
    (hstride : Stride N c hs' c') :
    (∀ (id : UnitId) (v : UnitNode γ), c'.units[id]? = some v → c.units[id]? = none →
      v.phase = .created ∧ v.finished = false) ∧
    (∀ (id : UnitId) (u : UnitNode γ), c.units[id]? = some u → ∃ v, c'.units[id]? = some v ∧
      v.kind = u.kind ∧ Phase.Leads u.kind u.phase v.phase ∧
      (u.phase = .done → v.phase = .done) ∧
      (u.phase = .released → v.phase = .released ∨ v.phase = .done) ∧
      (u.finished = true → v.finished = true) ∧
      (u.finished = false ∧ v.finished = true ↔ id ∈ hs'.map Prod.fst)) ∧
    (∀ e ∈ hs', ∃ v, c'.units[e.1]? = some v ∧ v.finished = true ∧ v.report.get? = some e.2) ∧
    ((hs ++ hs').map Prod.fst).Nodup ∧
    ∀ r, c.rootReport = some r → c'.rootReport = some r := by
  have hstart : (start setup root code previous).IsSound := isSound_start setup root code previous
  have hbefore := h.passes hstart
  have hadvances := hstride.advances hbefore.sound
  have hpasses := hadvances.passes hbefore.sound
  have hreported := h.reported hstart fun r hr ↦ nomatch hr
  refine ⟨fun id v hv hnew ↦ ?_, fun id u hu ↦ ?_, hpasses.finishes.after,
    (hbefore.trans hpasses).finishes.nodup, (hadvances.reported hbefore.sound hreported).2⟩
  · have hborn := hadvances.newborn hbefore.sound hv hnew
    exact ⟨hborn.phase, hborn.finished⟩
  · obtain ⟨v, hv, hprecedes⟩ := hpasses.precedes id u hu
    have hphase : Phase.Leads u.kind u.phase v.phase := hprecedes.phase
    refine ⟨v, hv, hprecedes.kind, hphase, fun hdone ↦ ?_, fun hreleased ↦ ?_,
      hprecedes.finished, fun ⟨hunfinished, hfinished⟩ ↦ ?_, fun hmem ↦ ?_⟩
    · exact (hdone ▸ hphase).eq_done
    · exact (hreleased ▸ hphase).of_released
    · refine (hpasses.finishes.all id v hv hfinished).resolve_left fun ⟨x, hx, hx'⟩ ↦ ?_
      obtain rfl := Option.some.inj (hu.symm.trans hx)
      exact nomatch hunfinished.symm.trans hx'
    · obtain ⟨e, he, rfl⟩ := List.mem_map.1 hmem
      obtain ⟨w, hw, hfinished, -⟩ := hpasses.finishes.after e he
      obtain rfl := Option.some.inj (hv.symm.trans hw)
      exact ⟨hpasses.finishes.before e he u hu, hfinished⟩

end

private def soloId : UnitId := ⟨"root"⟩

/-- A unit that had a result in the previous run. -/
private def soloStart : Core Unit :=
  start ⟨.withReuse .trivial, [], 1⟩ soloId ()
    (some (.mk soloId [] .empty .empty (some .unit) [] [] none .initiallyStarted []))

private def soloBegun : Core Unit := (soloStart.atUnit soloId (.handle (.start []))).2

private theorem strides_soloBegun : Strides (fun _ ↦ False) soloStart [] soloBegun :=
  Stride.strides (.did soloId (.handle (.start [])) fun _ _ ↦ trivial)

/-- A unit whose checker has ended is done and hands on its report. -/
theorem lifecycle_ended : ∃ u v, soloBegun.units[soloId]? = some u ∧
    (soloBegun.atUnit soloId (.checkerFinished (.ok .unit))).2.units[soloId]? = some v ∧
    u.phase = .started ∧ v.phase = .done ∧ Phase.Leads u.kind u.phase v.phase := by
  have hstride : Stride (fun _ ↦ False) soloBegun _ _ :=
    .did soloId (.checkerFinished (.ok .unit)) fun _ _ ↦ trivial
  have hlifecycle := (Strides.lifecycle strides_soloBegun hstride).2.1
  obtain ⟨u, hu, hphase⟩ : ∃ u, soloBegun.units[soloId]? = some u ∧ u.phase = .started :=
    ⟨_, rfl, rfl⟩
  obtain ⟨v, hv, -, hleads, -, -, -, -⟩ := hlifecycle soloId u hu
  obtain ⟨w, hw, hdone⟩ : ∃ w,
      (soloBegun.atUnit soloId (.checkerFinished (.ok .unit))).2.units[soloId]? = some w ∧
        w.phase = .done := ⟨_, rfl, rfl⟩
  obtain rfl := Option.some.inj (hv.symm.trans hw)
  exact ⟨u, v, hu, hv, hphase, hdone, hleads⟩

section

variable {setup : Setup} {root : UnitId} {code : γ} {previous : Option Report}

/-- **Everybody sees the same decision.** In every state of every run, the decision about a checker
is to reuse its previous result under a renaming exactly if the unit reuses it under that renaming,
and then its trace says so, and no other one's does. The decision is taken, and the news that the
unit is active are out, exactly in the phases in which it runs or reuses or has ended, and the news
are those of the decision. Once taken, the decision and the news stay. -/
theorem Strides.decision_agrees (h : Strides N (start setup root code previous) hs c)
    {id : UnitId} {u : UnitNode γ} (hu : c.units[id]? = some u)
    (hkind : u.kind.isChecker = true) :
    (∀ p, u.decision.get? = some (some p) ↔ u.reuse = some p) ∧
    ((∃ p, u.reuse = some p) ↔ u.trace = .released) ∧
    (u.decision.isSettled = true ↔
      u.phase = .active ∨ u.phase = .released ∨ u.phase = .done) ∧
    (u.whenActive.isSettled = true ↔
      u.phase = .active ∨ u.phase = .released ∨ u.phase = .done) ∧
    u.whenActive.get? = u.decision.get?.map Life.newsOf ∧
    ∀ hs' c', Strides N c hs' c' → ∃ v, c'.units[id]? = some v ∧
      (∀ d, u.decision.get? = some d → v.decision.get? = some d) ∧
      ∀ a, u.whenActive.get? = some a → v.whenActive.get? = some a := by
  have hpasses := h.passes (isSound_start setup root code previous)
  have hlife := hpasses.sound.sound id u hu
  refine ⟨hlife.reuse hkind, ?_, ?_, ?_, hlife.told hkind, fun hs' c' hlater ↦ ?_⟩
  · exact Option.isSome_iff_exists.symm.trans (hlife.trace hkind)
  · rw [Promise.isSettled_eq]
    exact hlife.decision hkind
  · rw [Promise.isSettled_eq]
    exact hlife.active hkind
  · obtain ⟨v, hv, hprecedes⟩ := (hlater.passes hpasses.sound).precedes id u hu
    exact ⟨v, hv, hprecedes.decision hkind, hprecedes.active hkind⟩

end

private def soloHesitant : Core Unit := (soloBegun.atUnit soloId (.act .askForReuse)).2

/-- A unit that has asked for reuse and is told to reuse its previous result does so. -/
theorem decision_agrees_reused : ∃ u,
    (soloHesitant.atUnit soloId (.release .identity)).2.units[soloId]? = some u ∧
      u.trace = .released ∧ ∃ p, u.decision.get? = some (some p) := by
  have hasked : Stride (fun _ ↦ False) soloBegun _ soloHesitant :=
    .did soloId (.act .askForReuse) fun u hu ↦ ⟨by obtain rfl := Option.some.inj hu; rfl, trivial⟩
  have hreleased : Stride (fun _ ↦ False) soloHesitant _ _ :=
    .did soloId (.release .identity) fun _ _ ↦ trivial
  obtain ⟨u, hu, hkind, htrace⟩ : ∃ u,
      (soloHesitant.atUnit soloId (.release .identity)).2.units[soloId]? = some u ∧
        u.kind.isChecker = true ∧ u.trace = .released := ⟨_, rfl, rfl, rfl⟩
  have hagrees := Strides.decision_agrees
    ((strides_soloBegun.tail hasked).tail hreleased) hu hkind
  obtain ⟨p, hp⟩ := hagrees.2.1.2 htrace
  exact ⟨u, hu, htrace, p, (hagrees.1 p).2 hp⟩

end Core

end ScopeGraphs
