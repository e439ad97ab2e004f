import ScopeGraphs.Proofs.Engine.Lifecycles
import ScopeGraphs.Proofs.Units.Families

/-!
# Trees of reports

A unit that finishes hands its report to its parent, which may finish in turn. Through all of a run
the units form a family and the reports are filed where they belong (`Core.IsTree`); in the middle
of a step one report is still to be handed on. A unit finishes only when its checker has come to a
result, when it waits for nothing and when all its sub-units have reported, so what it reports is
complete (`Core.Strides.report_complete`).
-/

namespace ScopeGraphs

variable {γ : Type}

/-- A unit that has finished, as it hands in its report. -/
structure UnitNode.HandsIn (v : UnitNode γ) (r : Report) : Prop where
  finished : v.finished = true
  outcome : v.outcome.isSome = true
  waits : v.waits.isEmpty = true
  report : v.report.get? = some r
  current : r = v.currentReport

theorem UnitNode.ComesTo.handsIn {v : UnitNode γ} {y : Life γ} {r : Report}
    (h : v.ComesTo y (some r)) (hy : y.IsSound) : v.HandsIn r := by
  obtain ⟨hcomplete, hempty, hcurrent, hlife⟩ := h.reported
  refine ⟨congrArg Life.finished hlife, ?_, hempty, h.report hy, hcurrent⟩
  have houtcome : v.outcome = y.outcome := congrArg Life.outcome hlife
  rw [houtcome, hcomplete.outcome]

namespace Core

variable {c c' c'' : Core γ} {hs hs' : List (UnitId × Report)} {id k p origin : UnitId}
  {u v w : UnitNode γ} {us : List (UnitNode γ)} {y : Life γ} {waiting : UnitId → Prop}

/-- The lives of the units. -/
def lives (c : Core γ) : Lives γ := fun k ↦ (c.units[k]?).map UnitNode.life

theorem lives_of_unit (hu : c.units[k]? = some u) : c.lives k = some u.life := by
  rw [lives, hu, Option.map_some]

theorem exists_of_lives {x : Life γ} (hx : c.lives k = some x) :
    ∃ u, c.units[k]? = some u ∧ u.life = x := Option.map_eq_some_iff.1 hx

theorem lives_of_units_eq (hunits : c'.units = c.units) : c'.lives = c.lives := by
  funext k
  rw [lives, lives, hunits]

theorem Carries.lives_eq (h : Carries c id u v us c') : c'.lives = c.lives.grow id v.life us := by
  funext k
  rw [lives, h.units, Lives.grow]
  split
  · rfl
  · exact Option.map_or

/-- The units form a family, and all reports are where they belong, except for those that wait to be
handed on. -/
structure IsTree (c : Core γ) (waiting : UnitId → Prop) : Prop where
  family : c.lives.IsFamily c.root
  filed : c.lives.IsFiled waiting

namespace IsTree

theorem of_units_eq (h : c.IsTree waiting) (hunits : c'.units = c.units)
    (hroot : c'.root = c.root) : c'.IsTree waiting := by
  have hlives : c'.lives = c.lives := lives_of_units_eq hunits
  exact ⟨hroot ▸ hlives ▸ h.family, hlives ▸ h.filed⟩

theorem parent (h : c.IsTree waiting) (hw : c.units[k]? = some w) (hparent : w.parent = some p) :
    ∃ u name, c.units[p]? = some u ∧ u.subUnits[name]? = some k ∧ IsPlainName name ∧
      k = p.child name := by
  obtain ⟨y, name, hy, hname⟩ := h.family.parent (lives_of_unit hw) hparent
  obtain ⟨u, hu, rfl⟩ := exists_of_lives hy
  obtain ⟨hplain, heq, -⟩ := h.family.child hy hname
  exact ⟨u, name, hu, hname, hplain, heq⟩

/-- A unit does not finish before its sub-units have. -/
theorem unfinished_parent (h : c.IsTree waiting) (hw : c.units[k]? = some w)
    (hunfinished : w.finished = false) (hparent : w.parent = some p)
    (hu : c.units[p]? = some u) : u.finished = false := by
  obtain ⟨u', name, hu', hname, -, -⟩ := h.parent hw hparent
  obtain rfl := Option.some.inj (hu.symm.trans hu')
  refine Bool.eq_false_iff.2 fun hfinished ↦ ?_
  have hmem : name ∈ u.life.subReports := h.filed.complete (lives_of_unit hu) hfinished name
    (Std.ExtTreeMap.mem_iff_isSome_getElem?.2 (Option.isSome_iff_exists.2 ⟨k, hname⟩))
  obtain ⟨r, hr⟩ := Option.isSome_iff_exists.1 (Std.ExtTreeMap.mem_iff_isSome_getElem?.1 hmem)
  obtain ⟨k', x, hk', hx, hreport⟩ := h.filed.kept (lives_of_unit hu) hr
  obtain rfl := Option.some.inj (hname.symm.trans hk')
  obtain rfl := Option.some.inj ((lives_of_unit hw).symm.trans hx)
  have hsome := (h.family.sound hx).report
  rw [hreport, Option.isSome_some] at hsome
  exact nomatch hunfinished.symm.trans hsome

end IsTree

/-! ## One stride -/

/-- A unit that comes to a stage of its life, and may finish there, still belongs to the family. -/
theorem Carries.family_comes {root : UnitId} (h : Carries c id u v us c') {finished : Option Report}
    (hv : v.ComesTo y finished) (hfamily : (c.lives.grow id y us).IsFamily root) :
    c'.lives.IsFamily root := by
  cases finished with
  | none =>
    rw [h.lives_eq, hv.life_eq]
    exact hfamily
  | some r =>
    obtain ⟨hcomplete, -, -, hlife⟩ := hv.reported
    have hself := Lives.grow_self c.lives id y us
    have hended := hfamily.update hself (y.precedes_ended r)
      ((hfamily.sound hself).ended hcomplete r) rfl
    rwa [Lives.grow_grow, List.append_nil, ← hlife, ← h.lives_eq] at hended

/-- A unit comes to a stage of its life; if it finishes there its report waits to be handed on. -/
theorem Carries.tree_comes (h : Carries c id u v us c') {finished : Option Report}
    (hv : v.ComesTo y finished) (hfamily : (c.lives.grow id y us).IsFamily c.root)
    (hfiled : (c.lives.grow id y us).IsFiled fun _ ↦ False) :
    c'.IsTree (fun k ↦ finished.isSome = true ∧ k = id) ∧
      ∀ r, finished = some r → v.HandsIn r := by
  have hself := Lives.grow_self c.lives id y us
  have hsound := hfamily.sound hself
  have hfamily' : c'.lives.IsFamily c'.root := h.frame.root ▸ h.family_comes hv hfamily
  cases finished with
  | none =>
    refine ⟨⟨hfamily', ?_⟩, nofun⟩
    rw [h.lives_eq, hv.life_eq]
    simpa using hfiled
  | some r =>
    obtain ⟨hcomplete, -, hcurrent, hlife⟩ := hv.reported
    have hr : r.id = id := by
      have hid : v.id = y.id := congrArg Life.id hlife
      rw [hcurrent, ← hfamily.filed hself, ← hid]
      rfl
    refine ⟨⟨hfamily', ?_⟩, fun r' hr' ↦ Option.some.inj hr' ▸ hv.handsIn hsound⟩
    have hended := hfiled.ended hself (hsound.report_eq_none hcomplete.unfinished) hcomplete hr
    rw [Lives.grow_grow, List.append_nil, ← hlife, ← h.lives_eq] at hended
    simpa using hended

theorem Carries.tree_went (h : Carries c id u v us c') {finished : Option Report}
    (hleads : u.life.Leads IsPlainName us y) (hv : v.ComesTo y finished)
    (hc : c.IsTree fun _ ↦ False) : c'.IsTree (fun k ↦ finished.isSome = true ∧ k = id) ∧
      ∀ r, finished = some r → v.HandsIn r :=
  h.tree_comes hv (hc.family.leads (lives_of_unit h.unit) hleads)
    (hc.filed.leads hc.family (lives_of_unit h.unit) hleads)

theorem Carries.tree_received (h : Carries c p u v [] c') {report : Report}
    {finished : Option Report} (hv : v.ComesTo (u.life.receive report) finished)
    (hc : c.IsTree (· = origin)) (hw : c.units[origin]? = some w)
    (hreport : w.report.get? = some report) (hparent : w.parent = some p) :
    c'.IsTree (fun k ↦ finished.isSome = true ∧ k = p) ∧ ∀ r, finished = some r → v.HandsIn r :=
  h.tree_comes hv
    (hc.family.update (lives_of_unit h.unit) (u.life.precedes_receive report)
      ((hc.family.sound (lives_of_unit h.unit)).receive report) rfl)
    (hc.filed.receive hc.family (lives_of_unit hw) hreport hparent (lives_of_unit h.unit))

/-- What holds after a stride in which reports were handed on: they are those of units that finished
in it, as these still are. -/
structure Settles (c : Core γ) (hs : List (UnitId × Report)) (c' : Core γ) : Prop where
  tree : c'.IsTree fun _ ↦ False
  handsIn : ∀ e ∈ hs, ∃ v, c'.units[e.1]? = some v ∧ v.HandsIn e.2
  still : ∀ (k : UnitId) (u : UnitNode γ), c.units[k]? = some u → u.finished = true →
    c'.units[k]? = some u

/-- A unit that was there keeps what it has when it was finished and another one went on. -/
theorem Carries.still (h : Carries c id u v us c') (hu : u.finished = false)
    (hk : c.units[k]? = some w) (hw : w.finished = true) : c'.units[k]? = some w := by
  refine h.kept ?_ hk
  rintro rfl
  obtain rfl := Option.some.inj (h.unit.symm.trans hk)
  exact nomatch hu.symm.trans hw

/-- The unit above one that goes on is as it was, and is not finished unless that one was. -/
theorem Carries.unfinished_above (h : Carries c id u v us c') (hc : c.IsTree waiting)
    (hu : u.finished = false) (hparent : u.parent = some p) (hw : c'.units[p]? = some w) :
    w.finished = false := by
  obtain ⟨x, name, hx, -, -, hchild⟩ := hc.parent h.unit hparent
  obtain ⟨heq, -⟩ | ⟨-, hold⟩ | ⟨-, hnone, -⟩ := h.cases hw
  · exact absurd (heq ▸ hchild).symm (p.child_ne name)
  · exact hc.unfinished_parent h.unit hu hparent hold
  · exact nomatch hnone.symm.trans hx

theorem HandsUp.settles {report : Report} (h : HandsUp c origin report hs c')
    (hc : c.IsTree (· = origin)) (hw : c.units[origin]? = some w) (hin : w.HandsIn report)
    (hopen : ∀ (p : UnitId) (u : UnitNode γ), w.parent = some p → c.units[p]? = some u →
      u.finished = false) : c.Settles hs c' := by
  induction h generalizing w with
  | top hw' hparent hunits hroot =>
    obtain rfl := Option.some.inj (hw.symm.trans hw')
    have htree := hc.of_units_eq hunits hroot
    refine ⟨⟨htree.family, htree.filed.all fun k x hk hx ↦ ?_⟩, ?_, fun k u hu _ ↦ hunits ▸ hu⟩
    · subst hk
      obtain ⟨u, hu, rfl⟩ := exists_of_lives hx
      obtain rfl := Option.some.inj (hw.symm.trans (hunits ▸ hu))
      exact hparent
    · exact List.forall_mem_singleton.2 ⟨w, hunits ▸ hw, hin⟩
  | stay hw' hparent hcarries hv =>
    obtain rfl := Option.some.inj (hw.symm.trans hw')
    have hunfinished := hopen _ _ hparent hcarries.unit
    obtain ⟨htree, -⟩ := hcarries.tree_received hv hc hw hin.report hparent
    refine ⟨by simpa using htree, ?_, fun k x hx ↦ hcarries.still hunfinished hx⟩
    exact List.forall_mem_singleton.2 ⟨w, hcarries.still hunfinished hw hin.finished, hin⟩
  | up hw' hparent hcarries hv h ih =>
    obtain rfl := Option.some.inj (hw.symm.trans hw')
    have hunfinished := hopen _ _ hparent hcarries.unit
    obtain ⟨htree, hnext⟩ := hcarries.tree_received hv hc hw hin.report hparent
    have hsettles := ih (by simpa using htree) hcarries.changed (hnext _ rfl) fun q x hq hx ↦ ?_
    · have hstill (k : UnitId) (x : UnitNode γ) (hx : _) (hfinished : x.finished = true) :=
        hsettles.still k x (hcarries.still hunfinished hx hfinished) hfinished
      refine ⟨hsettles.tree, ?_, hstill⟩
      exact List.forall_mem_cons.2 ⟨⟨w, hstill _ w hw hin.finished, hin⟩, hsettles.handsIn⟩
    · exact hcarries.unfinished_above hc hunfinished (hv.precedes.parent.symm.trans hq) hx

/-- **One stride.** Everything is where it belongs again, and every report that was handed on is
that of a unit that finished properly. -/
theorem Advances.tree (h : Advances IsPlainName c hs c') (hc : c.IsTree fun _ ↦ False) :
    c'.IsTree (fun _ ↦ False) ∧ ∀ e ∈ hs, ∃ v, c'.units[e.1]? = some v ∧ v.HandsIn e.2 := by
  cases h with
  | rest hunits hframe => exact ⟨hc.of_units_eq hunits hframe.root, List.forall_mem_nil _⟩
  | acted hcarries hleads hv =>
    obtain ⟨htree, -⟩ := hcarries.tree_went hleads hv hc
    exact ⟨by simpa using htree, List.forall_mem_nil _⟩
  | finished hcarries hleads hv h =>
    obtain ⟨htree, hin⟩ := hcarries.tree_went hleads hv hc
    have hunfinished := hleads.remains.finished.symm.trans hv.reported.1.unfinished
    have hsettles := h.settles (by simpa using htree) hcarries.changed (hin _ rfl) fun p x hp hx ↦
      hcarries.unfinished_above hc hunfinished
        (hleads.precedes.parent.symm.trans (hv.precedes.parent.symm.trans hp)) hx
    exact ⟨hsettles.tree, hsettles.handsIn⟩

/-! ## Whole runs -/

section

variable {setup : Setup} {root : UnitId} {code : γ} {previous : Option Report}

theorem isTree_start (hprevious : ∀ r, previous = some r → r.IsPlain) :
    (start setup root code previous).IsTree fun _ ↦ False := by
  have hcases {k : UnitId} {x : Life γ} (hx : (start setup root code previous).lives k = some x) :
      k = root ∧ x.IsNewborn ∧ x.id = root ∧ x.previous = previous ∧ x.parent = none := by
    obtain ⟨u, hu, rfl⟩ := exists_of_lives hx
    obtain ⟨rfl, rfl⟩ := units_start_eq_some_iff.1 hu
    exact ⟨rfl, Life.isNewborn_new _ _ _ _ _ _, rfl, rfl, rfl⟩
  constructor
  · refine ⟨?_, ?_, ?_, ?_, ?_, ?_, ?_, ?_, ?_⟩
    · intro k x hx
      obtain ⟨rfl, -, hid, -⟩ := hcases hx
      exact hid
    · exact fun hx ↦ (hcases hx).2.1.isSound
    · intro k x r hx hr
      exact hprevious r ((hcases hx).2.2.2.1.symm.trans hr)
    · intro k x hx
      rw [(hcases hx).1]
      exact Nat.le_refl _
    · exact fun hx ↦ .inl (hcases hx).1
    · intro p k y name hy hname
      rw [(hcases hy).2.1.subUnits, Std.ExtTreeMap.getElem?_empty] at hname
      exact nomatch hname
    · intro p k x hx hparent
      exact nomatch (hcases hx).2.2.2.2.symm.trans hparent
    · intro p x y name hy _ hx
      exact absurd ((hcases hx).1.trans (hcases hy).1.symm) (p.child_ne name)
    · exact fun hx _ ↦ (hcases hx).2.2.2.2
  · refine ⟨?_, ?_, ?_, ?_⟩
    · intro p y name r hy hr
      rw [(hcases hy).2.1.subReports, Std.ExtTreeMap.getElem?_empty] at hr
      exact nomatch hr
    · intro k p x y r hx hr
      exact nomatch (hcases hx).2.1.report.symm.trans hr
    · intro p y hy hfinished
      exact nomatch (hcases hy).2.1.finished.symm.trans hfinished
    · intro k x r hx hr
      exact nomatch (hcases hx).2.1.report.symm.trans hr

theorem Strides.tree (h : Strides IsPlainName c hs c') (hc : c.IsSound)
    (htree : c.IsTree fun _ ↦ False) : c'.IsTree fun _ ↦ False := by
  induction h with
  | refl => exact htree
  | tail h hstride ih => exact ((hstride.advances (h.passes hc).sound).tree ih).1

/-- The reports that a unit has are those of its sub-units. -/
theorem IsTree.subReports_iff (h : c.IsTree fun _ ↦ False) (hv : c.units[id]? = some v)
    {name : String} {s : Report} : v.subReports[name]? = some s ↔
      ∃ w, v.subUnits[name]? = some s.id ∧ c.units[s.id]? = some w ∧ w.report.get? = some s := by
  constructor
  · intro hs
    obtain ⟨k, x, hk, hx, hreport⟩ := h.filed.kept (lives_of_unit hv) hs
    obtain ⟨w, hw, rfl⟩ := exists_of_lives hx
    obtain rfl := h.filed.ids hx hreport
    exact ⟨w, hk, hw, hreport⟩
  · rintro ⟨w, hname, hw, hreport⟩
    obtain ⟨hplain, heq, x, hx, hparent⟩ := h.family.child (lives_of_unit hv) hname
    obtain rfl := Option.some.inj ((lives_of_unit hw).symm.trans hx)
    have harrived := h.filed.arrived hx hreport hparent (lives_of_unit hv) not_false
    rwa [heq, id.localName_child hplain] at harrived

/-- **Result trees are complete.** If no name of a sub-unit has a slash, in this run and in the
previous one, a unit that finishes in a stride has got its result and waits for nothing, and it
hands on a report. All its sub-units have finished, whenever they were added. The report has one
entry for every sub-unit, under the name under which it was added, namely the report of that
sub-unit, and no others, in particular none for units that only stand in for those that are gone. -/
theorem Strides.report_complete (hprevious : ∀ r, previous = some r → r.IsPlain)
    (h : Strides IsPlainName (start setup root code previous) hs c)
    (hstride : Stride IsPlainName c hs' c') (hv : c'.units[id]? = some v)
    (hfinished : v.finished = true)
    (hbefore : ∀ u, c.units[id]? = some u → u.finished = false) :
    v.outcome.isSome = true ∧ v.waits.isEmpty = true ∧
    ∃ r, (id, r) ∈ hs' ∧ v.report.get? = some r ∧ (r.subs.map Prod.fst).Nodup ∧
      (∀ (name : String) (s : Report), (name, s) ∈ r.subs ↔
        ∃ w, v.subUnits[name]? = some s.id ∧ c'.units[s.id]? = some w ∧
          w.report.get? = some s) ∧
      (∀ (name : String) (k : UnitId), v.subUnits[name]? = some k →
        k = id.child name ∧ ∃ w s, c'.units[k]? = some w ∧ w.finished = true ∧
          w.isRemoved = false ∧ w.report.get? = some s ∧ (name, s) ∈ r.subs) ∧
      (∀ (k : UnitId) (w : UnitNode γ), c'.units[k]? = some w → w.parent = some id →
        ∃ name : String, v.subUnits[name]? = some k) ∧
      ∀ hs₀ hs₁ c₀ u (name : String) (k : UnitId),
        Strides IsPlainName (start setup root code previous) hs₀ c₀ →
        Strides IsPlainName c₀ hs₁ c' → c₀.units[id]? = some u →
        u.subUnits[name]? = some k → v.subUnits[name]? = some k := by
  have hstart : (start setup root code previous).IsSound := isSound_start setup root code previous
  have hsound := (h.passes hstart).sound
  have hadvances := hstride.advances hsound
  obtain ⟨htree, hhanded⟩ := hadvances.tree (h.tree hstart (isTree_start hprevious))
  obtain ⟨e, he, rfl⟩ := List.mem_map.1 <|
    ((hadvances.passes hsound).finishes.all id v hv hfinished).resolve_left fun ⟨u, hu, hdone⟩ ↦
      nomatch (hbefore u hu).symm.trans hdone
  obtain ⟨v', hv', hin⟩ := hhanded e he
  obtain rfl := Option.some.inj (hv.symm.trans hv')
  have hsubs : e.2.subs = v.subReports.toList := by
    rw [hin.current]
    rfl
  have hentry (name : String) (s : Report) : (name, s) ∈ e.2.subs ↔
      v.subReports[name]? = some s := by
    rw [hsubs]
    exact Std.ExtTreeMap.mem_toList_iff_getElem?_eq_some
  refine ⟨hin.outcome, hin.waits, e.2, he, hin.report, ?_, fun name s ↦ ?_, fun name k hname ↦ ?_,
    fun k w hw hparent ↦ ?_, fun hs₀ hs₁ c₀ u name k h₀ h₁ hu hname ↦ ?_⟩
  · rw [hsubs, Std.ExtTreeMap.map_fst_toList_eq_keys]
    exact Std.ExtTreeMap.nodup_keys
  · exact (hentry name s).trans (htree.subReports_iff hv)
  · obtain ⟨-, heq, x, hx, hparent⟩ := htree.family.child (lives_of_unit hv) hname
    obtain ⟨w, hw, rfl⟩ := exists_of_lives hx
    have hmem := htree.filed.complete (lives_of_unit hv) hfinished name
      (Std.ExtTreeMap.mem_iff_isSome_getElem?.2 (Option.isSome_iff_exists.2 ⟨k, hname⟩))
    obtain ⟨s, hs⟩ := Option.isSome_iff_exists.1 (Std.ExtTreeMap.mem_iff_isSome_getElem?.1 hmem)
    obtain ⟨x, hid, hx', hreport⟩ := (htree.subReports_iff hv).1 hs
    obtain rfl := Option.some.inj (hname.symm.trans hid)
    obtain rfl := Option.some.inj (hw.symm.trans hx')
    refine ⟨heq, w, s, hw, ?_, ?_, hreport, (hentry name s).2 hs⟩
    · have hdone := (htree.family.sound hx).report
      rwa [show w.life.report = some s from hreport, Option.isSome_some] at hdone
    · rw [UnitNode.isRemoved]
      split
      · rename_i hkind
        exact nomatch (htree.family.removed hx hkind).symm.trans hparent
      · rfl
  · obtain ⟨u, name, hu, hname, -, -⟩ := htree.parent hw hparent
    obtain rfl := Option.some.inj (hv.symm.trans hu)
    exact ⟨name, hname⟩
  · obtain ⟨v', hv', hlater⟩ := (h₁.passes (h₀.passes hstart).sound).precedes e.1 u hu
    obtain rfl := Option.some.inj (hv.symm.trans hv')
    exact hlater.subUnits name k hname

end

private def stemId : UnitId := ⟨"stem"⟩

private def leafId : UnitId := stemId.child "leaf"

private def goneReport : Report :=
  .mk (stemId.child "gone") [] .empty .empty none [] [] none .initiallyStarted []

/-- A unit that had a sub-unit in the previous run, which it does not add again. -/
private def stemReport : Report :=
  .mk stemId [] .empty .empty none [("gone", goneReport)] [] none .initiallyStarted []

private def stemStart : Core Unit := start ⟨.nonIncremental, [], 1⟩ stemId () (some stemReport)

/-- The unit has been started. -/
private def stemBegun : Core Unit := (stemStart.atUnit stemId (.handle (.start []))).2

/-- It has added another sub-unit. -/
private def leafAdded : Core Unit :=
  (stemBegun.atUnit stemId (.act (.addSubUnit "leaf" (.checker ()) [] false))).2

/-- The sub-unit has been started. -/
private def leafBegun : Core Unit := (leafAdded.atUnit leafId (.handle (.start []))).2

private def leafKnown : Core Unit :=
  (leafBegun.atUnit stemId (.handle (.unitStarted leafId))).2

/-- The checker of the sub-unit has ended. -/
private def leafEnded : Core Unit :=
  (leafKnown.atUnit leafId (.checkerFinished (.ok .unit))).2

private def stemEnded : Core Unit :=
  (leafEnded.atUnit stemId (.checkerFinished (.ok .unit))).2

private theorem strides_leafEnded : ∃ hs, Strides IsPlainName stemStart hs leafEnded := by
  have hbegun : Stride IsPlainName stemStart _ stemBegun :=
    .did stemId (.handle (.start [])) fun _ _ ↦ trivial
  have hadded : Stride IsPlainName stemBegun _ leafAdded :=
    .did stemId (.act (.addSubUnit "leaf" (.checker ()) [] false)) fun u hu ↦
      ⟨by obtain rfl := Option.some.inj hu; rfl, by unfold IsPlainName; decide, nofun⟩
  have hleafBegun : Stride IsPlainName leafAdded _ leafBegun :=
    .did leafId (.handle (.start [])) fun _ _ ↦ trivial
  have hknown : Stride IsPlainName leafBegun _ leafKnown :=
    .did stemId (.handle (.unitStarted leafId)) fun _ _ ↦ trivial
  have hended : Stride IsPlainName leafKnown _ leafEnded :=
    .did leafId (.checkerFinished (.ok .unit)) fun _ _ ↦ trivial
  exact ⟨_, ((((Stride.strides hbegun).tail hadded).tail hleafBegun).tail hknown).tail hended⟩

/-- The unit reports on the sub-unit that it added, and not on the one that is gone. -/
theorem report_complete_leaf : ∃ v r, stemEnded.units[stemId]? = some v ∧
    v.report.get? = some r ∧ (∃ s, ("leaf", s) ∈ r.subs) ∧ (∀ s, ("gone", s) ∉ r.subs) ∧
    ∃ w, stemEnded.units[stemId.child "gone"]? = some w ∧ w.isRemoved = true := by
  have hgone : goneReport.IsPlain := ⟨List.forall_mem_nil _, List.forall_mem_nil _⟩
  have hplain : stemReport.IsPlain :=
    ⟨List.forall_mem_singleton.2 (by unfold IsPlainName; decide), List.forall_mem_singleton.2 hgone⟩
  have hstride : Stride IsPlainName leafEnded _ stemEnded :=
    .did stemId (.checkerFinished (.ok .unit)) fun _ _ ↦ trivial
  obtain ⟨v, hv, hfinished, hleaf, hfree⟩ : ∃ v, stemEnded.units[stemId]? = some v ∧
      v.finished = true ∧ v.subUnits["leaf"]? = some leafId ∧ v.subUnits["gone"]? = none :=
    ⟨_, rfl, rfl, rfl, rfl⟩
  obtain ⟨hs, hrun⟩ := strides_leafEnded
  obtain ⟨-, -, r, -, hreport, -, hentry, hsubs, -⟩ :=
    Strides.report_complete (fun r hr ↦ Option.some.inj hr ▸ hplain) hrun hstride hv hfinished
      fun u hu ↦ by
        obtain rfl := Option.some.inj hu
        rfl
  obtain ⟨-, w, s, -, -, -, -, hs⟩ := hsubs "leaf" leafId hleaf
  refine ⟨v, r, hv, hreport, ⟨s, hs⟩, fun s hs ↦ ?_, _, rfl, rfl⟩
  obtain ⟨w, hname, -⟩ := (hentry "gone" s).1 hs
  exact nomatch hfree.symm.trans hname

end Core

end ScopeGraphs
