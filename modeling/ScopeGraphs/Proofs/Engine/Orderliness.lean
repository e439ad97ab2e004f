import ScopeGraphs.Proofs.Engine.Posting
import ScopeGraphs.Proofs.Engine.Regularity
import ScopeGraphs.Proofs.Engine.StandIns

/-!
# Runs are orderly

An orderly course (`Occurrence.IsOrderly`) is one in which checkers act for units that have one, add
no stand-ins and give sub-units plain names, and in which nobody is told to run because it was
released or given up before it was started. This file shows that the courses of the engine are
orderly (`Engine.Reachable.leadsTo_orderly`), so that what is known of orderly courses is known of
runs. Checkers have to do their part, as scripts do (`Script.isOrderly_behaviour`), and the names
that units know in the end have to be plain.

## Giving up

What tasks and the engine do is orderly whenever it is done, except that a unit may be given up only
after it has been started. The engine gives units up when no message is left to be handled. Then no
unit waits for its start any more, since a start is sent with every unit that is added and never
lost (`Core.Course.isPrepared`).

## Names

Whether a name is plain is not decided by the engine, and whoever calls it may try any name. A
sub-unit under a name that is not plain is known under this name from then on, unless the call is
refused, and then nothing has happened. So names are judged at the end of a run
(`Core.Complies.course`).
-/

namespace ScopeGraphs

variable {γ α : Type}

/-! ## Orderly operations -/

namespace UnitOp

variable {op : UnitOp γ α}

theorem IsUrging.isOrderly (h : op.IsUrging) (u : UnitNode γ) : op.IsOrderly u := by
  cases op with
  | restart trace =>
    cases trace with
    | restarted => exact nofun
    | _ => exact h.elim
  | eagerStart | release | endLocalPhase | grantClosures => trivial
  | _ => exact h.elim

theorem IsUrging.not_isHandling (h : op.IsUrging) : ¬ op.IsHandling := by
  cases op with
  | handle m => exact h.elim
  | _ => exact not_false

theorem IsModest.isOrderly (h : op.IsModest) (u : UnitNode γ) : op.IsOrderly u := by
  cases op with
  | restart trace => exact h
  | act | begin | endQuery | checkerFinished | failStuck => exact h.elim
  | _ => trivial

theorem IsModest.not_isHandling (h : op.IsModest) : ¬ op.IsHandling := by
  cases op with
  | handle m => exact h.elim
  | _ => exact not_false

end UnitOp

namespace Core

variable {c c' c'' : Core γ} {id : UnitId} {u : UnitNode γ} {op : UnitOp γ α}

/-! ## No start is lost -/

/-- Units have sound lives, and each of them has been started or is going to be. -/
structure IsPrepared (c : Core γ) : Prop where
  housed : c.Housed
  sound : ∀ (id : UnitId) (u : UnitNode γ), c.units[id]? = some u → u.life.IsSound
  coming : c.StartsAll

namespace IsPrepared

theorem carryOut {mail : Mailboxes Message} (h : c.IsPrepared) (hu : c.units[id]? = some u)
    (hmail : ({ c with mail := mail } : Core γ).Housed)
    (hstart : ∀ (k : UnitId) (roots : List Scope), c.StartsWith k roots ↔
      (id = k ∧ op.roots? = some roots) ∨ Message.start roots ∈ mail.queue k)
    (hop : op.IsOrderly u) : (({ c with mail := mail } : Core γ).carryOut id u op).IsPrepared := by
  obtain rfl := h.housed.filed id u hu
  have hsound : u.life.IsSound := h.sound u.id u hu
  obtain ⟨js, hadds⟩ := op.exists_adds ⟨u, .none, c.setup.settings, c.channels, c.nextRequest⟩
  have hstarts := starts_carryOut hu rfl hmail hstart hsound hop hadds
  obtain ⟨y, hproceeds, hcomes⟩ := op.exists_proceeds hsound hop (N := IsPlainName)
    (.inl fun _ hname ↦ hname) c.setup.settings c.channels c.nextRequest
  refine ⟨hmail.carryOut hu op, fun k w hw ↦ ?_, hstarts.startsAll h.coming fun roots hroots ↦ ?_⟩
  · obtain ⟨rfl, rfl⟩ | ⟨-, hold⟩ | ⟨-, -, hmem, -⟩ := hstarts.carries.cases hw
    · exact hcomes.isSound (hproceeds.isSound hsound)
    · exact h.sound k w hold
    · exact (hproceeds.newborn w (hadds.newUnits ▸ hmem)).isSound
  · exact op.phase_run_of_roots? _ _ _ hroots

/-- Nothing happens to units, and no start to a unit that is there gets lost. -/
theorem of_units_eq (h : c.IsPrepared) (hhoused : c'.Housed) (hunits : c'.units = c.units)
    (hbox : ∀ id, c'.mail.box id = c.mail.box id) : c'.IsPrepared where
  housed := hhoused
  sound id u hu := h.sound id u (hunits ▸ hu)
  coming id u hu hcreated := by
    obtain ⟨roots, hroots⟩ := h.coming id u (hunits ▸ hu) hcreated
    refine ⟨roots, ?_⟩
    rw [StartsWith, Mailboxes.queue, h.housed.parked id u (hunits ▸ hu)] at hroots
    rw [StartsWith, Mailboxes.queue, hhoused.parked id u hu, hbox]
    exact hroots

/-- **One move.** -/
theorem move {o : Occurrence γ} (h : c.IsPrepared) (hmove : Move c o c') (ho : o.IsOrderly) :
    c'.IsPrepared := by
  cases hmove with
  | acted hu op hop =>
    exact h.carryOut hu h.housed (fun _ _ ↦ startsWith_iff_of_not_isHandling hop) ho
  | handled hu hmail =>
    exact h.carryOut hu (h.housed.takes hmail) (fun _ _ ↦ startsWith_iff_of_takes hmail) trivial
  | dropped hunits _ hmail =>
    exact h.of_units_eq (h.housed.dropped hunits hmail) hunits fun _ ↦ by rw [hmail]; rfl
  | other hunits _ hmail =>
    exact h.of_units_eq (h.housed.other hunits hmail) hunits fun _ ↦ by rw [hmail]

end IsPrepared

/-- **The whole course.** As long as what happens is orderly, whoever has been added has been started
or is going to be. -/
theorem Course.isPrepared {tr : List (Occurrence γ × Core γ)} (hcourse : Course c tr c')
    (h : c.IsPrepared) (horderly : ∀ o ∈ tr, o.1.IsOrderly) : c'.IsPrepared := by
  induction hcourse with
  | nil => exact h
  | cons hmove _ ih =>
    obtain ⟨ho, horderly⟩ := List.forall_mem_cons.1 horderly
    exact ih (h.move hmove ho) horderly

theorem LeadsTo.isPrepared (h : LeadsTo Occurrence.IsOrderly c c') (hc : c.IsPrepared) :
    c'.IsPrepared :=
  let ⟨_, hcourse, horderly⟩ := h
  hcourse.isPrepared hc horderly

theorem isPrepared_start (setup : Setup) (root : UnitId) (code : γ) (previous : Option Report) :
    (start setup root code previous).IsPrepared where
  housed := housed_start setup root code previous
  sound := (isSound_start setup root code previous).sound
  coming := startsAll_start setup root code

/-- When there is nothing left to do all units have been started. -/
theorem IsPrepared.phase_ne_created (h : c.IsPrepared) (hline : c.mail.InLine)
    (hidle : c.hasWork = false) (hu : c.units[id]? = some u) : u.phase ≠ .created := by
  refine h.coming.phase_ne_created h.housed (fun k ↦ ?_) hu
  rw [hasWork, Bool.or_eq_false_iff, Bool.not_eq_false'] at hidle
  have hrunnable : c.mail.runnable = [] := List.isEmpty_iff.1 hidle.1
  refine Classical.not_not.1 fun hbox ↦ ?_
  have hmem := (hline.runnable k).2 hbox
  rw [hrunnable] at hmem
  exact absurd hmem List.not_mem_nil

/-! ## What follows from an operation -/

theorem relays_leadsTo : Relays (LeadsTo (γ := γ) Occurrence.IsOrderly) where
  refl := .refl
  trans := .trans
  other hunits hsetup hmail _ := .of_move (.other hunits hsetup hmail) trivial
  received hu _ := .of_move (.acted hu _ not_false) trivial

/-- An orderly operation, with everything that follows from it. -/
theorem leadsTo_atUnit (hop : ¬ op.IsHandling)
    (horderly : ∀ u, c.units[id]? = some u → op.IsOrderly u) :
    LeadsTo Occurrence.IsOrderly c (c.atUnit id op).2 := by
  cases hu : c.units[id]? with
  | none =>
    rw [atUnit_of_none hu]
    exact .refl c
  | some u => exact relays_leadsTo.atUnit hu (.of_move (.acted hu op hop) (horderly u hu))

theorem leadsTo_deliverNext (h : c.Housed) : LeadsTo Occurrence.IsOrderly c c.deliverNext.2 := by
  rw [deliverNext]
  cases hnext : c.mail.next with
  | none => exact .refl c
  | some next =>
    obtain ⟨⟨id, m⟩, mail⟩ := next
    have htakes : c.mail.Takes id m mail := Mailboxes.takes_of_next hnext
    cases hu : c.units[id]? with
    | none =>
      have hbox : c.mail.box id = [] := h.box id hu
      exact absurd (htakes.box.symm.trans hbox) (List.cons_ne_nil _ _)
    | some u =>
      exact relays_leadsTo.atUnit (c := { c with mail := mail }) hu
        (.of_move (.handled hu htakes) trivial)

/-- What a checker does for a unit that has one is orderly, if no name that units know afterwards is
at odds with that. -/
theorem leadsTo_of_actsFor (hc : c.IsFit) (hop : op.ActsFor c.HasChecker id)
    (hN : (c.atUnit id op).2.NamesAre IsPlainName) :
    LeadsTo Occurrence.IsOrderly c (c.atUnit id op).2 := by
  have hkind (hchecker : c.HasChecker id) (u : UnitNode γ) (hu : c.units[id]? = some u) :
      u.kind.isChecker = true := by
    obtain ⟨v, hv, hkind⟩ := hchecker
    obtain rfl := Option.some.inj (hu.symm.trans hv)
    exact hkind
  cases op with
  | act a =>
    by_cases hregular : a.IsRegular IsPlainName
    · exact leadsTo_atUnit not_false fun u hu ↦ ⟨hkind hop.1 u hu, hregular⟩
    · cases a with
      | addSubUnit name kind roots changed =>
        obtain ⟨⟨u, hu, hchecker⟩, -, hreplays⟩ := hop
        have hid : u.id = id := hc.sound.filed id u hu
        by_cases hrefused : c.turnOf u (.act (.addSubUnit name kind roots changed)) =
            ⟨u, .none, c.setup.settings, c.channels, c.nextRequest⟩
        · rw [(atUnit_of_refused _ hu hid hrefused).1]
          exact .of_move (.other rfl rfl rfl) trivial
        · obtain ⟨v, hv, hname⟩ := names_of_addSubUnit hid hu hchecker hreplays hrefused
          exact absurd ⟨hN id v name _ hv hname, hreplays⟩ hregular
      | _ => exact absurd hop.2 hregular
  | begin | endQuery | checkerFinished =>
    exact leadsTo_atUnit not_false fun u hu ↦ hkind hop u hu
  | _ =>
    refine leadsTo_atUnit (UnitOp.IsModest.not_isHandling ?_) fun u _ ↦
      UnitOp.IsModest.isOrderly ?_ u <;> exact hop

/-- Units that have been started are given up in order. -/
theorem leadsTo_foldl_failStuck {ids : List UnitId} (hc : c.IsFit)
    (hids : ∀ id ∈ ids, ∃ u, c.units[id]? = some u ∧ u.phase ≠ .created) :
    LeadsTo Occurrence.IsOrderly c (ids.foldl (fun c id ↦ (c.atUnit id .failStuck).2) c) := by
  induction ids generalizing c with
  | nil => exact .refl c
  | cons id ids ih =>
    obtain ⟨⟨u, hu, hphase⟩, hids⟩ := List.forall_mem_cons.1 hids
    have hfailed : LeadsTo Occurrence.IsOrderly c (c.atUnit id .failStuck).2 := by
      refine leadsTo_atUnit not_false fun u' hu' ↦ ?_
      obtain rfl := Option.some.inj (hu.symm.trans hu')
      exact hphase
    have hfollows : Follows c (c.atUnit id .failStuck).2 := follows_atUnit id fun _ _ _ ↦ trivial
    obtain ⟨hfit, hs, hstrides⟩ := hfollows hc
    refine hfailed.trans (ih hfit fun k hk ↦ ?_)
    obtain ⟨w, hw, hstarted⟩ := hids k hk
    obtain ⟨w', hw', hlater⟩ := (hstrides.passes hc.sound).precedes k w hw
    exact ⟨w', hw', fun hcreated ↦ hstarted (hlater.phase.eq_created hcreated)⟩

/-- Who is given up is there. -/
theorem exists_of_mem_innermostUnfinished (hid : id ∈ c.innermostUnfinished) :
    ∃ u, c.units[id]? = some u := by
  obtain ⟨e, he, hid⟩ := List.mem_filterMap.1 hid
  split at hid
  · exact nomatch hid
  · obtain rfl := Option.some.inj hid
    exact ⟨e.2, Std.ExtTreeMap.mem_toList_iff_getElem?_eq_some.1 (List.mem_filter.1 he).1⟩

/-! ## What the engine does -/

/-- What follows in a state in which everything is as it should be is an orderly course, if the names
that units know afterwards are plain. -/
structure Complies (c c' : Core γ) : Prop where
  follows : Follows c c'
  records : c.Housed → c'.Housed ∧ ∀ es, History es c → ∃ es', History (es' ++ es) c'
  course : c.IsFit → c.IsPrepared → (∃ es, History es c) → c'.NamesAre IsPlainName →
    LeadsTo Occurrence.IsOrderly c c'

theorem Complies.trans (h : Complies c c') (h' : Complies c' c'') : Complies c c'' where
  follows := h.follows.trans h'.follows
  records := admits_history.trans h.records h'.records
  course hc hprepared hhistory hN := by
    obtain ⟨hfit, -⟩ := h.follows hc
    obtain ⟨-, hs, hstrides⟩ := h'.follows hfit
    obtain ⟨es, hes⟩ := hhistory
    obtain ⟨es', hes'⟩ := (h.records hprepared.housed).2 es hes
    have hthere := h.course hc hprepared ⟨es, hes⟩
      (hN.before (hstrides.passes hfit.sound).precedes)
    exact hthere.trans (h'.course hfit (hthere.isPrepared hprepared) ⟨_, hes'⟩ hN)

/-- What the engine does by itself complies. -/
theorem hosts_complies : Hosts (Complies (γ := γ)) where
  refl c := ⟨hosts_follows.refl c, admits_history.refl c, fun _ _ _ _ ↦ .refl c⟩
  trans := .trans
  other hunits hframe hmail hgraph htasks :=
    ⟨hosts_follows.other hunits hframe hmail hgraph htasks,
      admits_history.hosts.other hunits hframe hmail hgraph htasks,
      fun _ _ _ _ ↦ .of_move (.other hunits hframe.setup hmail) trivial⟩
  urged c id _ _ hop :=
    ⟨hosts_follows.urged c id hop, admits_history.hosts.urged c id hop,
      fun _ _ _ _ ↦ leadsTo_atUnit hop.not_isHandling fun u _ ↦ hop.isOrderly u⟩
  failed c hidle := by
    refine ⟨hosts_follows.failed c hidle, admits_history.hosts.failed c hidle,
      fun hc hprepared ⟨es, hes⟩ _ ↦ leadsTo_foldl_failStuck hc fun id hid ↦ ?_⟩
    obtain ⟨u, hu⟩ := exists_of_mem_innermostUnfinished hid
    exact ⟨u, hu, hprepared.phase_ne_created hes.delivers.inLine hidle hu⟩
  delivered c :=
    ⟨hosts_follows.delivered c, admits_history.hosts.delivered c,
      fun _ hprepared _ _ ↦ leadsTo_deliverNext hprepared.housed⟩
  dropped hunits hframe hmail hgraph htasks :=
    ⟨hosts_follows.dropped hunits hframe hmail hgraph htasks,
      admits_history.hosts.dropped hunits hframe hmail hgraph htasks,
      fun _ _ _ _ ↦ .of_move (.dropped hunits hframe.setup hmail) trivial⟩

theorem allows_complies : Allows (Complies (γ := γ)) where
  toHosts := hosts_complies
  follows := Complies.follows
  acts {c id _ _} hc hop :=
    ⟨follows_of_actsFor hop, admits_history.atUnit c id trivial,
      fun _ _ _ hN ↦ leadsTo_of_actsFor hc hop hN⟩
  resumed hchecker :=
    ⟨allows_follows.resumed hchecker, admits_history.other rfl rfl rfl rfl,
      fun _ _ _ _ ↦ .of_move (.other rfl rfl rfl) trivial⟩

end Core

open Core

/-- Checkers only do what is orderly, from the time on that they are run. -/
def Behaviour.IsOrderly (b : Behaviour γ) : Prop :=
  ∀ (unit : UnitId) (code : γ) (roots : List Scope) (c : Core γ), c.IsFit → c.HasChecker unit →
    (b.run unit code roots).Obeys Complies c

/-- **Scripts are orderly.** Whatever the script of a checker says, it only does what is orderly, as
long as the names that it gives are plain. -/
theorem Script.isOrderly_behaviour (setup : Setup) (programs : Script.Programs) :
    (Script.behaviour setup programs).IsOrderly :=
  fun _ program roots _ hc hchecker ↦ obeys_run setup programs allows_complies program roots hc hchecker

/-- **Runs are orderly.** An orderly course leads from the start of a run to every state between two
steps of the engine, if checkers only do what is orderly and the names that units know are plain. -/
theorem Engine.Reachable.leadsTo_orderly {b : Behaviour γ} {setup : Setup} {root : UnitId} {code : γ}
    {previous : Option Report} {e : Engine γ} (hb : b.IsOrderly)
    (he : e.Reachable b setup root code previous) (hN : e.core.NamesAre IsPlainName) :
    LeadsTo Occurrence.IsOrderly (Core.start setup root code previous) e.core := by
  have hfit := isFit_start setup root code previous
  obtain ⟨hcomplies, -⟩ := hosts_complies.reachable (allows_complies.runs hb hfit) he
  exact hcomplies.course hfit (isPrepared_start setup root code previous)
    ⟨_, history_start setup root code previous⟩ hN

/-- The same for the state that a run ends in. -/
theorem Engine.leadsTo_orderly_run {b : Behaviour γ} (hb : b.IsOrderly) (setup : Setup)
    (root : UnitId) (code : γ) (previous : Option Report)
    (hN : (run b setup root code previous).2.NamesAre IsPlainName) :
    LeadsTo Occurrence.IsOrderly (Core.start setup root code previous)
      (run b setup root code previous).2 := by
  obtain ⟨e, he, heq⟩ := exists_reachable_run b setup root code previous
  rw [← heq] at hN ⊢
  exact he.leadsTo_orderly hb hN

end ScopeGraphs
