import ScopeGraphs.Proofs.Engine.StandIns
import ScopeGraphs.Proofs.Mentions

/-!
# Replaying rebuilds everything

When all messages have been handled, whatever is below a unit that was released is as in its report
of the previous run, if its checker has added no sub-units in this run. Every path of names that
leads to a report leads to a unit, which has taken that report over, and there are no other units
(`Core.Course.repeats_previous`).

That there is a unit for every path is an induction on the path: a unit that has taken its report
over has sub-units for those in the report, these are stand-ins, and since no message is on its way
they have taken their own reports over in turn. That there are no others is an induction on the id,
from which the unit above can be told: it is on a path, so the stand-in is for a sub-unit in its
report.

## Orderly courses

A course is orderly if checkers act for their own units, if names of sub-units have no slashes and
if the engine gives up units only after they have been started. It gives them up when no message is
left, and by then all of them have been (`Core.Rebuilds.phase_ne_created`).
-/

namespace ScopeGraphs

variable {γ : Type}

/-! ## Paths of names -/

namespace UnitId

variable {k p x : UnitId} {name : String}

/-- The id of the unit at the end of a path of names. -/
def descend (x : UnitId) (names : List String) : UnitId := names.foldl child x

theorem descend_append (x : UnitId) (names : List String) (name : String) :
    x.descend (names ++ [name]) = (x.descend names).child name := List.foldl_concat ..

/-- The id of a unit below another one begins with the id of that one. -/
def IsBelow (k x : UnitId) : Prop := ∃ rest : String, k.text = x.text ++ "/" ++ rest

theorem IsBelow.length_lt (h : k.IsBelow x) : x.text.length < k.text.length := by
  obtain ⟨rest, hrest⟩ := h
  exact (x.length_lt_child rest).trans_eq (congrArg String.length hrest.symm)

/-- What is below a unit is a sub-unit of it, or a sub-unit of what is below it. -/
theorem IsBelow.of_child (hname : IsPlainName name) (h : (p.child name).IsBelow x) :
    p = x ∨ p.IsBelow x := by
  obtain ⟨rest, hrest⟩ := h
  have hlist : p.text.toList ++ '/' :: name.toList = x.text.toList ++ '/' :: rest.toList := by
    have hlists := congrArg String.toList hrest
    simpa [child, String.toList_append] using hlists
  obtain ⟨between, heq, hsplit⟩ | ⟨between, heq, hsplit⟩ := List.append_eq_append_iff.1 hlist
  · -- The slash behind the id above is not part of the name.
    cases between with
    | nil => exact .inl (congrArg mk (String.toList_inj.1 (by simpa using heq.symm)))
    | cons a as =>
      refine absurd ?_ hname
      rw [(List.cons.inj hsplit).2]
      exact List.mem_append_right _ List.mem_cons_self
  · cases between with
    | nil => exact .inl (congrArg mk (String.toList_inj.1 (by simpa using heq)))
    | cons a as =>
      obtain ⟨rfl, -⟩ := List.cons.inj hsplit
      refine .inr ⟨String.ofList as, String.toList_inj.1 ?_⟩
      simpa [String.toList_append] using heq

end UnitId

/-- A report further down on a path. -/
theorem Report.find?_append (r : Report) (names : List String) (name : String) :
    r.find? (names ++ [name]) = (r.find? names).bind (·.sub? name) := by
  induction names generalizing r with
  | nil => exact Option.bind_fun_some (r.sub? name)
  | cons n names ih =>
    rw [List.cons_append, find?, find?, Option.bind_assoc]
    exact congrArg _ (funext ih)

/-! ## Units that show what is in a report -/

/-- The unit shows what is in a report of the previous run, under a renaming. The result is renamed
as the unit renames it, and that is the same. -/
structure UnitNode.Repeats (w : UnitNode γ) (r : Report) (p : Renaming) : Prop where
  trace : w.trace = .released
  localGraph : w.localGraph = r.localGraph.rename p
  queries : w.queries = r.queries
  outcome : ∃ q, w.reuse = some q ∧ (∀ s, q.apply s = p.apply s) ∧
    w.outcome = some (r.result.map (Datum.rename q))

theorem UnitNode.Copies.repeats {w : UnitNode γ} {r : Report} {p q : Renaming} (h : w.Copies r q)
    (hq : ∀ s, q.apply s = p.apply s) : w.Repeats r p where
  trace := h.trace
  localGraph := h.localGraph.trans (ScopeGraph.rename_congr hq _)
  queries := h.queries
  outcome := ⟨q, h.reuse, hq, h.outcome⟩

namespace Core

variable {c c' : Core γ} {k p root x : UnitId} {u v w y : UnitNode γ} {r s : Report}
  {q : Renaming} {name : String}

namespace Rebuilds

/-! ## One level -/

section

variable (h : c.Rebuilds root x)

include h

/-- A sub-unit of a unit that has taken a report over stands in for one of its name, if no checker
adds sub-units. -/
theorem serves_child (hu : c.units[k]? = some u) (hr : u.Inherits r q)
    (hothers : k = x ∨ u.kind.isChecker = false) (hname : IsPlainName name)
    (hw : c.units[k.child name]? = some w) (hparent : w.parent = some k) :
    w.kind = .phantom true ∧ ∃ s, r.sub? name = some s ∧ c.Serves (k.child name) w s q := by
  have hkind : w.kind = .phantom true := h.others _ k w u hw hparent hu hothers
  obtain ⟨p, name', r', s, q', hstandsIn⟩ := h.standIns _ w hw hkind
  obtain rfl := Option.some.inj (hstandsIn.parent.symm.trans hparent)
  obtain ⟨y, hy, hr'⟩ := hstandsIn.above
  obtain rfl := Option.some.inj (hu.symm.trans hy)
  obtain rfl := Option.some.inj (hr'.previous.symm.trans hr.previous)
  obtain rfl := Option.some.inj (hr'.reuse.symm.trans hr.reuse)
  have hplain : r'.IsPlain := h.family.plain (lives_of_unit hu) hr.previous
  obtain ⟨-, rfl⟩ := UnitId.child_inj hname (hplain.sub? hstandsIn.sub).1 hstandsIn.id
  exact ⟨hkind, s, hstandsIn.sub, hstandsIn.serves⟩

/-- Whoever has the id of a sub-unit of such a unit is there for a sub-unit in the report. -/
theorem exists_sub (hu : c.units[k]? = some u) (hr : u.Inherits r q)
    (hothers : k = x ∨ u.kind.isChecker = false) (hname : IsPlainName name)
    (hw : c.units[k.child name]? = some w) (hroot : k.child name ≠ root) :
    ∃ s, r.sub? name = some s := by
  cases hparent : w.parent with
  | none =>
    obtain heq | ⟨p, y, name', s, hy, heq, previous, hprevious, hmem⟩ := h.orphans _ w hw hparent
    · exact absurd heq hroot
    · have hplain : previous.IsPlain := h.family.plain (lives_of_unit hy) hprevious
      obtain ⟨rfl, rfl⟩ := UnitId.child_inj hname (hplain.of_mem hmem).1 heq
      obtain rfl := Option.some.inj (hu.symm.trans hy)
      obtain rfl := Option.some.inj (hr.previous.symm.trans hprevious)
      refine Option.isSome_iff_exists.1 (List.lookup_isSome_iff.2 ⟨_, hmem, ?_⟩)
      exact beq_self_eq_true name
  | some p =>
    obtain ⟨z, name', hz, hsub⟩ := h.family.parent (lives_of_unit hw) hparent
    obtain ⟨hplain, heq, -⟩ := h.family.child hz hsub
    obtain ⟨rfl, rfl⟩ := UnitId.child_inj hname hplain heq
    obtain ⟨-, s, hs, -⟩ := h.serves_child hu hr hothers hname hw hparent
    exact ⟨s, hs⟩

end

/-! ## When all messages have been handled -/

section

variable (h : c.Rebuilds root x) (hdelivered : ∀ id, c.mail.box id = [])

include h hdelivered

/-- All units have been started, so those that are given up now are given up in order. -/
theorem phase_ne_created (hw : c.units[k]? = some w) : w.phase ≠ .created :=
  h.coming.phase_ne_created h.housed hdelivered hw

/-- A sub-unit that is in a report that has been taken over has taken its own report over. -/
theorem exists_copies_child (hu : c.units[k]? = some u) (hr : u.Inherits r q)
    (hothers : k = x ∨ u.kind.isChecker = false) (hs : r.sub? name = some s) :
    ∃ w q', c.units[k.child name]? = some w ∧ w.kind = .phantom true ∧
      (∀ a, q'.apply a = q.apply a) ∧ w.Copies s q' := by
  have hcontains := hr.subUnits name s hs
  rw [Std.ExtTreeMap.contains_eq_isSome_getElem?] at hcontains
  obtain ⟨j, hj⟩ := Option.isSome_iff_exists.1 hcontains
  obtain ⟨hplain, rfl, z, hz, hparent⟩ := h.family.child (lives_of_unit hu) hj
  obtain ⟨w, hw, rfl⟩ := exists_of_lives hz
  obtain ⟨hkind, s', hs', hserves⟩ := h.serves_child hu hr hothers hplain hw hparent
  obtain rfl := Option.some.inj (hs'.symm.trans hs)
  obtain ⟨hstandsBy, -⟩ | ⟨q', hq', hcopies⟩ := hserves
  · exact absurd hstandsBy.phase (h.phase_ne_created hdelivered hw)
  · exact ⟨w, q', hw, hkind, hq', hcopies⟩

/-- **Every path leads to a unit.** The unit at the end of a path of names has taken over the report
at the end of the path. -/
theorem exists_copies_descend (names : List String) (hnames : names ≠ [])
    (hu : c.units[k]? = some u) (hr : u.Inherits r q)
    (hothers : k = x ∨ u.kind.isChecker = false) (hs : r.find? names = some s) :
    ∃ w q', c.units[k.descend names]? = some w ∧ w.kind = .phantom true ∧
      (∀ a, q'.apply a = q.apply a) ∧ w.Copies s q' := by
  induction names generalizing k u r q with
  | nil => exact absurd rfl hnames
  | cons name names ih =>
    obtain ⟨r', hr', hs⟩ := Option.bind_eq_some_iff.1 hs
    obtain ⟨w, q', hw, hkind, hq', hcopies⟩ := h.exists_copies_child hdelivered hu hr hothers hr'
    by_cases hend : names = []
    · subst hend
      obtain rfl := Option.some.inj hs
      exact ⟨w, q', hw, hkind, hq', hcopies⟩
    · obtain ⟨w', q'', hw', hkind', hq'', hcopies'⟩ := ih hend hw hcopies.toInherits
        (.inr (congrArg UnitKind.isChecker hkind)) hs
      exact ⟨w', q'', hw', hkind', fun a ↦ (hq'' a).trans (hq' a), hcopies'⟩

/-- **Every unit is on a path.** Whoever is below a unit that has taken a report over is at the end
of a path of names that leads to a report. -/
theorem exists_descend (hu : c.units[x]? = some u) (hr : u.Inherits r q)
    (hw : c.units[k]? = some w) (hbelow : k.IsBelow x) :
    ∃ names s, names ≠ [] ∧ r.find? names = some s ∧ k = x.descend names := by
  obtain ⟨n, hn⟩ : ∃ n, k.text.length < n := ⟨_, Nat.lt_succ_self _⟩
  induction n generalizing k w with
  | zero => exact absurd hn (Nat.not_lt_zero _)
  | succ n ih =>
    have hlong : root.text.length ≤ x.text.length := h.family.long (lives_of_unit hu)
    have hroot : k ≠ root := by
      rintro rfl
      exact absurd hbelow.length_lt (Nat.not_lt.2 hlong)
    obtain ⟨p, z, name, hz, hname, rfl⟩ := (h.family.origin (lives_of_unit hw)).resolve_left hroot
    obtain ⟨y, hy, -⟩ := exists_of_lives hz
    obtain rfl | habove := hbelow.of_child hname
    · obtain ⟨s, hs⟩ := h.exists_sub hu hr (.inl rfl) hname hw hroot
      exact ⟨[name], s, List.cons_ne_nil _ _, Option.bind_eq_some_iff.2 ⟨s, hs, rfl⟩, rfl⟩
    · have hshorter : p.text.length < n := by
        have hchild := p.length_lt_child name
        omega
      obtain ⟨names, s, hnames, hs, rfl⟩ := ih hy habove hshorter
      obtain ⟨y', q', hy', hkind, -, hcopies⟩ :=
        h.exists_copies_descend hdelivered names hnames hu hr (.inl rfl) hs
      obtain ⟨s', hs'⟩ := h.exists_sub hy' hcopies.toInherits
        (.inr (congrArg UnitKind.isChecker hkind)) hname hw hroot
      refine ⟨names ++ [name], s', List.append_ne_nil_of_right_ne_nil _ (List.cons_ne_nil _ _), ?_,
        (x.descend_append names name).symm⟩
      rw [Report.find?_append, hs]
      exact hs'

end

/-! ## Units that have been released -/

/-- A unit that has taken a report over keeps it. -/
theorem exists_inherits (h : c.Rebuilds root x) {o : Occurrence γ} (hmove : Move c o c')
    (ho : o.IsOrderly) (hk : ∃ y, c.units[k]? = some y ∧ y.Inherits r q) :
    ∃ y, c'.units[k]? = some y ∧ y.Inherits r q := by
  have hcarried {mail : Mailboxes Message} {id : UnitId} {u : UnitNode γ} {α : Type}
      (hu : c.units[id]? = some u) (op : UnitOp γ α) (hop : op.IsOrderly u) :
      ∃ y, (({ c with mail := mail } : Core γ).carryOut id u op).units[k]? = some y ∧
        y.Inherits r q := by
    obtain ⟨y, hy, hr⟩ := hk
    have hcarries :=
      carries_carryOut (c := { c with mail := mail }) hu (h.housed.filed id u hu) op
    by_cases heq : id = k
    · subst heq
      obtain rfl := Option.some.inj (hu.symm.trans hy)
      have hsound : u.life.IsSound := h.family.sound (lives_of_unit hu)
      exact ⟨_, hcarries.changed, op.inherits_run _ _ _ hr hsound hop⟩
    · exact ⟨y, hcarries.kept heq hy, hr⟩
  cases hmove with
  | acted hu op _ => exact hcarried hu op ho
  | handled hu _ => exact hcarried hu (.handle _) trivial
  | dropped hunits | other hunits => exact hunits ▸ hk

/-- A unit that is released takes its report over. -/
theorem exists_inherits_release (h : c.Rebuilds root x) (hmove : Move c (.acted u (.release q)) c')
    (hphase : u.phase = .undecided) (hprevious : u.previous = some r) :
    ∃ y, c'.units[u.id]? = some y ∧ y.Inherits r q := by
  cases hmove with
  | acted hu _ _ =>
    obtain rfl := h.housed.filed _ u hu
    have hsound : u.life.IsSound := h.family.sound (lives_of_unit hu)
    obtain ⟨-, -, -, hinherits⟩ := Turn.exists_adds_release
      (t := ⟨u, .none, c.setup.settings, c.channels, c.nextRequest⟩) hsound hphase hprevious q
    exact ⟨_, (carries_carryOut hu rfl (.release q)).changed, hinherits⟩

end Rebuilds

section

variable {tr : List (Occurrence γ × Core γ)}

/-- A unit that is released in a run has taken its report over in the end. -/
theorem Course.exists_inherits (hcourse : Course c tr c') (h : c.Rebuilds root x)
    (horderly : ∀ o ∈ tr, o.1.IsOrderly) (hadds : ∀ o ∈ tr, ¬ o.1.AddsSubUnit x)
    (hu : (∃ y, c.units[u.id]? = some y ∧ y.Inherits r q) ∨
      ∃ c₁, (.acted u (.release q), c₁) ∈ tr ∧ u.phase = .undecided ∧ u.previous = some r) :
    ∃ y, c'.units[u.id]? = some y ∧ y.Inherits r q := by
  induction hcourse with
  | nil => exact hu.resolve_right fun ⟨_, hmem, _⟩ ↦ List.not_mem_nil hmem
  | cons hmove _ ih =>
    obtain ⟨ho, horderly⟩ := List.forall_mem_cons.1 horderly
    obtain ⟨hx, hadds⟩ := List.forall_mem_cons.1 hadds
    refine ih (h.move hmove ho hx) horderly hadds ?_
    obtain hinherits | ⟨c₁, hmem, hphase, hprevious⟩ := hu
    · exact .inl (h.exists_inherits hmove ho hinherits)
    · obtain heq | hmem := List.mem_cons.1 hmem
      · obtain ⟨rfl, rfl⟩ := Prod.mk.inj heq
        exact .inl (h.exists_inherits_release hmove hphase hprevious)
      · exact .inr ⟨c₁, hmem, hphase, hprevious⟩

/-- **Replaying rebuilds everything.** In every orderly course of a run, if a unit is released and
its checker adds no sub-units, then once all messages have been handled there is exactly one unit
for every path of names that leads from the previous report of the released unit to another one. It
was released, too, and has the local graph of that report, renamed as the released unit renames, its
queries and its result, renamed as the unit itself renames. There are no other units below the
released one. -/
theorem Course.repeats_previous {setup : Setup} {root : UnitId} {code : γ}
    {previous : Option Report} (hprevious : ∀ r, previous = some r → r.IsPlain)
    (hcourse : Course (start setup root code previous) tr c)
    (horderly : ∀ o ∈ tr, o.1.IsOrderly) {u : UnitNode γ} {p : Renaming} {c₁ : Core γ}
    {r : Report} (hreleased : (.acted u (.release p), c₁) ∈ tr) (hphase : u.phase = .undecided)
    (hr : u.previous = some r) (hadds : ∀ o ∈ tr, ¬ o.1.AddsSubUnit u.id)
    (hdelivered : ∀ id, c.mail.box id = []) :
    (∀ (names : List String) (s : Report), names ≠ [] → r.find? names = some s →
      ∃ w, c.units[u.id.descend names]? = some w ∧ w.Repeats s p ∧
        ∀ (k : UnitId) (w' : UnitNode γ), c.units[k]? = some w' → w'.id = u.id.descend names →
          k = u.id.descend names) ∧
    ∀ (k : UnitId) (w : UnitNode γ), c.units[k]? = some w → k.IsBelow u.id →
      ∃ names s, names ≠ [] ∧ r.find? names = some s ∧ k = u.id.descend names := by
  have hstart := rebuilds_start setup root code hprevious u.id
  have hrebuilds : c.Rebuilds root u.id := hcourse.rebuilds hstart horderly hadds
  obtain ⟨v, hv, hinherits⟩ := hcourse.exists_inherits hstart horderly hadds
    (.inr ⟨c₁, hreleased, hphase, hr⟩)
  constructor
  · intro names s hnames hs
    obtain ⟨w, q, hw, -, hq, hcopies⟩ :=
      hrebuilds.exists_copies_descend hdelivered names hnames hv hinherits (.inl rfl) hs
    refine ⟨w, hw, hcopies.repeats hq, fun k w' hw' hid ↦ ?_⟩
    exact (hrebuilds.housed.filed k w' hw').symm.trans hid
  · exact fun k w hw hbelow ↦ hrebuilds.exists_descend hdelivered hv hinherits hw hbelow

end

/-! ### A tree of three units -/

private def topId : UnitId := ⟨"main"⟩

private def midId : UnitId := topId.child "mid"

private def lowId : UnitId := midId.child "low"

private def handedDown : Scope := ⟨topId, "s-0"⟩

/-- The scope of before has another number now. -/
private def renumbered : Renaming := Renaming.identity.put handedDown ⟨topId, "s-1"⟩

/-- The unit at the bottom had a scope of its own, whose datum was the scope that it was handed. -/
private def lowReport : Report :=
  .mk lowId [handedDown] .empty (.of [] [(⟨lowId, "d-0"⟩, .scope handedDown)])
    (some (.scope handedDown)) [] [] none .initiallyStarted []

private def midReport : Report :=
  .mk midId [handedDown] .empty .empty (some .unit) [("low", lowReport)] [] none
    .initiallyStarted []

private def topReport : Report :=
  .mk topId [] .empty .empty (some .unit) [("mid", midReport)] [] none .initiallyStarted []

/-- The next run begins. -/
private def nextRun : Core Unit :=
  start ⟨.withReuse .trivial, ["E"], 0⟩ topId () (some topReport)

/-- The unit at the top awaits the decision about reuse. -/
private def awaiting : Core Unit := nextRun.receives.acts topId .askForReuse

private def topReleased : Core Unit :=
  awaiting.carryOut topId (awaiting.resident topId) (.release renumbered)

/-- All messages have been handled. -/
private def rebuilt : Core Unit :=
  topReleased.receives.receives.receives.receives.receives.receives.receives

/-- Nothing happens but what the theorem is about. -/
private abbrev Permitted (o : Occurrence Unit) : Prop := o.IsOrderly ∧ ¬ o.AddsSubUnit topId

private theorem leadsTo_awaiting : LeadsTo Permitted nextRun awaiting := by
  have hstarted : LeadsTo Permitted nextRun nextRun.receives :=
    (LeadsTo.refl nextRun).receives (by rfl) (by decide +kernel) ⟨trivial, not_false⟩
  refine hstarted.acts topId .askForReuse (by decide +kernel) ⟨?_, fun hadds ↦ hadds.2⟩
  exact ⟨by decide +kernel, trivial⟩

private theorem leadsTo_rebuilt : LeadsTo Permitted topReleased rebuilt := by
  have hreceives {c : Core Unit} (h : LeadsTo Permitted topReleased c)
      (hc : c.mail.next.isSome = true ∧ c.units.contains c.delivery.1.1 = true) :
      LeadsTo Permitted topReleased c.receives := h.receives hc.1 hc.2 ⟨trivial, not_false⟩
  have hmid := hreceives (hreceives (.refl topReleased) (by decide +kernel)) (by decide +kernel)
  have hlow := hreceives (hreceives hmid (by decide +kernel)) (by decide +kernel)
  have htop := hreceives (hreceives hlow (by decide +kernel)) (by decide +kernel)
  exact hreceives htop (by decide +kernel)

private theorem box_rebuilt (id : UnitId) : rebuilt.mail.box id = [] :=
  Mailboxes.box_eq_nil (by decide +kernel) id

private theorem isPlain_topReport : topReport.IsPlain := by
  have hlow : lowReport.IsPlain := ⟨List.forall_mem_nil _, List.forall_mem_nil _⟩
  have hmid : midReport.IsPlain :=
    ⟨List.forall_mem_singleton.2 (by unfold IsPlainName; decide), List.forall_mem_singleton.2 hlow⟩
  exact
    ⟨List.forall_mem_singleton.2 (by unfold IsPlainName; decide), List.forall_mem_singleton.2 hmid⟩

/-- The unit at the bottom, two levels below the one that was released, is rebuilt. Its result is
the scope under its new number. -/
theorem Course.repeats_previous_low : ∃ w, rebuilt.units[lowId]? = some w ∧
    w.Repeats lowReport renumbered ∧ w.outcome = some (some (.scope ⟨topId, "s-1"⟩)) := by
  obtain ⟨tr, hcourse, htr⟩ := leadsTo_awaiting
  obtain ⟨tr', hcourse', htr'⟩ := leadsTo_rebuilt
  let o : Occurrence Unit := .acted (awaiting.resident topId) (.release renumbered)
  have htop : awaiting.units[topId]? = some (awaiting.resident topId) :=
    resident_eq (by decide +kernel)
  have hid : (awaiting.resident topId).id = topId := by decide +kernel
  have hrun : Course nextRun (tr ++ (o, topReleased) :: tr') rebuilt :=
    hcourse.append (.cons (.acted htop (.release renumbered) not_false) hcourse')
  have hpermitted : ∀ x ∈ tr ++ (o, topReleased) :: tr', Permitted x.1 :=
    List.forall_mem_append.2 ⟨htr, List.forall_mem_cons.2 ⟨⟨trivial, fun hadds ↦ hadds.2⟩, htr'⟩⟩
  obtain ⟨hrepeats, -⟩ := Course.repeats_previous
    (fun r hr ↦ Option.some.inj hr ▸ isPlain_topReport) hrun (fun x hx ↦ (hpermitted x hx).1)
    (r := topReport) (List.mem_append_right _ List.mem_cons_self) (by decide +kernel) (by rfl)
    (fun x hx ↦ hid.symm ▸ (hpermitted x hx).2) box_rebuilt
  obtain ⟨w, hw, hlow, -⟩ := hrepeats ["mid", "low"] lowReport (List.cons_ne_nil _ _) (by rfl)
  rw [hid] at hw
  obtain ⟨q, -, hq, houtcome⟩ := hlow.outcome
  have hscope : q.apply handedDown = ⟨topId, "s-1"⟩ := (hq _).trans (by decide +kernel)
  exact ⟨w, hw, hlow, houtcome.trans (congrArg (fun s ↦ some (some (Datum.scope s))) hscope)⟩

end Core

end ScopeGraphs
