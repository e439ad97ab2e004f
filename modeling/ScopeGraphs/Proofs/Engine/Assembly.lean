import Mathlib.Data.List.Induction
import Mathlib.Data.List.TakeWhile
import ScopeGraphs.Proofs.Engine.Rebuilding
import ScopeGraphs.Proofs.Fragments
import ScopeGraphs.Proofs.Units.Recording

/-!
# The fragments of a run partition its graph

Edges and data get into the fragment of a unit in many ways: its checker adds them, other units send
them, and the unit resumes them, replays them or takes them from a library. All of these ask first
who owns the scope, so a fragment never has an edge or a datum of a scope of another unit
(`UnitOp.isOwnedBy_run`).

For the whole graph that a report stands for it remains to be seen that no unit is in the tree of
reports twice. Ids are paths of names with slashes between them, and names may have slashes
themselves, but a unit is finished only when there is a report under each of the names of its
sub-units, and reports are filed under what follows the last slash of an id. So a unit with a
sub-unit whose name has a slash is never finished, and in trees that are reported ids tell units
apart (`Report.IsWhole`).
-/

namespace ScopeGraphs

variable {γ α : Type}

/-! ## Fragments of a report -/

namespace Report

mutual

/-- The fragments of the unit and of all units below it, with the units that own them. -/
def fragments : Report → List (UnitId × ScopeGraph)
  | mk id _ graph _ _ subs _ _ _ _ => (id, graph) :: subFragments subs

/-- The fragments in several trees. -/
def subFragments : List (String × Report) → List (UnitId × ScopeGraph)
  | [] => []
  | (_, r) :: rs => fragments r ++ subFragments rs

end

mutual

/-- The graph that a report stands for is put together from its fragments. -/
theorem merges_totalGraph (r : Report) : ScopeGraph.Merges r.fragments r.totalGraph := by
  obtain ⟨id, roots, graph, localGraph, result, subs, queries, snapshot, trace, failures⟩ := r
  exact merges_addSubGraphs (.one id graph) subs

theorem merges_addSubGraphs {fs : List (UnitId × ScopeGraph)} {g : ScopeGraph}
    (h : ScopeGraph.Merges fs g) (subs : List (String × Report)) :
    ScopeGraph.Merges (fs ++ subFragments subs) (addSubGraphs g subs) := by
  match subs with
  | [] => exact (List.append_nil fs).symm ▸ h
  | (_, r) :: rs =>
    rw [subFragments, ← List.append_assoc]
    exact merges_addSubGraphs (h.union (merges_totalGraph r)) rs

end

/-- The report of a unit with fragments that belong to its units, and with sub-units that are filed
under their names, which have no slashes. -/
inductive IsWhole : Report → Prop where
  | intro {r : Report} (owned : r.graph.IsOwnedBy r.id) (nodup : (r.subs.map Prod.fst).Nodup)
      (names : ∀ e ∈ r.subs, IsPlainName e.1 ∧ e.2.id = r.id.child e.1)
      (subs : ∀ e ∈ r.subs, e.2.IsWhole) : IsWhole r

end Report

namespace UnitId

variable {x : UnitId} {ns ms : List String}

/-- Different paths of names without slashes lead to different units. -/
theorem descend_inj (hns : ∀ n ∈ ns, IsPlainName n) (hms : ∀ m ∈ ms, IsPlainName m)
    (h : x.descend ns = x.descend ms) : ns = ms := by
  have hlong (ns : List String) (n : String) : x.descend (ns ++ [n]) ≠ x := fun heq ↦ by
    have hbelow (ns : List String) : x.text.length ≤ (x.descend ns).text.length := by
      induction ns using List.reverseRecOn with
      | nil => exact Nat.le_refl _
      | append_singleton ns n ih =>
        rw [descend_append]
        exact ih.trans ((x.descend ns).length_lt_child n).le
    have hlt := ((hbelow ns).trans_lt ((x.descend ns).length_lt_child n))
    rw [← descend_append, heq] at hlt
    exact Nat.lt_irrefl _ hlt
  induction ns using List.reverseRecOn generalizing ms with
  | nil =>
    cases ms using List.reverseRecOn with
    | nil => rfl
    | append_singleton ms m => exact absurd h.symm (hlong ms m)
  | append_singleton ns n ih =>
    cases ms using List.reverseRecOn with
    | nil => exact absurd h (hlong ns n)
    | append_singleton ms m =>
      rw [List.forall_mem_append] at hns hms
      rw [descend_append, descend_append] at h
      obtain ⟨habove, rfl⟩ := child_inj (hns.2 n (List.mem_singleton_self n))
        (hms.2 m (List.mem_singleton_self m)) h
      rw [ih hns.1 hms.1 habove]

/-- Reports are filed under names without slashes. -/
theorem isPlainName_localName (k : UnitId) : IsPlainName k.localName := by
  intro hmem
  rw [localName, String.toList_ofList, List.mem_reverse] at hmem
  exact absurd (List.mem_takeWhile_imp hmem) (by simp)

end UnitId

namespace Report

/-- The units with fragments are those on paths of names from the unit down. -/
def IsOnPath (x : UnitId) (names : List String) (k : UnitId) : Prop :=
  (∀ n ∈ names, IsPlainName n) ∧ k = x.descend names

mutual

/-- In a whole report there is one fragment for each unit, with what the unit owns. -/
theorem IsWhole.isPartition {r : Report} (h : r.IsWhole) : ScopeGraph.IsPartition r.fragments ∧
    ∀ f ∈ r.fragments, ∃ names, IsOnPath r.id names f.1 := by
  obtain ⟨id, roots, graph, localGraph, result, subs, queries, snapshot, trace, failures⟩ := r
  obtain ⟨howned, hnodup, hnames, hsubs⟩ := h
  obtain ⟨⟨hids, hsubsOwned⟩, hpaths⟩ := isPartition_subFragments id subs hnodup hnames hsubs
  refine ⟨⟨List.nodup_cons.2 ⟨fun hmem ↦ ?_, hids⟩, List.forall_mem_cons.2 ⟨howned, hsubsOwned⟩⟩,
    List.forall_mem_cons.2 ⟨⟨[], List.forall_mem_nil _, rfl⟩, fun f hf ↦ ?_⟩⟩
  · -- No unit is below itself.
    obtain ⟨f, hf, heq⟩ := List.mem_map.1 hmem
    obtain ⟨e, -, names, hplain, hpath⟩ := hpaths f hf
    exact nomatch UnitId.descend_inj (List.forall_mem_nil _) hplain (heq.symm.trans hpath)
  · obtain ⟨e, -, names, hpath⟩ := hpaths f hf
    exact ⟨e.1 :: names, hpath⟩

theorem isPartition_subFragments (x : UnitId) (subs : List (String × Report))
    (hnodup : (subs.map Prod.fst).Nodup)
    (hnames : ∀ e ∈ subs, IsPlainName e.1 ∧ e.2.id = x.child e.1)
    (hsubs : ∀ e ∈ subs, e.2.IsWhole) : ScopeGraph.IsPartition (subFragments subs) ∧
      ∀ f ∈ subFragments subs, ∃ e ∈ subs, ∃ names, IsOnPath x (e.1 :: names) f.1 := by
  match subs with
  | [] => exact ⟨⟨List.nodup_nil, List.forall_mem_nil _⟩, List.forall_mem_nil _⟩
  | (n, r) :: rs =>
    rw [List.map_cons, List.nodup_cons] at hnodup
    rw [List.forall_mem_cons] at hnames hsubs
    obtain ⟨⟨hids, howned⟩, hpaths⟩ := hsubs.1.isPartition
    obtain ⟨⟨hids', howned'⟩, hpaths'⟩ :=
      isPartition_subFragments x rs hnodup.2 hnames.2 hsubs.2
    have hfirst : ∀ f ∈ r.fragments, ∃ names, IsOnPath x (n :: names) f.1 := fun f hf ↦ by
      obtain ⟨names, hplain, hpath⟩ := hpaths f hf
      refine ⟨names, List.forall_mem_cons.2 ⟨hnames.1.1, hplain⟩, ?_⟩
      rw [hpath, hnames.1.2]
      rfl
    rw [subFragments]
    refine ⟨⟨?_, List.forall_mem_append.2 ⟨howned, howned'⟩⟩,
      List.forall_mem_append.2 ⟨fun f hf ↦ ?_, fun f hf ↦ ?_⟩⟩
    · rw [List.map_append]
      refine hids.append hids' fun k hk hk' ↦ hnodup.1 ?_
      obtain ⟨f, hf, rfl⟩ := List.mem_map.1 hk
      obtain ⟨f', hf', heq⟩ := List.mem_map.1 hk'
      obtain ⟨names, hplain, hpath⟩ := hfirst f hf
      obtain ⟨e, he, names', hplain', hpath'⟩ := hpaths' f' hf'
      have hsame := UnitId.descend_inj hplain hplain' (hpath.symm.trans (heq.symm.trans hpath'))
      exact List.mem_map.2 ⟨e, he, (List.cons.inj hsame).1.symm⟩
    · obtain ⟨names, hpath⟩ := hfirst f hf
      exact ⟨_, List.mem_cons_self, names, hpath⟩
    · obtain ⟨e, he, hpath⟩ := hpaths' f hf
      exact ⟨e, List.mem_cons_of_mem _ he, hpath⟩

end

end Report

/-! ## One go of a unit -/

namespace ScopeGraph

/-- What is kept of edges and data by their owners is owned. -/
theorem IsOwnedBy.extend {g : ScopeGraph} {id : UnitId} (h : g.IsOwnedBy id) (es : List Edge)
    (ds : List (Scope × Datum)) : (g.extend (es.filter fun e ↦ e.source.owner = id)
      (ds.filter fun e ↦ e.1.owner = id)).IsOwnedBy id where
  edges e he := by
    obtain hnew | hold := mem_edges_extend.1 he
    · exact of_decide_eq_true (List.mem_filter.1 hnew).2
    · exact h.edges e hold
  data s d hd := by
    rw [datum?_extend, SortedMap.getElem?_ofList_filter ds (fun s ↦ s.owner = id) s] at hd
    split at hd
    · rename_i hown
      exact of_decide_eq_true hown
    · exact h.data s d ((Option.none_or).symm.trans hd)

end ScopeGraph

namespace UnitOp

/-- **Fragments stay apart.** Whatever happens to a unit, nothing but edges and data of its own
scopes gets into its fragment. -/
theorem isOwnedBy_run (op : UnitOp γ α) (t : Turn γ) (h : t.unit.graph.IsOwnedBy t.unit.id) :
    (op.run t).2.unit.graph.IsOwnedBy t.unit.id := by
  obtain hmoves | ⟨e, heq⟩ := op.moves_or_receives t
  · obtain ⟨es, ds, hrecords⟩ := hmoves.exists_records
    exact hrecords.graph ▸ h.extend es ds
  · rw [heq, Turn.receiveEdge]
    split
    · rename_i hown
      exact h.addEdge (UnitNode.owns_iff.1 hown)
    · exact h

end UnitOp

namespace Life

variable {N : String → Prop} {x y : Life γ} {us : List (UnitNode γ)} {r : Report}

/-- The unit knows a sub-unit of an id. -/
def Knows (x : Life γ) (k : UnitId) : Prop := ∃ name, x.subUnits[name]? = some k ∧ k = x.id.child name

/-- The unit has filed whole reports of sub-units that it knows, under their local names. -/
def Files (x : Life γ) : Prop := ∀ (name : String) (s : Report), x.subReports[name]? = some s →
  name = s.id.localName ∧ s.IsWhole ∧ x.Knows s.id

theorem Knows.later {k : UnitId} (h : x.Knows k) (hprecedes : x.Precedes y) : y.Knows k := by
  obtain ⟨name, hname, hk⟩ := h
  exact ⟨name, hprecedes.subUnits name k hname, hprecedes.id.symm ▸ hk⟩

/-- A unit knows the sub-units that it adds. -/
theorem Leads.knows (h : Leads N x us y) :
    ∀ u ∈ us, ∀ p, u.parent = some p → y.Knows u.id := by
  induction h with
  | refl => exact List.forall_mem_nil _
  | tail h hstep ih =>
    refine List.forall_mem_append.2 ⟨fun u hu p hp ↦ (ih u hu p hp).later hstep.precedes, ?_⟩
    cases hstep with
    | join hopen hfree hid hparent hborn hprevious hname =>
      refine List.forall_mem_singleton.2 fun p hp ↦ ⟨_, ?_, hid⟩
      exact SortedMap.getElem?_insert_eq_some_iff.2 (.inl ⟨rfl, hid.symm⟩)
    | standIn => exact List.forall_mem_singleton.2 nofun
    | start | begin | run | hesitate | release | serve | conclude => exact List.forall_mem_nil _

namespace Files

theorem later (h : x.Files) (hprecedes : x.Precedes y) (hsame : y.subReports = x.subReports) :
    y.Files := by
  intro name s hs
  obtain ⟨hname, hwhole, hknows⟩ := h name s (hsame ▸ hs)
  exact ⟨hname, hwhole, hknows.later hprecedes⟩

theorem receive (h : x.Files) (hr : r.IsWhole) (hknows : x.Knows r.id) : (x.receive r).Files := by
  intro name s hs
  obtain ⟨rfl, rfl⟩ | ⟨-, hold⟩ := SortedMap.getElem?_insert_eq_some_iff.1 hs
  · exact ⟨rfl, hr, hknows⟩
  · exact h name s hold

end Files

end Life

/-- **What a unit reports is whole.** If there is a report under each of the names of its sub-units,
none of these names has a slash. -/
theorem UnitNode.isWhole_currentReport {v : UnitNode γ} (howned : v.graph.IsOwnedBy v.id)
    (hfiles : v.life.Files) (hcomplete : ∀ name, name ∈ v.subUnits → name ∈ v.subReports) :
    v.currentReport.IsWhole := by
  have hsubs (e : String × Report) (he : e ∈ v.currentReport.subs) :
      v.subReports[e.1]? = some e.2 :=
    Std.ExtTreeMap.mem_toList_iff_getElem?_eq_some.1 he
  refine .intro howned ?_ (fun e he ↦ ?_) fun e he ↦ (hfiles e.1 e.2 (hsubs e he)).2.1
  · change (v.subReports.toList.map Prod.fst).Nodup
    rw [Std.ExtTreeMap.map_fst_toList_eq_keys]
    exact Std.ExtTreeMap.nodup_keys
  · obtain ⟨hlocal, -, name, hname, hid⟩ := hfiles e.1 e.2 (hsubs e he)
    have hmem : name ∈ v.subReports := hcomplete name
      (Std.ExtTreeMap.mem_iff_isSome_getElem?.2 (Option.isSome_iff_exists.2 ⟨_, hname⟩))
    obtain ⟨s, hs⟩ := Option.isSome_iff_exists.1 (Std.ExtTreeMap.mem_iff_isSome_getElem?.1 hmem)
    have hplain : IsPlainName name := (hfiles name s hs).1 ▸ s.id.isPlainName_localName
    have hsame : e.1 = name := by rw [hlocal, hid, UnitId.localName_child _ hplain]
    exact hsame ▸ ⟨hplain, hid⟩

/-- A unit that comes to its end hands in a report that is whole. -/
theorem UnitNode.ComesTo.isWhole {v : UnitNode γ} {y : Life γ} {r : Report}
    (h : v.ComesTo y (some r)) (howned : v.graph.IsOwnedBy v.id) (hfiles : v.life.Files) :
    r.IsWhole := by
  obtain ⟨hcomplete, -, rfl, hlife⟩ := h.reported
  have hsubUnits : v.subUnits = y.subUnits := congrArg Life.subUnits hlife
  refine UnitNode.isWhole_currentReport howned hfiles fun name hname ↦ ?_
  rw [h.subReports]
  exact hcomplete.reported name (hsubUnits ▸ hname)

/-! ## Whole runs -/

namespace Core

variable {N : String → Prop} {c c' : Core γ} {id origin : UnitId} {u v w : UnitNode γ}
  {us : List (UnitNode γ)} {y : Life γ} {hs : List (UnitId × Report)}

/-- Fragments are apart, and all reports that there are are whole. -/
structure IsAssembled (c : Core γ) : Prop where
  sound : c.IsSound
  owned : ∀ (k : UnitId) (u : UnitNode γ), c.units[k]? = some u → u.graph.IsOwnedBy k
  files : ∀ (k : UnitId) (u : UnitNode γ), c.units[k]? = some u → u.life.Files
  known : ∀ (k p : UnitId) (w : UnitNode γ), c.units[k]? = some w → w.parent = some p →
    ∃ u, c.units[p]? = some u ∧ u.life.Knows k
  reported : ∀ (k : UnitId) (u : UnitNode γ) (r : Report), c.units[k]? = some u →
    u.report.get? = some r → r.IsWhole
  root : ∀ r, c.rootReport = some r → r.IsWhole

theorem IsAssembled.of_units_eq (h : c.IsAssembled) (hunits : c'.units = c.units)
    (hroot : ∀ r, c'.rootReport = some r → r.IsWhole) : c'.IsAssembled where
  sound := h.sound.of_units_eq hunits
  owned k u hu := h.owned k u (hunits ▸ hu)
  files k u hu := h.files k u (hunits ▸ hu)
  known k p w hw := hunits ▸ h.known k p w (hunits ▸ hw)
  reported k u r hu := h.reported k u r (hunits ▸ hu)
  root := hroot

theorem isAssembled_start (setup : Setup) (root : UnitId) (code : γ) (previous : Option Report) :
    (start setup root code previous).IsAssembled where
  sound := isSound_start setup root code previous
  owned k u hu := by
    obtain ⟨-, rfl⟩ := units_start_eq_some_iff.1 hu
    exact ScopeGraph.isOwnedBy_empty k
  files k u hu name s hs := by
    obtain ⟨-, rfl⟩ := units_start_eq_some_iff.1 hu
    exact nomatch (Std.ExtTreeMap.getElem?_empty (a := name)).symm.trans hs
  known k p w hw hp := by
    obtain ⟨-, rfl⟩ := units_start_eq_some_iff.1 hw
    exact nomatch hp
  reported k u r hu hr := by
    obtain ⟨-, rfl⟩ := units_start_eq_some_iff.1 hu
    exact nomatch hr
  root := nofun

/-- A unit goes on and may finish. If it does, its report is whole. -/
theorem Carries.assembled (h : Carries c id u v us c') (hc : c.IsAssembled)
    (hprecedes : u.life.Precedes y) (hsound : y.IsSound) (hreport : y.report = u.life.report)
    (hfiles : y.Files) {finished : Option Report} (hv : v.ComesTo y finished)
    (howned : v.graph.IsOwnedBy id) (hus : ∀ w ∈ us, w.life.IsNewborn ∧ w.graph = .empty ∧
      ∀ p, w.parent = some p → p = id ∧ y.Knows w.id) :
    c'.IsAssembled ∧ ∀ r, finished = some r → r.IsWhole ∧ r.id = id := by
  have hlater := hprecedes.trans hv.precedes
  have hid : v.id = id := hlater.id.trans (hc.sound.filed id u h.unit)
  have hfiles' : v.life.Files := hfiles.later hv.precedes hv.subReports
  have hwhole (r : Report) (hr : finished = some r) : r.IsWhole ∧ r.id = id := by
    subst hr
    obtain ⟨-, -, heq, -⟩ := hv.reported
    exact ⟨hv.isWhole (hid.symm ▸ howned) hfiles', heq ▸ hid⟩
  refine ⟨⟨?_, fun k w hw ↦ ?_, fun k w hw ↦ ?_, fun k p w hw hp ↦ ?_, fun k w r hw hr ↦ ?_, ?_⟩,
    hwhole⟩
  · exact h.isSound hc.sound (hv.isSound hsound) hlater fun w hw ↦
      ⟨(hus w hw).1, fun p hp ↦ ((hus w hw).2.2 p hp).1⟩
  · obtain ⟨rfl, rfl⟩ | ⟨-, hold⟩ | ⟨-, -, hnew, -⟩ := h.cases hw
    · exact howned
    · exact hc.owned k w hold
    · exact (hus w hnew).2.1 ▸ ScopeGraph.isOwnedBy_empty k
  · obtain ⟨-, rfl⟩ | ⟨-, hold⟩ | ⟨-, -, hnew, -⟩ := h.cases hw
    · exact hfiles'
    · exact hc.files k w hold
    · intro name s hs
      rw [(hus w hnew).1.subReports, Std.ExtTreeMap.getElem?_empty] at hs
      exact nomatch hs
  · -- What was known stays known.
    have hstays (hknown : ∃ z, c.units[p]? = some z ∧ z.life.Knows k) :
        ∃ z, c'.units[p]? = some z ∧ z.life.Knows k := by
      obtain ⟨z, hz, hknows⟩ := hknown
      obtain ⟨z', hz', hlater'⟩ := h.precedes hlater p z hz
      exact ⟨z', hz', hknows.later hlater'⟩
    obtain ⟨rfl, rfl⟩ | ⟨-, hold⟩ | ⟨-, -, hnew, rfl⟩ := h.cases hw
    · exact hstays (hc.known _ p u h.unit (hlater.parent.symm.trans hp))
    · exact hstays (hc.known k p w hold hp)
    · obtain ⟨rfl, hknows⟩ := (hus w hnew).2.2 p hp
      exact ⟨v, h.changed, hknows.later hv.precedes⟩
  · obtain ⟨rfl, rfl⟩ | ⟨-, hold⟩ | ⟨-, -, hnew, -⟩ := h.cases hw
    · obtain hbefore | hfinished := hv.report_cases hsound hr
      · exact hc.reported _ u r h.unit (hreport.symm.trans hbefore)
      · exact (hwhole r hfinished).1
    · exact hc.reported k w r hold hr
    · exact nomatch (hus w hnew).1.report.symm.trans hr
  · exact h.frame.rootReport ▸ hc.root

namespace IsAssembled

/-- An operation on a unit, without what follows from it. -/
theorem carryOut (hc : c.IsAssembled) (hu : c.units[id]? = some u) {op : UnitOp γ α}
    (hop : op.IsRegular N u) : (c.carryOut id u op).IsAssembled ∧
      ∀ r, (c.turn u op).2.1.finished = some r → r.IsWhole ∧ r.id = id := by
  have hid : u.id = id := hc.sound.filed id u hu
  have hsound := hc.sound.sound id u hu
  obtain ⟨y, hleads, hv⟩ := UnitOp.comesTo_run hsound hop c.setup.settings c.channels c.nextRequest
  have hleads : u.life.Leads N (c.turnOf u op).effects.newUnits y := hleads
  let t : Turn γ := ⟨u, .none, c.setup.settings, c.channels, c.nextRequest⟩
  have howned := op.isOwnedBy_run t (hid.symm ▸ hc.owned id u hu)
  obtain ⟨us, hus, hblank⟩ := op.exists_blank t
  have hus : (c.turnOf u op).effects.newUnits = us := hus
  refine (carries_carryOut hu hid op).assembled hc hleads.precedes (hleads.isSound hsound)
    hleads.remains.report ((hc.files id u hu).later hleads.precedes hleads.subReports) hv
    (hid ▸ howned) fun w hw ↦ ?_
  obtain ⟨hborn, hparent⟩ := hleads.newborn w hw
  exact ⟨hborn, (hblank w (hus ▸ hw)).graph, fun p hp ↦ ⟨(hparent p hp).trans hid, hleads.knows w hw p hp⟩⟩

/-- A unit is handed the report of a sub-unit. -/
theorem received (hc : c.IsAssembled) (hu : c.units[id]? = some u) {report : Report}
    (hr : report.IsWhole) (hknows : u.life.Knows report.id) :
    (c.carryOut id u (.subUnitFinished report)).IsAssembled ∧
      ∀ r, (c.turn u (.subUnitFinished report)).2.1.finished = some r → r.IsWhole ∧ r.id = id := by
  have hid : u.id = id := hc.sound.filed id u hu
  obtain ⟨hnew, -, hv⟩ :=
    UnitOp.comesTo_subUnitFinished u report c.setup.settings c.channels c.nextRequest
  have howned := (UnitOp.subUnitFinished (γ := γ) report).isOwnedBy_run
    ⟨u, .none, c.setup.settings, c.channels, c.nextRequest⟩ (hid.symm ▸ hc.owned id u hu)
  have hcarries := carries_carryOut hu hid (.subUnitFinished report)
  rw [show (c.turnOf u (.subUnitFinished report)).effects.newUnits = [] from hnew] at hcarries
  exact hcarries.assembled hc (u.life.precedes_receive report)
    ((hc.sound.sound id u hu).receive report) rfl ((hc.files id u hu).receive hr hknows) hv
    (hid ▸ howned) (List.forall_mem_nil _)

/-- Reports are handed on to units that know the sub-unit. -/
theorem handReport (hc : c.IsAssembled) {report : Report} (hr : report.IsWhole)
    (hid : report.id = origin) (n : Nat) : (c.handReport origin report n).2.IsAssembled := by
  induction n generalizing c origin report with
  | zero => exact hc
  | succ n ih =>
    rw [Core.handReport]
    split
    · dsimp only
      split
      · exact hc.of_units_eq rfl fun r heq ↦ Option.some.inj heq ▸ hr
      · exact hc
    · rename_i p hp
      obtain ⟨w, hw, hparent⟩ := Option.bind_eq_some_iff.1 hp
      obtain ⟨u, hu, hknows⟩ := hc.known origin p w hw hparent
      obtain ⟨hcarried, hwhole⟩ := hc.received hu hr (hid.symm ▸ hknows)
      rw [hu]
      dsimp only
      split
      · exact hcarried
      · rename_i report' hfinished
        obtain ⟨hr', hid'⟩ := hwhole report' hfinished
        exact ih hcarried hr' hid'

theorem spawnAll (hc : c.IsAssembled) (ts : List (Task γ)) : (ts.foldl spawn c).IsAssembled := by
  obtain ⟨hunits, hframe⟩ := units_spawnAll c ts
  exact hc.of_units_eq hunits (hframe.rootReport ▸ hc.root)

/-- An operation on a unit, with everything that follows from it. -/
theorem atUnit (hc : c.IsAssembled) {op : UnitOp γ α}
    (hop : ∀ u, c.units[id]? = some u → op.IsRegular N u) : (c.atUnit id op).2.IsAssembled := by
  cases hu : c.units[id]? with
  | none =>
    rw [atUnit_of_none hu]
    exact hc
  | some u =>
    obtain ⟨hcarried, hwhole⟩ := hc.carryOut hu (hop u hu)
    rw [Core.atUnit, hu]
    dsimp only
    split
    · exact hcarried.spawnAll _
    · rename_i report hfinished
      obtain ⟨hr, hid⟩ := hwhole report hfinished
      exact (hcarried.handReport hr hid _).spawnAll _

end IsAssembled

theorem Strides.assembled (h : Strides N c hs c') (hc : c.IsAssembled) : c'.IsAssembled := by
  induction h with
  | refl => exact hc
  | tail _ hstride ih =>
    cases hstride with
    | did id op hop => exact ih.atUnit hop
    | other hunits hframe => exact ih.of_units_eq hunits (hframe.rootReport ▸ ih.root)

/-- **Fragments partition the graph.** In every state of every run, the fragment of a unit has
nothing but edges and data of scopes of the unit. So the whole graph of a report, of the root or of
any other unit, is what its fragments make in any order. It has as many edges as they have together,
and a scope has in it the datum that it has in the fragment of its owner, or none if its owner has
no fragment. -/
theorem Strides.fragments_partition {setup : Setup} {root : UnitId} {code : γ}
    {previous : Option Report} (h : Strides N (start setup root code previous) hs c) :
    (∀ (id : UnitId) (u : UnitNode γ), c.units[id]? = some u →
      (∀ e ∈ u.graph.edges, e.source.owner = id) ∧
        ∀ s d, u.graph.datum? s = some d → s.owner = id) ∧
    ∀ r : Report, (c.rootReport = some r ∨
      ∃ (id : UnitId) (u : UnitNode γ), c.units[id]? = some u ∧ u.report.get? = some r) →
      (r.fragments.map Prod.fst).Nodup ∧
      (∀ g, ScopeGraph.Merges r.fragments g ↔ g = r.totalGraph) ∧
      r.totalGraph.edgeCount = (r.fragments.map fun f ↦ f.2.edgeCount).sum ∧
      (∀ f ∈ r.fragments, ∀ s : Scope, s.owner = f.1 →
        r.totalGraph.datum? s = f.2.datum? s) ∧
      ∀ s : Scope, s.owner ∉ r.fragments.map Prod.fst → r.totalGraph.datum? s = none := by
  have hc := h.assembled (isAssembled_start setup root code previous)
  refine ⟨fun id u hu ↦ ⟨(hc.owned id u hu).edges, (hc.owned id u hu).data⟩, fun r hr ↦ ?_⟩
  have hwhole : r.IsWhole := by
    obtain hroot | ⟨id, u, hu, hreport⟩ := hr
    · exact hc.root r hroot
    · exact hc.reported id u r hu hreport
  obtain ⟨hfs, -⟩ := hwhole.isPartition
  have htotal := r.merges_totalGraph
  refine ⟨hfs.nodup, fun g ↦ ⟨fun hg ↦ hg.unique hfs htotal, fun hg ↦ hg ▸ htotal⟩,
    htotal.edgeCount_eq hfs, fun f hf s hown ↦ htotal.datum?_eq hfs hf hown,
    fun s hs ↦ htotal.datum?_eq_none hfs hs⟩

private def trunkId : UnitId := ⟨"trunk"⟩

private def twigId : UnitId := trunkId.child "twig"

private def twigScope : Scope := ⟨twigId, "t-0"⟩

private def trunkStart : Core Unit := start ⟨.nonIncremental, ["E"], 0⟩ trunkId () none

private def trunkBegun : Core Unit := (trunkStart.atUnit trunkId (.handle (.start []))).2

/-- The unit has added a sub-unit. -/
private def twigAdded : Core Unit :=
  (trunkBegun.atUnit trunkId (.act (.addSubUnit "twig" (.checker ()) [] false))).2

private def twigBegun : Core Unit :=
  ((twigAdded.atUnit twigId (.handle (.start []))).2.atUnit trunkId
    (.handle (.unitStarted twigId))).2

/-- The sub-unit has created a scope. -/
private def twigGrown : Core Unit :=
  (twigBegun.atUnit twigId (.act (.freshScope "t" ["E"] true false))).2

private def twigMarked : Core Unit :=
  (twigGrown.atUnit twigId (.act (.setDatum twigScope (.int 1)))).2

private def twigBent : Core Unit :=
  (twigMarked.atUnit twigId (.act (.addEdge ⟨twigScope, "E", twigScope⟩))).2

/-- The scope has a datum and an edge, and is closed. -/
private def twigClosed : Core Unit := (twigBent.atUnit twigId (.act (.closeLabel twigScope "E"))).2

/-- Both checkers have ended. -/
private def trunkEnded : Core Unit :=
  ((twigClosed.atUnit twigId (.checkerFinished (.ok .unit))).2.atUnit trunkId
    (.checkerFinished (.ok .unit))).2

private theorem stride_act {c : Core Unit} {id : UnitId} {a : Action Unit α}
    (hkind : ((c.units[id]?).all fun u ↦ u.kind.isChecker) = true)
    (ha : a.IsRegular fun _ ↦ True) :
    Stride (fun _ ↦ True) c (c.handedOn id (.act a)) (c.atUnit id (.act a)).2 :=
  .did id (.act a) fun u hu ↦ ⟨by rwa [hu] at hkind, ha⟩

private theorem strides_trunkEnded : ∃ hs, Strides (fun _ ↦ True) trunkStart hs trunkEnded := by
  have hbegun : Stride (fun _ ↦ True) trunkStart _ trunkBegun :=
    .did trunkId (.handle (.start [])) fun _ _ ↦ trivial
  have hadded : Stride (fun _ ↦ True) trunkBegun _ twigAdded :=
    stride_act (by decide +kernel) ⟨trivial, nofun⟩
  have hstarted : Stride (fun _ ↦ True) twigAdded _ _ :=
    .did twigId (.handle (.start [])) fun _ _ ↦ trivial
  have hknown : Stride (fun _ ↦ True) _ _ twigBegun :=
    .did trunkId (.handle (.unitStarted twigId)) fun _ _ ↦ trivial
  have hgrown : Stride (fun _ ↦ True) twigBegun _ twigGrown :=
    stride_act (by decide +kernel) trivial
  have hmarked : Stride (fun _ ↦ True) twigGrown _ twigMarked :=
    stride_act (by decide +kernel) trivial
  have hbent : Stride (fun _ ↦ True) twigMarked _ twigBent :=
    stride_act (by decide +kernel) trivial
  have hclosed : Stride (fun _ ↦ True) twigBent _ twigClosed :=
    stride_act (by decide +kernel) trivial
  have htwig : Stride (fun _ ↦ True) twigClosed _ _ :=
    .did twigId (.checkerFinished (.ok .unit)) fun _ _ ↦ trivial
  have htrunk : Stride (fun _ ↦ True) _ _ trunkEnded :=
    .did trunkId (.checkerFinished (.ok .unit)) fun _ _ ↦ trivial
  have hbefore := (((hbegun.strides.tail hadded).tail hstarted).tail hknown).tail hgrown
  exact ⟨_, ((((hbefore.tail hmarked).tail hbent).tail hclosed).tail htwig).tail htrunk⟩

/-- The one edge and the one datum of the whole graph are those of the sub-unit. -/
theorem fragments_partition_twig : ∃ r f, trunkEnded.rootReport = some r ∧ f ∈ r.fragments ∧
    f.1 = twigId ∧ r.totalGraph.edgeCount = 1 ∧ f.2.edgeCount = 1 ∧
      r.totalGraph.datum? twigScope = some (.int 1) := by
  have hwhole : (trunkEnded.rootReport.map fun r ↦ r.fragments.map fun f ↦
      (f.1, f.2.edgeCount, f.2.datum? twigScope)) =
        some [(trunkId, 0, none), (twigId, 1, some (.int 1))] := by decide +kernel
  obtain ⟨r, hr, hfragments⟩ := Option.map_eq_some_iff.1 hwhole
  obtain ⟨hs, hrun⟩ := strides_trunkEnded
  obtain ⟨-, -, hcount, hdata, -⟩ := hrun.fragments_partition.2 r (.inl hr)
  obtain ⟨f, hf, heq⟩ : ∃ f ∈ r.fragments, (f.1, f.2.edgeCount, f.2.datum? twigScope) =
      (twigId, 1, some (.int 1)) :=
    List.mem_map.1 (hfragments ▸ List.mem_cons_of_mem _ List.mem_cons_self)
  obtain ⟨hid, hedges, hdatum⟩ : f.1 = twigId ∧ f.2.edgeCount = 1 ∧
      f.2.datum? twigScope = some (.int 1) := by simpa using heq
  have hsum : (r.fragments.map fun f ↦ f.2.edgeCount).sum = 1 := by
    have hcounts : r.fragments.map (fun f ↦ f.2.edgeCount) = [0, 1] := by
      simpa [Function.comp_def] using congrArg (List.map fun e ↦ e.2.1) hfragments
    rw [hcounts]
    rfl
  exact ⟨r, f, hr, hf, hid, hcount.trans hsum, hedges,
    (hdata f hf twigScope hid.symm).trans hdatum⟩

end Core

end ScopeGraphs
