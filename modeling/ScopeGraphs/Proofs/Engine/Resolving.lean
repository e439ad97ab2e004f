import ScopeGraphs.Proofs.Engine.Settling
import ScopeGraphs.Proofs.Renamings
import ScopeGraphs.Proofs.Units.Clearing
import ScopeGraphs.Proofs.Wait.Clusters

/-!
# Resolving a cluster settles it

A cluster is resolved in one of two ways. If some of its members are undecided, these are told what to
do, one after the other: to reuse their previous results, all of them under the one renaming that the
members agree on (`Stance.AgreeOn`), or else to run. None of them has a result yet, so none finishes, and
everybody else is left alone (`Core.Decides`). If no member is undecided, the members close by force, and
any of them may finish on the way, and units above it in turn. That takes no tokens or delays from
others and changes no graphs (`Core.Shuts`), so what each member gives up is what it held before the
first one was closed, and the numbers of these add up.

Both are shown for any list of distinct units, so they also hold of a cluster that was detected together
with others which have been resolved first.
-/

namespace ScopeGraphs

variable {γ α : Type}

/-! ## What members agree on -/

/-- Nobody runs, and the renaming pairs exactly what the renamings of those who reuse pair. -/
structure Stance.AgreeOn (stances : List Stance) (p : Renaming) : Prop where
  idle : Stance.running ∉ stances
  pairs : ∀ {a b}, p.get? a = some b ↔ ∃ q, Stance.reusing q ∈ stances ∧ q.get? a = some b

namespace Core

variable {stances : List Stance} {p q r : Renaming}

theorem commonRenaming_concat (stances : List Stance) (s : Stance) :
    commonRenaming (stances ++ [s]) = (commonRenaming stances).bind fun p ↦
      match s with
      | .running => none
      | .reusing q => p.merge? q
      | .willing => some p := by
  rw [commonRenaming, List.foldl_append]
  rfl

theorem agreeOn_of_commonRenaming (h : commonRenaming stances = some p) :
    Stance.AgreeOn stances p := by
  induction stances using List.reverseRecOn generalizing p with
  | nil =>
    obtain rfl : Renaming.identity = p := Option.some.inj h
    exact ⟨List.not_mem_nil, by simp [Renaming.get?, Renaming.identity]⟩
  | append_singleton stances s ih =>
    rw [commonRenaming_concat] at h
    obtain ⟨m, hm, h⟩ := Option.bind_eq_some_iff.1 h
    obtain ⟨hidle, hpairs⟩ := ih hm
    cases s with
    | running => exact absurd h (Option.some_ne_none p).symm
    | willing =>
      obtain rfl := Option.some.inj h
      exact ⟨by simpa using hidle, fun {a b} ↦ by simpa using hpairs⟩
    | reusing q =>
      refine ⟨by simpa using hidle, fun {a b} ↦ ?_⟩
      rw [Renaming.get?_of_merge? h, hpairs]
      simp [or_and_right, exists_or]

/-- Members that reuse parts of one renaming have one in common. -/
theorem exists_commonRenaming (hidle : Stance.running ∉ stances)
    (hle : ∀ q, Stance.reusing q ∈ stances → q ≤ r) :
    ∃ p, commonRenaming stances = some p ∧ p ≤ r := by
  induction stances using List.reverseRecOn with
  | nil => exact ⟨.identity, rfl, r.identity_le⟩
  | append_singleton stances s ih =>
    obtain ⟨p, hp, hpr⟩ := ih (fun h ↦ hidle (List.mem_append_left _ h))
      fun q hq ↦ hle q (List.mem_append_left _ hq)
    rw [commonRenaming_concat, hp, Option.bind_some]
    cases s with
    | running => exact absurd List.mem_concat_self hidle
    | willing => exact ⟨p, rfl, hpr⟩
    | reusing q => exact Renaming.merge?_of_le hpr (hle q List.mem_concat_self)

/-- The engine finds the renaming that members agree on, if there is one. -/
theorem commonRenaming_eq_some_iff : commonRenaming stances = some p ↔ Stance.AgreeOn stances p := by
  refine ⟨agreeOn_of_commonRenaming, fun h ↦ ?_⟩
  obtain ⟨m, hm, hle⟩ := exists_commonRenaming h.idle fun q hq _ _ hab ↦ h.pairs.2 ⟨q, hq, hab⟩
  obtain rfl : m = p := Renaming.le_antisymm hle fun hab ↦
    (agreeOn_of_commonRenaming hm).pairs.2 (h.pairs.1 hab)
  exact hm

/-! ## Bags on the way -/

variable {N : String → Prop} {c c' c'' : Core γ} {hs : List (UnitId × Report)} {id : UnitId}
  {u v : UnitNode γ} {ids us vs : List UnitId}

/-- The state is sound, and no unit lists a token that is not there. -/
structure IsProper (c : Core γ) : Prop where
  sound : c.IsSound
  waits : ∀ (id : UnitId) (u : UnitNode γ), c.units[id]? = some u → u.waits.IsProper

theorem isProper_start (setup : Setup) (root : UnitId) (code : γ) (previous : Option Report) :
    (start setup root code previous).IsProper where
  sound := isSound_start setup root code previous
  waits id u hu := by
    obtain ⟨-, rfl⟩ := units_start_eq_some_iff.1 hu
    exact TokenBag.isProper_empty

theorem IsProper.of_units_eq (h : c.IsProper) (hunits : c'.units = c.units) : c'.IsProper :=
  ⟨h.sound.of_units_eq hunits, fun id u hu ↦ h.waits id u (hunits ▸ hu)⟩

theorem Stride.isProper (h : Stride N c hs c') (hc : c.IsProper) : c'.IsProper := by
  refine ⟨((h.advances hc.sound).passes hc.sound).sound, ?_⟩
  cases h with
  | other hunits => exact (hc.of_units_eq hunits).waits
  | did id op hop =>
    cases hu : c.units[id]? with
    | none => rw [atUnit_of_none hu]; exact hc.waits
    | some u =>
      have hcarries := carries_carryOut hu (hc.sound.filed id u hu) op
      have hwanes := wanes_atUnit hc.sound.filed hu op
      intro k w hw
      cases hv : (c.carryOut id u op).units[k]? with
      | none => exact nomatch hw.symm.trans (hwanes.eq_none hv)
      | some v =>
        obtain ⟨w', hw', hvw⟩ := hwanes.exists_of_unit hv
        obtain rfl := Option.some.inj (hw'.symm.trans hw)
        rw [hvw.waits]
        obtain ⟨-, rfl⟩ | ⟨-, hold⟩ | ⟨-, -, hmem, -⟩ := hcarries.cases hv
        · exact op.isProper_run (hc.waits id u hu)
        · exact hc.waits k v hold
        · -- Units that are added wait for nothing.
          obtain ⟨us, hus, hempty⟩ :=
            (op.reports ⟨u, .none, c.setup.settings, c.channels, c.nextRequest⟩).newUnits
          rw [hempty v (by rwa [turnOf, hus] at hmem)]
          exact TokenBag.isProper_empty

theorem Strides.isProper (h : Strides N c hs c') (hc : c.IsProper) : c'.IsProper := by
  induction h with
  | refl => exact hc
  | tail _ hstride ih => exact hstride.isProper ih

/-! ## Undecided members -/

/-- Some units have gone on in a certain way, everybody else is as before, and units that have been
added are not started yet. -/
structure Decides (q : UnitNode γ → Prop) (c : Core γ) (ids : List UnitId) (c' : Core γ) : Prop where
  sound : c'.IsSound
  decided : ∀ id ∈ ids, ∃ v, c'.units[id]? = some v ∧ q v
  kept : ∀ (id : UnitId) (u : UnitNode γ), c.units[id]? = some u → id ∉ ids →
    c'.units[id]? = some u
  added : ∀ (id : UnitId) (v : UnitNode γ), c.units[id]? = none → c'.units[id]? = some v →
    v.phase = .created

namespace Decides

variable {q : UnitNode γ → Prop}

theorem refl (hc : c.IsSound) : Decides q c [] c :=
  ⟨hc, List.forall_mem_nil _, fun _ _ hu _ ↦ hu, fun _ _ hnone hv ↦ nomatch hnone.symm.trans hv⟩

theorem other (h : Decides q c ids c') (hunits : c''.units = c'.units) : Decides q c ids c'' :=
  ⟨h.sound.of_units_eq hunits, hunits ▸ h.decided, hunits ▸ h.kept, hunits ▸ h.added⟩

/-- One unit after the other. -/
theorem cons (h : Decides q c [id] c') (h' : Decides q c' ids c'') (hid : id ∉ ids)
    (hids : ∀ k ∈ ids, ∃ u, c.units[k]? = some u) : Decides q c (id :: ids) c'' where
  sound := h'.sound
  decided := by
    refine List.forall_mem_cons.2 ⟨?_, h'.decided⟩
    obtain ⟨v, hv, hq⟩ := h.decided id List.mem_cons_self
    exact ⟨v, h'.kept id v hv hid, hq⟩
  kept k u hu hk := by
    rw [List.mem_cons, not_or] at hk
    exact h'.kept k u (h.kept k u hu (by simpa using hk.1)) hk.2
  added k v hnone hv := by
    cases hw : c'.units[k]? with
    | none => exact h'.added k v hw hv
    | some w =>
      have hk : k ∉ ids := fun hmem ↦
        let ⟨u, hu⟩ := hids k hmem
        nomatch hnone.symm.trans hu
      obtain rfl := Option.some.inj ((h'.kept k w hw hk).symm.trans hv)
      exact h.added k w hnone hw

/-- A unit that does not finish as it goes on leaves everybody else alone. -/
theorem atUnit (hc : c.IsSound) (hu : c.units[id]? = some u) {op : UnitOp γ α}
    (hop : op.IsRegular N u) (hfinished : (c.turnOf u op).effects.finished = none)
    (hq : q (c.turnOf u op).unit) : Decides q c [id] (c.atUnit id op).2 := by
  have hadvances : Advances N c _ (c.atUnit id op).2 := advances_atUnit hc id fun x hx ↦ by
    obtain rfl := Option.some.inj (hu.symm.trans hx)
    exact hop
  have hcarries : Carries c id u (c.turnOf u op).unit (c.turnOf u op).effects.newUnits
      (c.atUnit id op).2 := by
    have hnone : (c.turn u op).2.1.finished = none := hfinished
    rw [Core.atUnit, hu]
    dsimp only
    rw [hnone]
    obtain ⟨hunits, hframe⟩ := units_spawnAll (c.carryOut id u op) (c.turn u op).2.1.tasks
    exact (carries_carryOut hu (hc.filed id u hu) op).other hunits hframe
  refine ⟨(hadvances.passes hc).sound, List.forall_mem_singleton.2 ⟨_, hcarries.changed, hq⟩,
    fun k w hw hk ↦ ?_, fun k v hnone hv ↦ (hadvances.newborn hc hv hnone).phase⟩
  exact hcarries.kept (fun heq ↦ hk (List.mem_singleton.2 heq.symm)) hw

end Decides

end Core

namespace UnitNode

/-- The unit reuses its previous result under a renaming, and its trace says so. -/
structure Reuses (p : Renaming) (u : UnitNode γ) : Prop where
  phase : u.phase = .released
  trace : u.trace = .released
  reuse : u.reuse = some p

/-- The unit runs because its cluster was resolved. -/
structure Reruns (u : UnitNode γ) : Prop where
  phase : u.phase = .active
  trace : u.trace = .restarted

end UnitNode

namespace Core

variable {N : String → Prop} {c c' c'' : Core γ} {hs : List (UnitId × Report)} {id : UnitId}
  {u v : UnitNode γ} {ids us vs : List UnitId}

/-- A unit that is there and undecided about reuse. -/
def IsUndecided (c : Core γ) (id : UnitId) : Prop :=
  ∃ u, c.units[id]? = some u ∧ u.phase = .undecided

/-- What one unit is told concerns no other undecided one. -/
theorem Decides.isUndecided {q : UnitNode γ → Prop} (h : Decides q c [id] c')
    (hids : ∀ k ∈ ids, c.IsUndecided k) (hid : id ∉ ids) : ∀ k ∈ ids, c'.IsUndecided k := by
  intro k hk
  obtain ⟨u, hu, hphase⟩ := hids k hk
  refine ⟨u, h.kept k u hu fun hmem ↦ hid ?_, hphase⟩
  rwa [← List.mem_singleton.1 hmem]

/-- Undecided units are told something one after the other. What is told to one of them reaches all of
them, if the rest of the list is gone through in the state in which it leaves the others. -/
theorem decides_each {q : UnitNode γ → Prop} {f : Core γ → List UnitId → Nat × Core γ}
    (hnil : ∀ c, f c [] = (0, c))
    (hcons : ∀ (c : Core γ) (id : UnitId) (ids : List UnitId), c.IsSound → c.IsUndecided id →
      ∃ c', Decides q c [id] c' ∧ f c (id :: ids) = ((f c' ids).1 + 1, (f c' ids).2))
    (hc : c.IsSound) (hnodup : ids.Nodup) (hids : ∀ id ∈ ids, c.IsUndecided id) :
    (f c ids).1 = ids.length ∧ Decides q c ids (f c ids).2 := by
  induction ids generalizing c with
  | nil =>
    rw [hnil]
    exact ⟨rfl, .refl hc⟩
  | cons id ids ih =>
    obtain ⟨hnew, hnodup⟩ := List.nodup_cons.1 hnodup
    obtain ⟨hid, hids⟩ := List.forall_mem_cons.1 hids
    obtain ⟨c', htold, heq⟩ := hcons c id ids hc hid
    obtain ⟨hcount, hrest⟩ := ih htold.sound hnodup (htold.isUndecided hids hnew)
    rw [heq]
    refine ⟨congrArg (· + 1) hcount, htold.cons hrest hnew fun k hk ↦ ?_⟩
    exact (hids k hk).imp fun _ h ↦ h.1

/-- All undecided units of a list are told to reuse their previous results. -/
theorem decides_releaseAll (hc : c.IsSound) (p : Renaming) (hnodup : ids.Nodup)
    (hids : ∀ id ∈ ids, c.IsUndecided id) :
    (c.releaseAll p ids).1 = ids.length ∧
      Decides (UnitNode.Reuses p) c ids (c.releaseAll p ids).2 := by
  refine decides_each (fun _ ↦ rfl) (fun c id ids hc ⟨u, hu, hphase⟩ ↦ ?_) hc hnodup hids
  have hsound := hc.sound id u hu
  have hprevious : u.previous.isSome = true := hsound.previous hphase
  let t : Turn γ := ⟨u, .none, c.setup.settings, c.channels, c.nextRequest⟩
  obtain ⟨hreleased, htrace, hreuse, hfinished⟩ := t.released_release hsound hphase p
  have hdecides : Decides (UnitNode.Reuses p) c [id] (c.atUnit id (.release p)).2 :=
    .atUnit (N := fun _ ↦ True) hc hu trivial hfinished ⟨hreleased, htrace, hreuse⟩
  have hanswer : (c.atUnit id (.release p)).1 = .ok true :=
    (fst_atUnit hu _).trans (by simp [UnitOp.run, Turn.canRelease, hphase, hprevious])
  rw [releaseAll]
  split
  · rename_i c₁ heq
    rw [heq] at hdecides
    exact ⟨{ c₁ with detector := c₁.detector.countRelease }, hdecides.other rfl, rfl⟩
  · rename_i hnot heq
    rw [heq] at hanswer
    exact (hnot hanswer).elim

/-- All undecided units of a list are told to run. -/
theorem decides_restartAll (hc : c.IsSound) (hnodup : ids.Nodup)
    (hids : ∀ id ∈ ids, c.IsUndecided id) :
    (c.restartAll ids).1 = ids.length ∧ Decides UnitNode.Reruns c ids (c.restartAll ids).2 := by
  refine decides_each (fun _ ↦ rfl) (fun c id ids hc ⟨u, hu, hphase⟩ ↦ ?_) hc hnodup hids
  have hsound := hc.sound id u hu
  let t : Turn γ := ⟨u, .none, c.setup.settings, c.channels, c.nextRequest⟩
  have htold : Trace.restarted ≠ .released := nofun
  obtain ⟨hactive, htrace, hfinished⟩ := t.restarted_restart hsound hphase htold
  have hdecides : Decides UnitNode.Reruns c [id] (c.atUnit id (.restart .restarted)).2 :=
    .atUnit (N := fun _ ↦ True) hc hu htold hfinished ⟨hactive, htrace⟩
  have hanswer : (c.atUnit id (.restart .restarted)).1 = .ok true :=
    (fst_atUnit hu _).trans (by simp [UnitOp.run, Turn.canRestart, hphase])
  rw [restartAll]
  split
  · rename_i c₁ heq
    rw [heq] at hdecides
    exact ⟨{ c₁ with detector := c₁.detector.countRestart }, hdecides.other rfl, rfl⟩
  · rename_i hnot heq
    rw [heq] at hanswer
    exact (hnot hanswer).elim

/-! ## Members that close by force -/

/-- Nobody's graphs have changed, and nobody is waiting for the slots of some units any longer. -/
def Shuts (c : Core γ) (us : List UnitId) (c' : Core γ) : Prop :=
  ∀ id, Option.Rel
    (fun u v ↦ u.SameGraphs v ∧ v.delays = if id ∈ us then [] else u.delays)
    c.units[id]? c'.units[id]?

namespace Shuts

theorem of_wanes (h : c.Wanes c') : c.Shuts [] c' := fun id ↦
  UnitNode.rel_mono (fun {u v} huv ↦ ⟨⟨huv.graph, huv.localGraph⟩, by simpa using huv.delays⟩) (h id)

theorem trans (h : c.Shuts us c') (h' : c'.Shuts vs c'') : c.Shuts (us ++ vs) c'' := by
  intro id
  refine UnitNode.rel_trans (fun {u v w} huv hvw ↦ ⟨?_, ?_⟩) (h id) (h' id)
  · exact ⟨hvw.1.1.trans huv.1.1, hvw.1.2.trans huv.1.2⟩
  · rw [hvw.2, huv.2]
    by_cases hvs : id ∈ vs <;> simp [hvs]

end Shuts

theorem shuts_grantClosures (hc : c.IsProper) (id : UnitId) :
    c.Shuts [id] (c.atUnit id .grantClosures).2 := by
  cases hu : c.units[id]? with
  | none =>
    rw [atUnit_of_none hu]
    intro k
    cases hk : c.units[k]? with
    | none => exact .none
    | some w =>
      refine .some ⟨⟨rfl, rfl⟩, (if_neg fun hmem ↦ ?_).symm⟩
      rw [List.mem_singleton.1 hmem, hu] at hk
      exact nomatch hk
  | some u =>
    let t : Turn γ := ⟨u, .none, c.setup.settings, c.channels, c.nextRequest⟩
    have hcarries := carries_carryOut hu (hc.sound.filed id u hu) .grantClosures
    rw [show (c.turnOf u .grantClosures).effects.newUnits = [] from t.newUnits_grantClosures]
      at hcarries
    have hcarried : c.Shuts [id] (c.carryOut id u .grantClosures) := by
      intro k
      rw [hcarries.units, List.find?_nil, Option.or_none]
      by_cases heq : id = k
      · subst heq
        rw [if_pos rfl, hu]
        exact .some ⟨t.sameGraphs_grantClosures, (t.delays_grantClosures (hc.waits id u hu)).trans
          (if_pos (List.mem_singleton_self _)).symm⟩
      · rw [if_neg heq]
        cases c.units[k]? with
        | none => exact .none
        | some w =>
          exact .some ⟨⟨rfl, rfl⟩, (if_neg fun hmem ↦ heq (List.mem_singleton.1 hmem).symm).symm⟩
    -- Reports that are handed on close nothing.
    exact hcarried.trans (.of_wanes (wanes_atUnit hc.sound.filed hu .grantClosures))

theorem isProper_grantClosures (hc : c.IsProper) (id : UnitId) :
    (c.atUnit id .grantClosures).2.IsProper := by
  have hstride : Stride (fun _ ↦ True) c _ (c.atUnit id .grantClosures).2 :=
    .did id .grantClosures fun _ _ ↦ trivial
  exact hstride.isProper hc

theorem shuts_grantAllClosures (hc : c.IsProper) (us : List UnitId) :
    c.Shuts us (c.grantAllClosures us).2 := by
  induction us generalizing c with
  | nil => exact .of_wanes (.of_units_eq rfl)
  | cons id us ih => exact (shuts_grantClosures hc id).trans (ih (isProper_grantClosures hc id))

/-- Units that are closed one after the other give up what they held before the first was closed, since
none of them takes anything from the others. -/
theorem fst_grantAllClosures (hc : c.IsSound) (hnodup : us.Nodup) :
    (c.grantAllClosures us).1 = (us.map (c.share Turn.closureCount)).sum := by
  induction us generalizing c with
  | nil => rfl
  | cons id us ih =>
    obtain ⟨hnew, hnodup⟩ := List.nodup_cons.1 hnodup
    have hgranted : ((c.atUnit id .grantClosures).1.toOption.getD 0) =
        c.share Turn.closureCount id := by
      cases hu : c.units[id]? with
      | none =>
        rw [atUnit_of_none hu, share, hu]
        rfl
      | some u =>
        rw [fst_atUnit hu, share, hu]
        rfl
    have hothers : us.map ((c.atUnit id .grantClosures).2.share Turn.closureCount) =
        us.map (c.share Turn.closureCount) := by
      refine List.map_congr_left fun k hk ↦ ?_
      have hkept := closes_atUnit hc.filed id k
      rw [share, share]
      generalize c.units[k]? = o at hkept
      generalize (c.atUnit id .grantClosures).2.units[k]? = o' at hkept
      cases hkept with
      | none => rfl
      | some huv =>
        have hkeeps := huv.1 fun hmem ↦ hnew (List.mem_singleton.1 hmem ▸ hk)
        rw [Option.elim_some, Option.elim_some, Turn.closureCount, Turn.closureCount, hkeeps.waits,
          hkeeps.shared]
    have hsound := (resolves_grantClosures hc id).sound
    rw [grantAllClosures, List.map_cons, List.sum_cons]
    dsimp only
    rw [hgranted, ih hsound hnodup, hothers]

/-! ## Clusters -/

/-- The units of a cluster, as far as they are there. -/
def members (c : Core γ) (cluster : List UnitId) : List (UnitNode γ) :=
  cluster.filterMap fun id ↦ c.units[id]?

section

variable {cluster : List UnitId}

theorem mem_members (hc : c.Filed) : u ∈ c.members cluster ↔
    u.id ∈ cluster ∧ c.units[u.id]? = some u := by
  rw [members, List.mem_filterMap]
  constructor
  · rintro ⟨id, hid, hu⟩
    obtain rfl := hc id u hu
    exact ⟨hid, hu⟩
  · rintro ⟨hid, hu⟩
    exact ⟨u.id, hid, hu⟩

/-- Units are filed under their ids, so the ids of the members are those of the cluster again. -/
theorem mem_ids_members (hc : c.Filed) (hu : c.units[id]? = some u) :
    id ∈ (c.members cluster).map UnitNode.id ↔ id ∈ cluster := by
  obtain rfl := hc id u hu
  rw [List.mem_map]
  constructor
  · rintro ⟨w, hw, heq⟩
    exact heq ▸ ((mem_members hc).1 hw).1
  · exact fun hid ↦ ⟨u, (mem_members hc).2 ⟨hid, hu⟩, rfl⟩

theorem map_share_members (hc : c.Filed) (f : UnitNode γ → Nat) :
    ((c.members cluster).map UnitNode.id).map (c.share f) = (c.members cluster).map f := by
  rw [List.map_map]
  refine List.map_congr_left fun u hu ↦ ?_
  rw [Function.comp_apply, share, ((mem_members hc).1 hu).2, Option.elim_some]

theorem nodup_members (hc : c.Filed) (hcluster : cluster.Nodup) :
    ((c.members cluster).map UnitNode.id).Nodup := by
  have hsublist : ((c.members cluster).map UnitNode.id).Sublist cluster := by
    rw [members]
    clear hcluster
    induction cluster with
    | nil => exact .slnil
    | cons id cluster ih =>
      rw [List.filterMap_cons]
      split
      · exact ih.cons id
      · rename_i u hu
        rw [List.map_cons, hc id u hu]
        exact ih.cons_cons id
  exact hsublist.nodup hcluster

/-- The members of a cluster that are undecided. -/
def undecided (c : Core γ) (cluster : List UnitId) : List UnitId :=
  ((c.members cluster).filter fun u ↦ u.phase = .undecided).map UnitNode.id

theorem mem_undecided (hc : c.Filed) : id ∈ c.undecided cluster ↔
    id ∈ cluster ∧ c.IsUndecided id := by
  simp only [undecided, List.mem_map, List.mem_filter, mem_members hc, decide_eq_true_eq]
  constructor
  · rintro ⟨u, ⟨⟨hid, hu⟩, hphase⟩, rfl⟩
    exact ⟨hid, u, hu, hphase⟩
  · rintro ⟨hid, u, hu, hphase⟩
    obtain rfl := hc id u hu
    exact ⟨u, ⟨⟨hid, hu⟩, hphase⟩, rfl⟩

theorem nodup_undecided (hc : c.Filed) (hcluster : cluster.Nodup) :
    (c.undecided cluster).Nodup :=
  (nodup_members hc hcluster).sublist (List.filter_sublist.map UnitNode.id)

/-- How a cluster is resolved: its undecided members are released under the renaming that the members
agree on, or they are made to run because there is none, or there are none of them. -/
theorem resolveCluster_cases (c : Core γ) (cluster : List UnitId) :
    (c.undecided cluster = [] ∧
      c.resolveCluster cluster = ((c.grantAllClosures ((c.members cluster).map UnitNode.id)).1,
        let granted := c.grantAllClosures ((c.members cluster).map UnitNode.id)
        { granted.2 with detector := granted.2.detector.countGrants granted.1 })) ∨
    (c.undecided cluster ≠ [] ∧
      ∃ p, commonRenaming ((c.members cluster).map UnitNode.stance) = some p ∧
        c.resolveCluster cluster = c.releaseAll p (c.undecided cluster)) ∨
    (c.undecided cluster ≠ [] ∧
      commonRenaming ((c.members cluster).map UnitNode.stance) = none ∧
        c.resolveCluster cluster = c.restartAll (c.undecided cluster)) := by
  rw [resolveCluster]
  dsimp only
  rw [← members, ← undecided]
  split
  · rename_i hsingle
    simp only [Bool.and_eq_true, decide_eq_true_eq] at hsingle
    obtain ⟨⟨hone, hundecided⟩, -⟩ := hsingle
    have hsome : c.undecided cluster ≠ [] := fun hnil ↦ by simp [hnil] at hundecided
    -- A single undecided member would reuse its result as it is.
    obtain ⟨u, hu⟩ := List.length_eq_one_iff.1 hone
    have hphase : u.phase = .undecided := by
      by_contra hphase
      exact hsome (by simp [undecided, hu, hphase])
    refine .inr (.inl ⟨hsome, .identity, ?_, rfl⟩)
    simp [hu, UnitNode.stance, hphase, commonRenaming]
  · split
    · rename_i hnone
      exact .inl ⟨List.isEmpty_iff.1 hnone, rfl⟩
    · rename_i hsome
      have hsome : c.undecided cluster ≠ [] := fun hnil ↦ hsome (List.isEmpty_iff.2 hnil)
      split
      · rename_i p hp
        exact .inr (.inl ⟨hsome, p, hp, rfl⟩)
      · rename_i hp
        exact .inr (.inr ⟨hsome, hp, rfl⟩)

theorem undecided_eq_nil_iff (hc : c.Filed) :
    c.undecided cluster = [] ↔ ∀ id ∈ cluster, ¬ c.IsUndecided id := by
  simp only [List.eq_nil_iff_forall_not_mem, mem_undecided hc, not_and]

/-- A cluster with undecided members is resolved by a common decision about these. -/
theorem decides_resolveCluster (hc : c.IsSound) (hcluster : cluster.Nodup)
    (hsome : ∃ id ∈ cluster, c.IsUndecided id) :
    (c.resolveCluster cluster).1 = (c.undecided cluster).length ∧
    ((∃ p, Stance.AgreeOn ((c.members cluster).map UnitNode.stance) p ∧
        Decides (UnitNode.Reuses p) c (c.undecided cluster) (c.resolveCluster cluster).2) ∨
      ((∀ p, ¬ Stance.AgreeOn ((c.members cluster).map UnitNode.stance) p) ∧
        Decides UnitNode.Reruns c (c.undecided cluster) (c.resolveCluster cluster).2)) := by
  have hnodup := nodup_undecided hc.filed hcluster
  have hids : ∀ id ∈ c.undecided cluster, c.IsUndecided id := fun id hid ↦
    ((mem_undecided hc.filed).1 hid).2
  obtain ⟨hnone, -⟩ | ⟨-, p, hp, heq⟩ | ⟨-, hp, heq⟩ := c.resolveCluster_cases cluster
  · obtain ⟨id, hid, hundecided⟩ := hsome
    exact absurd hundecided ((undecided_eq_nil_iff hc.filed).1 hnone id hid)
  · obtain ⟨hcount, hdecides⟩ := decides_releaseAll hc p hnodup hids
    rw [heq]
    exact ⟨hcount, .inl ⟨p, commonRenaming_eq_some_iff.1 hp, hdecides⟩⟩
  · obtain ⟨hcount, hdecides⟩ := decides_restartAll hc hnodup hids
    rw [heq]
    refine ⟨hcount, .inr ⟨fun p hagree ↦ ?_, hdecides⟩⟩
    exact nomatch hp.symm.trans (commonRenaming_eq_some_iff.2 hagree)

/-- Once those who were undecided have been told what to do, no unit of the cluster is undecided. -/
theorem Decides.not_isUndecided {q : UnitNode γ → Prop}
    (h : Decides q c (c.undecided cluster) c') (hc : c.Filed)
    (hq : ∀ v, q v → v.phase ≠ .undecided) : ∀ id ∈ cluster, ¬ c'.IsUndecided id := by
  rintro id hid ⟨v, hv, hphase⟩
  by_cases hmem : id ∈ c.undecided cluster
  · obtain ⟨w, hw, hqw⟩ := h.decided id hmem
    obtain rfl := Option.some.inj (hw.symm.trans hv)
    exact hq w hqw hphase
  · cases hu : c.units[id]? with
    | none => exact nomatch (h.added id v hu hv).symm.trans hphase
    | some u =>
      obtain rfl := Option.some.inj ((h.kept id u hu hmem).symm.trans hv)
      exact hmem ((mem_undecided hc).2 ⟨hid, u, hu, hphase⟩)

/-- A cluster without undecided members is closed by force. -/
theorem shuts_resolveCluster (hc : c.IsProper) (hcluster : cluster.Nodup)
    (hnone : ∀ id ∈ cluster, ¬ c.IsUndecided id) :
    c.Shuts cluster (c.resolveCluster cluster).2 ∧
      (c.resolveCluster cluster).1 = ((c.members cluster).map Turn.closureCount).sum := by
  have hfiled := hc.sound.filed
  have hnil := (undecided_eq_nil_iff hfiled).2 hnone
  obtain ⟨-, heq⟩ | ⟨hsome, -⟩ | ⟨hsome, -⟩ := c.resolveCluster_cases cluster
  · rw [heq]
    refine ⟨fun id ↦ ?_, ?_⟩
    · have hshut := shuts_grantAllClosures hc ((c.members cluster).map UnitNode.id) id
      dsimp only
      generalize (c.grantAllClosures ((c.members cluster).map UnitNode.id)).2.units[id]? = o
        at hshut ⊢
      cases hu : c.units[id]? with
      | none =>
        rw [hu] at hshut
        cases hshut
        exact .none
      | some u => simpa only [hu, mem_ids_members hfiled hu] using hshut
    · rw [← map_share_members hfiled]
      exact fst_grantAllClosures hc.sound (nodup_members hfiled hcluster)
  · exact absurd hnil hsome
  · exact absurd hnil hsome

end

/-! ## Whole runs -/

section

variable {setup : Setup} {root : UnitId} {code : γ} {previous : Option Report}
  {cluster : List UnitId}

/-- **Resolving a cluster settles it.** Take any state of a run and any cluster that the detector found,
in this state or before other clusters of the same state were resolved.

If some member is undecided, no unit of the cluster is undecided afterwards. Those that were either all
reuse their previous results under one renaming, which is the one that the members agree on, or all of
them run because there is no such renaming, and everybody else is as before. The answer is the number of
those that have been told.

If no member is undecided, no unit comes or goes and all graphs stay the same. The members have given up
exactly their closure tokens and what they kept open on scopes of others, and nobody waits for a slot of
theirs; all other units keep their tokens, what they keep open and who waits for them. The answer is the
number of closure tokens and slots that the members have given up. -/
theorem Strides.resolves_cluster (h : Strides N (start setup root code previous) hs c)
    {d : Detector Token} (hcluster : cluster ∈ d.detect.1) :
    ((∃ id ∈ cluster, c.IsUndecided id) →
      (∀ id ∈ cluster, ¬ (c.resolveCluster cluster).2.IsUndecided id) ∧
      ((∃ p, Stance.AgreeOn ((c.members cluster).map UnitNode.stance) p ∧
          ∀ id ∈ cluster, c.IsUndecided id →
            ∃ v, (c.resolveCluster cluster).2.units[id]? = some v ∧ v.Reuses p) ∨
        ((∀ p, ¬ Stance.AgreeOn ((c.members cluster).map UnitNode.stance) p) ∧
          ∀ id ∈ cluster, c.IsUndecided id →
            ∃ v, (c.resolveCluster cluster).2.units[id]? = some v ∧ v.Reruns)) ∧
      (∀ (id : UnitId) (u : UnitNode γ), c.units[id]? = some u →
        ¬ (id ∈ cluster ∧ c.IsUndecided id) → (c.resolveCluster cluster).2.units[id]? = some u) ∧
      (c.resolveCluster cluster).1 = (c.undecided cluster).length) ∧
    ((∀ id ∈ cluster, ¬ c.IsUndecided id) →
      (∀ id, Option.Rel (fun u v ↦ u.SameGraphs v ∧
          (id ∈ cluster → u.ClosesDown v ∧ v.delays = []) ∧
          (id ∉ cluster → u.Keeps v ∧ v.delays = u.delays))
        c.units[id]? (c.resolveCluster cluster).2.units[id]?) ∧
      (c.resolveCluster cluster).1 = ((c.members cluster).map Turn.closureCount).sum) := by
  have hproper : c.IsProper := h.isProper (isProper_start setup root code previous)
  have hfiled : c.Filed := hproper.sound.filed
  have hnodup : cluster.Nodup :=
    SortedSet.nodup_of_pairwise_lt (WaitGraph.sorted_of_mem_terminalClusters hcluster)
  refine ⟨fun hsome ↦ ?_, fun hnone ↦ ?_⟩
  · have hmem {id : UnitId} : id ∈ c.undecided cluster ↔ id ∈ cluster ∧ c.IsUndecided id :=
      mem_undecided hfiled
    obtain ⟨hcount, ⟨p, hagree, hdecides⟩ | ⟨hdisagree, hdecides⟩⟩ :=
      decides_resolveCluster hproper.sound hnodup hsome
    · exact ⟨hdecides.not_isUndecided hfiled fun v hv ↦ by simp [hv.phase],
        .inl ⟨p, hagree, fun id hid hundecided ↦ hdecides.decided id (hmem.2 ⟨hid, hundecided⟩)⟩,
        fun id u hu hid ↦ hdecides.kept id u hu fun h ↦ hid (hmem.1 h), hcount⟩
    · exact ⟨hdecides.not_isUndecided hfiled fun v hv ↦ by simp [hv.phase],
        .inr ⟨hdisagree, fun id hid hundecided ↦ hdecides.decided id (hmem.2 ⟨hid, hundecided⟩)⟩,
        fun id u hu hid ↦ hdecides.kept id u hu fun h ↦ hid (hmem.1 h), hcount⟩
  · obtain ⟨hshuts, hcount⟩ := shuts_resolveCluster hproper hnodup hnone
    have hcloses : c.Closes cluster (c.resolveCluster cluster).2 :=
      closes_resolveCluster hfiled fun id hid u hu hphase ↦ hnone id hid ⟨u, hu, hphase⟩
    refine ⟨fun id ↦ UnitNode.rel_and (fun {u v} hshut hclosed ↦ ⟨hshut.1, fun hid ↦ ?_, fun hid ↦ ?_⟩)
      (hshuts id) (hcloses id), hcount⟩
    · exact ⟨hclosed.2 hid, hshut.2.trans (if_pos hid)⟩
    · exact ⟨hclosed.1 hid, hshut.2.trans (if_neg hid)⟩

end

private def lonerId : UnitId := ⟨"loner"⟩

/-- A unit that had a result in the previous run and has been started. -/
private def lonerBegun : Core Unit :=
  ((start ⟨.withReuse .trivial, ["E"], 1⟩ lonerId ()
    (some (.mk lonerId [] .empty .empty (some .unit) [] [] none .initiallyStarted []))).atUnit
      lonerId (.handle (.start []))).2

/-- It has asked whether its previous result still holds, -/
private def lonerAsking : Core Unit := (lonerBegun.atUnit lonerId (.act .askForReuse)).2

/-- or else it runs and has left a label open. -/
private def lonerRunning : Core Unit :=
  (lonerBegun.atUnit lonerId (.act (.freshScope "s" ["E"] false false))).2

/-- A unit that waits for nothing but the decision about its own reuse is released, and one that runs is
made to close the one label that it has left open. -/
theorem resolves_cluster_of_one :
    (∃ v, (lonerAsking.resolveCluster [lonerId]).2.units[lonerId]? = some v ∧
      v.Reuses .identity) ∧
    (lonerRunning.resolveCluster [lonerId]).1 = 1 := by
  have hbegun : Stride (fun _ ↦ False) _ _ lonerBegun :=
    .did lonerId (.handle (.start [])) fun _ _ ↦ trivial
  have hasked : Stride (fun _ ↦ False) lonerBegun _ lonerAsking :=
    .did lonerId (.act .askForReuse) fun u hu ↦ ⟨by obtain rfl := Option.some.inj hu; rfl, trivial⟩
  have hran : Stride (fun _ ↦ False) lonerBegun _ lonerRunning :=
    .did lonerId (.act (.freshScope "s" ["E"] false false)) fun u hu ↦
      ⟨by obtain rfl := Option.some.inj hu; rfl, trivial⟩
  refine ⟨?_, ?_⟩
  · have hfound : [lonerId] ∈ lonerAsking.detector.detect.1 := by decide +kernel
    have hundecided : lonerAsking.IsUndecided lonerId := ⟨_, rfl, rfl⟩
    have hmember : lonerId ∈ [lonerId] := List.mem_singleton_self _
    obtain ⟨-, hdecided, -⟩ :=
      (Strides.resolves_cluster (hbegun.strides.tail hasked) hfound).1 ⟨_, hmember, hundecided⟩
    have hagree : commonRenaming ((lonerAsking.members [lonerId]).map UnitNode.stance) =
        some .identity := rfl
    obtain ⟨p, hp, hall⟩ | ⟨hnone, -⟩ := hdecided
    · obtain rfl := Option.some.inj ((commonRenaming_eq_some_iff.2 hp).symm.trans hagree)
      exact hall lonerId hmember hundecided
    · exact absurd (commonRenaming_eq_some_iff.1 hagree) (hnone _)
  · have hfound : [lonerId] ∈ lonerRunning.detector.detect.1 := by decide +kernel
    have hactive : (lonerRunning.units[lonerId]?).map UnitNode.phase = some .active := by
      decide +kernel
    have hdecided : ∀ id ∈ [lonerId], ¬ lonerRunning.IsUndecided id := by
      rintro id hid ⟨u, hu, hphase⟩
      rw [← List.mem_singleton.1 hid, hu, Option.map_some, hphase] at hactive
      exact nomatch hactive
    obtain ⟨-, hcount⟩ :=
      (Strides.resolves_cluster (hbegun.strides.tail hran) hfound).2 hdecided
    rw [hcount]
    decide +kernel

end Core

end ScopeGraphs
