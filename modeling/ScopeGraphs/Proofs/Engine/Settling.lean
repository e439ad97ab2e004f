import Mathlib.Algebra.GroupWithZero.Nat
import Mathlib.Algebra.Order.BigOperators.Group.Finset
import Mathlib.Data.Prod.Lex
import ScopeGraphs.Proofs.Engine.Closing
import ScopeGraphs.Proofs.Engine.Trees
import ScopeGraphs.Proofs.Units.Abating

/-!
# Dealing with quiescence comes to an end

Parked messages, local phases, doubts about reuse and closures are what the engine can resolve when
nothing else is left to do. `Core.remaining` counts them, local phases first and parked messages
last. A release may let units wait for closures again, but it ends a doubt, and no doubt comes up
while the engine deals with quiescence; closing by force raises nothing at all.

Giving up the innermost units finishes them, because all their sub-units have reported and they wait
for nothing any more.
-/

namespace ScopeGraphs

variable {γ α : Type}

/-! ## Counting -/

namespace UnitNode

/-- One for a unit with a checker whose local phase goes on, unless it has finished. -/
def localPhases (u : UnitNode γ) : Nat :=
  if u.kind.isChecker && u.inLocalPhase && !u.finished then 1 else 0

/-- One for a unit that is undecided about reuse. -/
def doubts (u : UnitNode γ) : Nat := if u.phase = .undecided then 1 else 0

/-- One for a unit that has not finished. -/
def unfinished (u : UnitNode γ) : Nat := if u.finished then 0 else 1

end UnitNode

/-- The number of parked messages. -/
def Mailboxes.parkedCount {μ : Type} (b : Mailboxes μ) : Nat :=
  (b.parked.toList.flatMap Prod.snd).length

namespace Core

variable {c c' c'' : Core γ} {f : UnitNode γ → Nat} {m n : Nat} {id : UnitId} {u v : UnitNode γ}
  {us : List (UnitNode γ)}

/-- A number of every unit, summed up. -/
def total (c : Core γ) (f : UnitNode γ → Nat) : Nat := (c.units.toList.map fun e ↦ f e.2).sum

theorem total_congr (h : c'.units = c.units) (f : UnitNode γ → Nat) : c'.total f = c.total f := by
  rw [total, total, h]

/-- What is left to be resolved, in the order of importance: local phases, doubts, closures and
parked messages. -/
def remaining (c : Core γ) : Nat ×ₗ Nat ×ₗ Nat ×ₗ Nat :=
  toLex (c.total UnitNode.localPhases, toLex (c.total UnitNode.doubts,
    toLex (c.total Turn.closureCount, c.mail.parkedCount)))

/-- The number of a unit, if it is there. -/
def share (c : Core γ) (f : UnitNode γ → Nat) (id : UnitId) : Nat := (c.units[id]?).elim 0 f

/-- Units may be summed up over any ids that include theirs. -/
theorem total_eq_sum (f : UnitNode γ → Nat) (ids : Finset UnitId)
    (hids : ∀ id ∈ c.units.keys, id ∈ ids) : c.total f = ∑ id ∈ ids, c.share f id := by
  have hkeys : c.units.toList.map (fun e ↦ f e.2) = c.units.keys.map (c.share f) := by
    rw [← Std.ExtTreeMap.map_fst_toList_eq_keys, List.map_map]
    refine List.map_congr_left fun e he ↦ ?_
    have hunit : c.units[e.1]? = some e.2 := Std.ExtTreeMap.mem_toList_iff_getElem?_eq_some.1 he
    rw [Function.comp_apply, share, hunit, Option.elim_some]
  rw [total, hkeys, ← List.sum_toFinset _ Std.ExtTreeMap.nodup_keys]
  refine Finset.sum_subset (fun id hid ↦ hids id (List.mem_toFinset.1 hid)) fun id _ hid ↦ ?_
  have hnone : c.units[id]? = none := by
    rw [← Option.not_isSome_iff_eq_none, ← Std.ExtTreeMap.mem_iff_isSome_getElem?,
      ← Std.ExtTreeMap.mem_keys]
    exact fun hmem ↦ hid (List.mem_toFinset.2 hmem)
  rw [share, hnone, Option.elim_none]

/-- If no unit counts for more than before, and one of them counts for less, so does the sum. -/
theorem total_add_le (id : UnitId) (hid : c'.share f id + n ≤ c.share f id)
    (hothers : ∀ k, id ≠ k → c'.share f k ≤ c.share f k) : c'.total f + n ≤ c.total f := by
  let ids : Finset UnitId := insert id (c.units.keys.toFinset ∪ c'.units.keys.toFinset)
  have hmem : id ∈ ids := Finset.mem_insert_self _ _
  rw [c.total_eq_sum f ids fun k hk ↦ by simp [ids, hk],
    c'.total_eq_sum f ids fun k hk ↦ by simp [ids, hk], ← Finset.add_sum_erase _ _ hmem,
    ← Finset.add_sum_erase _ _ hmem]
  have hrest : ∑ k ∈ ids.erase id, c'.share f k ≤ ∑ k ∈ ids.erase id, c.share f k :=
    Finset.sum_le_sum fun k hk ↦ hothers k (Finset.ne_of_mem_erase hk).symm
  omega

theorem total_le (h : ∀ k, c'.share f k ≤ c.share f k) : c'.total f ≤ c.total f :=
  total_add_le (n := 0) ⟨""⟩ (h _) fun k _ ↦ h k

/-! ## Units that rest -/

/-- At most units have taken in reports and finished. -/
def Wanes (c c' : Core γ) : Prop :=
  ∀ id : UnitId, Option.Rel UnitNode.Wanes c.units[id]? c'.units[id]?

namespace Wanes

theorem of_units_eq (h : c'.units = c.units) : c.Wanes c' := by
  intro id
  rw [h]
  cases c.units[id]? with
  | none => exact .none
  | some u => exact .some (.refl u)

theorem trans (h : c.Wanes c') (h' : c'.Wanes c'') : c.Wanes c'' := fun id ↦
  UnitNode.rel_trans (fun {_ _ _} huv hvw ↦ huv.trans hvw) (h id) (h' id)

theorem share_le (h : c.Wanes c') (hf : ∀ u v : UnitNode γ, u.Wanes v → f v ≤ f u) (id : UnitId) :
    c'.share f id ≤ c.share f id := by
  have hid := h id
  rw [share, share]
  generalize c.units[id]? = o at hid
  generalize c'.units[id]? = o' at hid
  cases hid with
  | none => exact Nat.le_refl _
  | some huv => exact hf _ _ huv

theorem exists_of_unit (h : c.Wanes c') (hu : c.units[id]? = some u) :
    ∃ v, c'.units[id]? = some v ∧ u.Wanes v := by
  have hid := h id
  rw [hu] at hid
  generalize c'.units[id]? = o at hid
  cases hid with
  | some huv => exact ⟨_, rfl, huv⟩

theorem eq_none (h : c.Wanes c') (hu : c.units[id]? = none) : c'.units[id]? = none := by
  have hid := h id
  rw [hu] at hid
  generalize c'.units[id]? = o at hid
  cases hid
  rfl

end Wanes

theorem Carries.wanes (h : Carries c id u v [] c') (hv : u.Wanes v) : c.Wanes c' := by
  intro k
  rw [h.units, List.find?_nil, Option.or_none]
  split
  · rename_i heq
    rw [← heq, h.unit]
    exact .some hv
  · cases c.units[k]? with
    | none => exact .none
    | some w => exact .some (.refl w)

theorem wanes_handReport (hc : c.Filed) (origin : UnitId) (report : Report) (n : Nat) :
    c.Wanes (c.handReport origin report n).2 := by
  induction n generalizing c origin report with
  | zero => exact .of_units_eq rfl
  | succ n ih =>
    rw [handReport]
    split
    · dsimp only
      split <;> exact .of_units_eq rfl
    · rename_i parent _
      split
      · exact .of_units_eq rfl
      · rename_i u hu
        have hcarries := carries_carryOut hu (hc parent u hu) (.subUnitFinished report)
        have hnew := (UnitOp.comesTo_subUnitFinished u report c.setup.settings c.channels
          c.nextRequest).1
        rw [show (c.turnOf u (.subUnitFinished report)).effects.newUnits = [] from hnew] at hcarries
        have hwanes := hcarries.wanes
          (Turn.wanes_subUnitFinished ⟨u, .none, c.setup.settings, c.channels, c.nextRequest⟩ report)
        dsimp only
        split
        · exact hwanes
        · exact hwanes.trans (ih (filed_of_reaches (reaches_carryOut hu _) hc) _ _)

/-- An operation carries one unit on, and what follows from it carries on none. -/
theorem wanes_atUnit (hc : c.Filed) (hu : c.units[id]? = some u) (op : UnitOp γ α) :
    (c.carryOut id u op).Wanes (c.atUnit id op).2 := by
  rw [atUnit, hu]
  dsimp only
  split
  · exact .of_units_eq (units_spawnAll _ _).1
  · exact (wanes_handReport (filed_of_reaches (reaches_carryOut hu op) hc) _ _ _).trans
      (.of_units_eq (units_spawnAll _ _).1)

/-- The sum goes down with the unit that is carried on, if new units do not count. -/
theorem Carries.total_add_le (h : Carries c id u v us c') (hv : f v + n ≤ f u)
    (hus : ∀ w ∈ us, f w = 0) : c'.total f + n ≤ c.total f := by
  refine Core.total_add_le id ?_ fun k hk ↦ ?_
  · rw [share, share, h.changed, h.unit]
    exact hv
  · rw [share, share]
    cases hw : c'.units[k]? with
    | none => exact Nat.zero_le _
    | some w =>
      obtain ⟨heq, -⟩ | ⟨-, hold⟩ | ⟨-, -, hmem, -⟩ := h.cases hw
      · exact absurd heq hk
      · rw [hold]
      · exact (hus w hmem).trans_le (Nat.zero_le _)

/-! ## What operations resolve -/

end Core

namespace UnitNode

variable {u v : UnitNode γ}

theorem Abates.localPhases_le (h : u.Abates v) : v.localPhases ≤ u.localPhases := by
  rw [localPhases, localPhases, h.kind]
  split
  · rename_i hv
    simp only [Bool.and_eq_true, Bool.not_eq_true'] at hv
    have hunfinished : u.finished = false :=
      Bool.eq_false_iff.2 fun hfinished ↦ nomatch hv.2.symm.trans (h.finished hfinished)
    rw [hv.1.1, h.localPhase hv.1.2, hunfinished]
    exact Nat.le_refl _
  · exact Nat.zero_le _

theorem Abates.doubts_le (h : u.Abates v) : v.doubts ≤ u.doubts := by
  rw [doubts, doubts]
  split
  · rename_i hv
    rw [if_pos (h.undecided hv)]
  · exact Nat.zero_le _

theorem Wanes.closureCount_eq (h : u.Wanes v) : Turn.closureCount v = Turn.closureCount u := by
  rw [Turn.closureCount, Turn.closureCount, h.waits, h.shared]

theorem localPhases_of_not (h : u.inLocalPhase = false) : u.localPhases = 0 := by
  simp [localPhases, h]

theorem doubts_of_ne (h : u.phase ≠ .undecided) : u.doubts = 0 := if_neg h

/-- A unit that has closed down has nothing left to be closed. -/
theorem ClosesDown.closureCount_eq (h : u.ClosesDown v) : Turn.closureCount v = 0 := by
  have hnone : v.waits.entries.filter (fun e ↦ e.1.isClosure) = [] := by
    refine List.filter_eq_nil_iff.2 fun e he hclosure ↦ ?_
    have hcount := h.waits e.1 e.2
    rw [if_pos hclosure, ← TokenBag.count_entries] at hcount
    exact List.count_eq_zero.1 hcount he
  rw [Turn.closureCount, hnone, h.shared]
  rfl

end UnitNode

/-- A unit that was undecided has been started. -/
theorem Phase.Leads.of_undecided {kind : UnitKind γ} {q : Phase} (h : Leads kind .undecided q) :
    q ≠ .created ∧ q ≠ .started := by
  induction h with
  | refl => exact ⟨nofun, nofun⟩
  | tail _ hedge ih =>
    cases hedge with
    | started => exact (ih.1 rfl).elim
    | hesitated | activated | replayed | restarted | released | ended => exact ⟨nofun, nofun⟩

/-- Units that are added by nobody's checker are no checkers. -/
theorem Life.Leads.standIns {x y : Life γ} {us : List (UnitNode γ)}
    (h : x.Leads (fun _ ↦ False) us y) : ∀ u ∈ us, u.kind.isChecker = false ∧ u.phase = .created := by
  induction h with
  | refl => exact List.forall_mem_nil _
  | tail _ hstep ih =>
    refine List.forall_mem_append.2 ⟨ih, ?_⟩
    cases hstep with
    | join hopen hfree hid hparent hborn hprevious hname =>
      obtain ⟨hfalse, -⟩ | ⟨hkind, -⟩ := hname
      · exact hfalse.elim
      · exact List.forall_mem_singleton.2 ⟨by rw [hkind]; rfl, hborn.phase⟩
    | standIn => exact List.forall_mem_singleton.2 ⟨rfl, rfl⟩
    | start | begin | run | hesitate | release | serve | conclude => exact List.forall_mem_nil _

namespace Core

variable {c c' c'' : Core γ} {m n : Nat} {id : UnitId} {u v : UnitNode γ}

/-- Something has been resolved a number of times: either a doubt is gone, or so many closures. -/
structure Resolves (n : Nat) (c c' : Core γ) : Prop where
  sound : c'.IsSound
  precedes : c.Precedes c'
  localPhases : c'.total UnitNode.localPhases ≤ c.total UnitNode.localPhases
  doubts : c'.total UnitNode.doubts ≤ c.total UnitNode.doubts
  closures : c'.total UnitNode.doubts = c.total UnitNode.doubts →
    c'.total Turn.closureCount + n ≤ c.total Turn.closureCount

namespace Resolves

theorem refl (hc : c.IsSound) : c.Resolves 0 c :=
  ⟨hc, .of_units_eq rfl, Nat.le_refl _, Nat.le_refl _, fun _ ↦ Nat.le_refl _⟩

theorem other (h : c.Resolves n c') (hunits : c''.units = c'.units) : c.Resolves n c'' where
  sound := h.sound.of_units_eq hunits
  precedes := h.precedes.trans (.of_units_eq hunits)
  localPhases := (total_congr hunits _).trans_le h.localPhases
  doubts := (total_congr hunits _).trans_le h.doubts
  closures heq := by
    rw [total_congr hunits] at heq ⊢
    exact h.closures heq

theorem trans (h : c.Resolves m c') (h' : c'.Resolves n c'') : c.Resolves (m + n) c'' where
  sound := h'.sound
  precedes := h.precedes.trans h'.precedes
  localPhases := h'.localPhases.trans h.localPhases
  doubts := h'.doubts.trans h.doubts
  closures heq := by
    have hdoubts := h.doubts
    have hdoubts' := h'.doubts
    have hclosures := h.closures (by omega)
    have hclosures' := h'.closures (by omega)
    omega

/-- Whenever something is resolved less remains. -/
theorem remaining_lt (h : c.Resolves n c') (hn : 0 < n) : c'.remaining < c.remaining := by
  rw [remaining, remaining, Prod.Lex.toLex_lt_toLex]
  refine h.localPhases.lt_or_eq.imp_right fun hlocal ↦ ⟨hlocal, ?_⟩
  rw [Prod.Lex.toLex_lt_toLex]
  refine h.doubts.lt_or_eq.imp_right fun hdoubts ↦ ⟨hdoubts, ?_⟩
  rw [Prod.Lex.toLex_lt_toLex]
  have hclosures := h.closures hdoubts
  exact .inl (by omega)

end Resolves

/-- One unit is carried on, without becoming undecided or entering a local phase, and others at most
report on it and finish. The units that are added are newborn stand-ins. -/
theorem resolves_atUnit (hc : c.IsSound) (hu : c.units[id]? = some u) {op : UnitOp γ α}
    (hop : op.IsRegular (fun _ ↦ False) u)
    (hlocal : (c.turnOf u op).unit.localPhases ≤ u.localPhases)
    (hdoubts : (c.turnOf u op).unit.doubts ≤ u.doubts)
    (hclosures : (c.turnOf u op).unit.doubts = u.doubts →
      Turn.closureCount (c.turnOf u op).unit + n ≤ Turn.closureCount u ∧
        (c.turnOf u op).effects.newUnits = []) : c.Resolves n (c.atUnit id op).2 := by
  have hpasses := ((Stride.did id op fun x hx ↦ by
    obtain rfl := Option.some.inj (hu.symm.trans hx)
    exact hop).advances hc).passes hc
  have hcarries := carries_carryOut hu (hc.filed id u hu) op
  have hwanes := wanes_atUnit hc.filed hu op
  obtain ⟨y, hleads, -⟩ := UnitOp.comesTo_run (hc.sound id u hu) hop c.setup.settings c.channels
    c.nextRequest
  have hnew : ∀ w ∈ (c.turnOf u op).effects.newUnits, w.kind.isChecker = false ∧ w.phase = .created :=
    hleads.standIns
  have htotal := hcarries.total_add_le (f := UnitNode.localPhases) (n := 0) hlocal fun w hw ↦ by
    simp [UnitNode.localPhases, (hnew w hw).1]
  have hnodoubts : ∀ w ∈ (c.turnOf u op).effects.newUnits, w.doubts = 0 := fun w hw ↦
    UnitNode.doubts_of_ne (by simp [(hnew w hw).2])
  have hless := hwanes.share_le fun _ _ h ↦ h.toAbates.doubts_le
  refine ⟨hpasses.sound, hpasses.precedes, (total_le (hwanes.share_le fun _ _ h ↦
    h.toAbates.localPhases_le)).trans htotal, (total_le hless).trans
    (hcarries.total_add_le (f := UnitNode.doubts) (n := 0) hdoubts hnodoubts), fun heq ↦ ?_⟩
  -- If the unit has lost a doubt, there are fewer of them.
  obtain hlt | hsame := hdoubts.lt_or_eq
  · have htotal := hcarries.total_add_le (f := UnitNode.doubts) (n := 1) hlt hnodoubts
    have hle := total_le hless
    omega
  · obtain ⟨hclosures, hnone⟩ := hclosures hsame
    have htotal := hcarries.total_add_le (f := Turn.closureCount) hclosures fun w hw ↦ by
      rw [hnone] at hw
      exact absurd hw List.not_mem_nil
    have hle := total_le (hwanes.share_le (f := Turn.closureCount) fun _ _ h ↦ h.closureCount_eq.le)
    omega

/-- A unit that is as it was before. -/
theorem resolves_of_same (hc : c.IsSound) (hu : c.units[id]? = some u) {op : UnitOp γ α}
    (hop : op.IsRegular (fun _ ↦ False) u) (hunit : (c.turnOf u op).unit = u)
    (hnew : (c.turnOf u op).effects.newUnits = []) : c.Resolves 0 (c.atUnit id op).2 :=
  resolves_atUnit hc hu hop (congrArg _ hunit).le (congrArg _ hunit).le
    fun _ ↦ ⟨(congrArg Turn.closureCount hunit).le, hnew⟩

theorem resolves_release (hc : c.IsSound) (id : UnitId) (p : Renaming) :
    ((c.atUnit id (.release p)).1 = .ok true → c.Resolves 1 (c.atUnit id (.release p)).2) ∧
      ((c.atUnit id (.release p)).1 ≠ .ok true → c.Resolves 0 (c.atUnit id (.release p)).2) := by
  cases hu : c.units[id]? with
  | none =>
    rw [atUnit_of_none hu]
    exact ⟨nofun, fun _ ↦ .refl hc⟩
  | some u =>
    let t : Turn γ := ⟨u, .none, c.setup.settings, c.channels, c.nextRequest⟩
    have hanswer : (c.atUnit id (.release p)).1 = .ok t.canRelease := fst_atUnit hu _
    rw [hanswer]
    refine ⟨fun hcan ↦ ?_, fun hnot ↦ ?_⟩
    · have hcan : t.canRelease = true := by simpa using hcan
      obtain ⟨hlocal, hphase⟩ := t.abated_release p hcan
      have hdoubt : u.doubts = 1 := by
        simp only [Turn.canRelease, Bool.and_eq_true, decide_eq_true_eq] at hcan
        exact if_pos hcan.1
      have hgone : (t.release p).unit.doubts = 0 := UnitNode.doubts_of_ne hphase
      refine resolves_atUnit hc hu trivial ?_ ?_ fun heq ↦ ?_
      · exact (UnitNode.localPhases_of_not hlocal).trans_le (Nat.zero_le _)
      · exact hgone.trans_le (Nat.zero_le _)
      · exact absurd (hgone.symm.trans (heq.trans hdoubt)) (by omega)
    · have hsame : t.release p = t := t.release_of_not fun previous hphase hprevious ↦ by
        refine hnot ?_
        simp [Turn.canRelease, hphase, hprevious]
      exact resolves_of_same hc hu trivial (congrArg Turn.unit hsame)
        (congrArg (·.effects.newUnits) hsame)

/-- Telling a unit to run resolves a doubt if the unit was undecided once. -/
theorem resolves_restart (hc : c.IsSound) (id : UnitId)
    (hid : ∀ u, c.units[id]? = some u → Phase.Leads u.kind .undecided u.phase) :
    ((c.atUnit id (.restart .restarted)).1 = .ok true →
        c.Resolves 1 (c.atUnit id (.restart .restarted)).2) ∧
      ((c.atUnit id (.restart .restarted)).1 ≠ .ok true →
        c.Resolves 0 (c.atUnit id (.restart .restarted)).2) := by
  cases hu : c.units[id]? with
  | none =>
    rw [atUnit_of_none hu]
    exact ⟨by simp, fun _ ↦ .refl hc⟩
  | some u =>
    let t : Turn γ := ⟨u, .none, c.setup.settings, c.channels, c.nextRequest⟩
    have hanswer : (c.atUnit id (.restart .restarted)).1 = .ok t.canRestart := fst_atUnit hu _
    rw [hanswer]
    refine ⟨fun hcan ↦ ?_, fun hnot ↦ ?_⟩
    · have hcan : t.canRestart = true := by simpa using hcan
      obtain ⟨habates, hphase⟩ := t.abated_restart .restarted hcan
      have hdoubt : u.doubts = 1 := by
        simp only [Turn.canRestart, Bool.or_eq_true, decide_eq_true_eq] at hcan
        exact if_pos (hcan.resolve_left (hid u hu).of_undecided.2)
      have hgone : (t.restart .restarted).unit.doubts = 0 := UnitNode.doubts_of_ne hphase
      refine resolves_atUnit hc hu (by simp [UnitOp.IsRegular]) habates.localPhases_le ?_ fun heq ↦ ?_
      · exact hgone.trans_le (Nat.zero_le _)
      · exact absurd (hgone.symm.trans (heq.trans hdoubt)) (by omega)
    · have hsame : t.restart .restarted = t := by
        rw [Turn.restart, if_neg fun hcan ↦ hnot (congrArg _ hcan)]
      exact resolves_of_same hc hu (by simp [UnitOp.IsRegular]) (congrArg Turn.unit hsame)
        (congrArg (·.effects.newUnits) hsame)

/-- Closing by force resolves as many closures as it grants. -/
theorem resolves_grantClosures (hc : c.IsSound) (id : UnitId) :
    c.Resolves ((c.atUnit id .grantClosures).1.toOption.getD 0) (c.atUnit id .grantClosures).2 := by
  cases hu : c.units[id]? with
  | none =>
    rw [atUnit_of_none hu]
    exact .refl hc
  | some u =>
    let t : Turn γ := ⟨u, .none, c.setup.settings, c.channels, c.nextRequest⟩
    have habates := t.abates_grantClosures
    have hclosed : u.ClosesDown t.grantClosures.unit :=
      ⟨fun _ _ ↦ t.count_grantClosures, t.shared_grantClosures⟩
    rw [fst_atUnit hu]
    refine resolves_atUnit hc hu trivial habates.localPhases_le habates.doubts_le fun _ ↦ ⟨?_, ?_⟩
    · exact (congrArg (· + Turn.closureCount u) hclosed.closureCount_eq).trans_le (Nat.zero_add _).le
    · exact t.newUnits_grantClosures

/-! ## Clusters -/

theorem resolves_releaseAll (hc : c.IsSound) (p : Renaming) (ids : List UnitId) :
    c.Resolves (c.releaseAll p ids).1 (c.releaseAll p ids).2 := by
  induction ids generalizing c with
  | nil => exact .refl hc
  | cons id ids ih =>
    obtain ⟨hdone, hnot⟩ := resolves_release hc id p
    rw [releaseAll]
    split
    · rename_i c₁ heq
      rw [heq] at hdone
      have hresolved : c.Resolves 1 { c₁ with detector := c₁.detector.countRelease } :=
        (hdone rfl).other rfl
      have hrest := hresolved.trans (ih hresolved.sound)
      rwa [Nat.add_comm] at hrest
    · rename_i a c₁ hne heq
      rw [heq] at hnot
      have hresolved : c.Resolves 0 c₁ := hnot hne
      have hrest := hresolved.trans (ih hresolved.sound)
      rwa [Nat.zero_add] at hrest

/-- Units that were undecided once are told to run. -/
theorem resolves_restartAll (hc : c.IsSound) {ids : List UnitId}
    (hids : ∀ id ∈ ids, ∃ u, c.units[id]? = some u ∧ Phase.Leads u.kind .undecided u.phase) :
    c.Resolves (c.restartAll ids).1 (c.restartAll ids).2 := by
  induction ids generalizing c with
  | nil => exact .refl hc
  | cons id ids ih =>
    obtain ⟨⟨u, hu, hphase⟩, hids⟩ := List.forall_mem_cons.1 hids
    have hlater {n : Nat} {c' : Core γ} (h : c.Resolves n c') : ∀ id ∈ ids,
        ∃ u, c'.units[id]? = some u ∧ Phase.Leads u.kind .undecided u.phase := fun id hid ↦ by
      obtain ⟨u, hu, hphase⟩ := hids id hid
      obtain ⟨v, hv, hprecedes⟩ := h.precedes id u hu
      have hkind : v.kind = u.kind := hprecedes.kind
      exact ⟨v, hv, hkind ▸ hphase.trans hprecedes.phase⟩
    obtain ⟨hdone, hnot⟩ := resolves_restart hc id fun x hx ↦ by
      obtain rfl := Option.some.inj (hu.symm.trans hx)
      exact hphase
    rw [restartAll]
    split
    · rename_i c₁ heq
      rw [heq] at hdone
      have hresolved : c.Resolves 1 { c₁ with detector := c₁.detector.countRestart } :=
        (hdone rfl).other rfl
      have hrest := hresolved.trans (ih hresolved.sound (hlater hresolved))
      rwa [Nat.add_comm] at hrest
    · rename_i a c₁ hne heq
      rw [heq] at hnot
      have hresolved : c.Resolves 0 c₁ := hnot hne
      have hrest := hresolved.trans (ih hresolved.sound (hlater hresolved))
      rwa [Nat.zero_add] at hrest

theorem resolves_grantAllClosures (hc : c.IsSound) (ids : List UnitId) :
    c.Resolves (c.grantAllClosures ids).1 (c.grantAllClosures ids).2 := by
  induction ids generalizing c with
  | nil => exact .refl hc
  | cons id ids ih =>
    have hresolved := resolves_grantClosures hc id
    exact hresolved.trans (ih hresolved.sound)

theorem resolves_resolveCluster (hc : c.IsSound) (cluster : List UnitId) :
    c.Resolves (c.resolveCluster cluster).1 (c.resolveCluster cluster).2 := by
  unfold resolveCluster
  extract_lets members undecided
  split
  · exact resolves_releaseAll hc _ _
  · split
    · exact (resolves_grantAllClosures hc (members.map UnitNode.id)).other rfl
    · split
      · exact resolves_releaseAll hc _ _
      · refine resolves_restartAll hc fun id hid ↦ ?_
        obtain ⟨u, hu, rfl⟩ := List.mem_map.1 hid
        obtain ⟨hmember, hphase⟩ := List.mem_filter.1 hu
        obtain ⟨id, -, hid⟩ := List.mem_filterMap.1 hmember
        have hphase : u.phase = .undecided := by simpa using hphase
        exact ⟨u, hc.filed id u hid ▸ hid, hphase ▸ .refl⟩

theorem resolves_resolveClusters (hc : c.IsSound) (clusters : List (List UnitId)) :
    c.Resolves (c.resolveClusters clusters).1 (c.resolveClusters clusters).2 := by
  induction clusters generalizing c with
  | nil => exact .refl hc
  | cons cluster rest ih =>
    have hresolved := resolves_resolveCluster hc cluster
    exact hresolved.trans (ih hresolved.sound)

/-! ## Local phases -/

/-- Ending the local phase of a unit begins none, and there is one fewer if the unit was local. -/
theorem resolves_endLocalPhase (hc : c.IsSound) (id : UnitId) :
    (c.atUnit id .endLocalPhase).2.IsSound ∧
      (c.atUnit id .endLocalPhase).2.total UnitNode.localPhases + c.share UnitNode.localPhases id ≤
        c.total UnitNode.localPhases := by
  cases hu : c.units[id]? with
  | none =>
    rw [atUnit_of_none hu, share, hu]
    exact ⟨hc, Nat.le_refl _⟩
  | some u =>
    let t : Turn γ := ⟨u, .none, c.setup.settings, c.channels, c.nextRequest⟩
    obtain ⟨habates, hover⟩ := t.abated_endLocalPhase
    have hstride : Stride (fun _ ↦ False) c _ (c.atUnit id .endLocalPhase).2 :=
      .did id .endLocalPhase fun _ _ ↦ trivial
    have hpasses := (hstride.advances hc).passes hc
    have hcarries := carries_carryOut hu (hc.filed id u hu) .endLocalPhase
    have hnew : (c.turnOf u .endLocalPhase).effects.newUnits = [] :=
      ((Turn.Stays.refl t).capture.endLocalPhase).newUnits
    have hgone : (c.turnOf u .endLocalPhase).unit.localPhases = 0 :=
      UnitNode.localPhases_of_not hover
    have htotal := hcarries.total_add_le (f := UnitNode.localPhases) (n := u.localPhases)
      (by rw [hgone, Nat.zero_add]) (by rw [hnew]; exact List.forall_mem_nil _)
    have hwanes := wanes_atUnit hc.filed hu (.endLocalPhase : UnitOp γ PUnit)
    have hle := total_le (hwanes.share_le fun _ _ h ↦ h.toAbates.localPhases_le)
    rw [share, hu]
    exact ⟨hpasses.sound, (Nat.add_le_add_right hle _).trans htotal⟩

theorem total_endLocalPhases_le (hc : c.IsSound) (ids : List UnitId) :
    (c.endLocalPhases ids).total UnitNode.localPhases ≤ c.total UnitNode.localPhases := by
  induction ids generalizing c with
  | nil => exact Nat.le_refl _
  | cons id ids ih =>
    obtain ⟨hsound, hle⟩ := resolves_endLocalPhase hc id
    exact (ih hsound).trans ((Nat.le_add_right _ _).trans hle)

/-- Ending the local phases of all units that are local leaves fewer of them, unless there are
none. -/
theorem remaining_endLocalPhases (hc : c.IsSound) (h : c.localUnits ≠ []) :
    (c.endLocalPhases c.localUnits).remaining < c.remaining := by
  obtain ⟨id, ids, heq⟩ := List.exists_cons_of_ne_nil h
  have hmem : id ∈ c.localUnits := heq ▸ List.mem_cons_self
  have hlocal : c.share UnitNode.localPhases id = 1 := by
    obtain ⟨e, he, hid⟩ := List.mem_filterMap.1 hmem
    split at hid
    · rename_i hlocal
      obtain rfl := Option.some.inj hid
      simp only [isLocal, Bool.and_eq_true] at hlocal
      obtain ⟨⟨⟨hphase, hunfinished⟩, -⟩, hkind⟩ := hlocal
      rw [share, Std.ExtTreeMap.mem_toList_iff_getElem?_eq_some.1 he, Option.elim_some,
        UnitNode.localPhases, hphase, hunfinished, hkind]
      rfl
    · exact nomatch hid
  obtain ⟨hsound, hless⟩ := resolves_endLocalPhase hc id
  have hrest := total_endLocalPhases_le hsound ids
  rw [remaining, remaining, Prod.Lex.toLex_lt_toLex, heq]
  refine .inl ?_
  change ((c.atUnit id .endLocalPhase).2.endLocalPhases ids).total _ < _
  omega

/-! ## Parked messages -/

/-- Whoever has parked messages has some. -/
def IsParked (c : Core γ) : Prop :=
  ∀ (id : UnitId) (ms : List Message), c.mail.parked[id]? = some ms → ms ≠ []

theorem IsParked.of_parked_eq (h : c.IsParked) (hparked : c'.mail.parked = c.mail.parked) :
    c'.IsParked :=
  fun id ms hms ↦ h id ms (hparked ▸ hms)

theorem IsParked.of_parked_empty (hparked : c.mail.parked = ∅) : c.IsParked := fun id ms hms ↦ by
  rw [hparked, Std.ExtTreeMap.getElem?_empty] at hms
  exact nomatch hms

theorem IsParked.carryOut (h : c.IsParked) (id : UnitId) (u : UnitNode γ) (op : UnitOp γ α) :
    (c.carryOut id u op).IsParked := by
  obtain ⟨channels, nextRequest, executor, hturn⟩ := c.exists_turn u op
  refine applyEffects_induction (P := fun c _ _ ↦ c.IsParked) id _ (fun _ _ hmail h ↦ ?_)
    (fun c v _ _ h ↦ ?_) (fun c m _ h ↦ ?_) (h.of_parked_eq (by rw [hturn]))
  · exact h.of_parked_eq (congrArg Mailboxes.parked hmail)
  · rw [addUnit]
    split
    · exact h
    · intro k ms hms
      have hunparked : (c.mail.unpark v.id).parked = c.mail.parked.erase v.id :=
        Mailboxes.parked_foldl_enqueue _
      have hms : (c.mail.parked.erase v.id)[k]? = some ms := hunparked ▸ hms
      exact h k ms (SortedMap.getElem?_erase_eq_some_iff.1 hms).2
  · intro k ms hms
    rw [post, Mailboxes.send] at hms
    split at hms
    · exact h k ms hms
    · obtain ⟨-, rfl⟩ | ⟨-, hold⟩ := SortedMap.getElem?_insert_eq_some_iff.1 hms
      · exact List.append_ne_nil_of_right_ne_nil _ (List.cons_ne_nil _ _)
      · exact h k ms hold

theorem admits_isParked : Admits (fun _ _ ↦ True) fun c c' : Core γ ↦ c.IsParked → c'.IsParked where
  own _ := trivial
  refl _ h := h
  trans h h' hc := h' (h hc)
  other _ _ hmail _ h := h.of_parked_eq (congrArg Mailboxes.parked hmail)
  acted _ _ h := h.carryOut _ _ _
  handled {c _ _ _ mail} _ hnext h :=
    have htaken : IsParked { c with mail := mail } :=
      h.of_parked_eq (Mailboxes.takes_of_next hnext).parked
    htaken.carryOut _ _ _
  missed _ hnext h := h.of_parked_eq (Mailboxes.takes_of_next hnext).parked
  dropped _ _ hmail _ _ := .of_parked_empty (congrArg Mailboxes.parked hmail)

theorem Strides.isParked {N : String → Prop} {hs : List (UnitId × Report)} (h : Strides N c hs c')
    (hc : c.IsParked) : c'.IsParked := by
  induction h with
  | refl => exact hc
  | tail _ hstride ih =>
    cases hstride with
    | did id op => exact admits_isParked.atUnit _ id trivial ih
    | other _ _ hparked =>
      obtain hsame | hempty := hparked
      · exact ih.of_parked_eq hsame
      · exact .of_parked_empty hempty

/-- Dropping parked messages leaves units and mailboxes alone. -/
theorem units_dropParked (c : Core γ) :
    c.dropParked.units = c.units ∧ c.dropParked.mail.parked = ∅ := by
  have hwoken (tasks : List TaskId) (c : Core γ) :
      (tasks.foldl wake c).units = c.units ∧ (tasks.foldl wake c).mail = c.mail := by
    induction tasks generalizing c with
    | nil => exact ⟨rfl, rfl⟩
    | cons task tasks ih => exact ih (c.wake task)
  have hfilled (channels : List ChannelId) (c : Core γ) :
      (channels.foldl (fill .hungUp) c).units = c.units ∧
        (channels.foldl (fill .hungUp) c).mail = c.mail := by
    induction channels generalizing c with
    | nil => exact ⟨rfl, rfl⟩
    | cons channel channels ih =>
      obtain ⟨hunits, hmail⟩ := ih (c.fill .hungUp channel)
      exact ⟨hunits.trans (hwoken _ _).1, hmail.trans (hwoken _ _).2⟩
  obtain ⟨hunits, hmail⟩ := hfilled (c.mail.dropParked.1.filterMap Message.reply?)
    { c with mail := c.mail.dropParked.2 }
  exact ⟨hunits, congrArg Mailboxes.parked hmail⟩

theorem remaining_dropParked (hparked : c.IsParked) (h : c.mail.parked.isEmpty = false) :
    c.dropParked.remaining < c.remaining := by
  obtain ⟨hunits, hempty⟩ := c.units_dropParked
  have hdropped : c.dropParked.mail.parkedCount = 0 := by
    rw [Mailboxes.parkedCount, hempty]
    rfl
  have hsome : 0 < c.mail.parkedCount := by
    rw [← Std.ExtTreeMap.isEmpty_toList, List.isEmpty_eq_false_iff] at h
    obtain ⟨e, es, heq⟩ := List.exists_cons_of_ne_nil h
    have hms := hparked e.1 e.2
      (Std.ExtTreeMap.mem_toList_iff_getElem?_eq_some.1 (heq ▸ List.mem_cons_self))
    rw [Mailboxes.parkedCount, heq, List.flatMap_cons, List.length_append]
    exact Nat.add_pos_left (List.length_pos_iff.2 hms) _
  rw [remaining, remaining, total_congr hunits, total_congr hunits, total_congr hunits]
  simp only [Prod.Lex.toLex_lt_toLex, lt_self_iff_false, true_and, false_or, hdropped]
  exact hsome

/-- **Quiescence is dealt with only so often.** -/
theorem remaining_resolveQuiescence (hc : c.IsSound) (hparked : c.IsParked)
    (h : c.resolveQuiescence.1 = true) :
    c.resolveQuiescence.2.hasWork = true ∨ c.resolveQuiescence.2.remaining < c.remaining := by
  revert h
  rw [resolveQuiescence]
  split
  · rename_i hsome
    exact fun _ ↦ .inr (remaining_dropParked hparked (by simpa using hsome))
  · split
    · rename_i hlocal
      exact fun _ ↦ .inr (remaining_endLocalPhases hc (by simpa using hlocal))
    · intro h
      let watched : Core γ := { c with detector := c.detector.detect.2 }
      have hresolved : c.Resolves 0 watched := (Resolves.refl hc).other rfl
      have hresolves := hresolved.trans (resolves_resolveClusters hresolved.sound c.detector.detect.1)
      have hdone : 0 < (watched.resolveClusters c.detector.detect.1).1 ∨
          (watched.resolveClusters c.detector.detect.1).2.hasWork = true := by
        simpa only [Bool.or_eq_true, decide_eq_true_eq] using h
      refine hdone.symm.imp_right fun hpos ↦ hresolves.remaining_lt ?_
      rwa [Nat.zero_add]

/-! ## Giving up -/

/-- All sub-units of a unit have finished. -/
def IsInnermost (c : Core γ) (id : UnitId) : Prop :=
  ∃ u, c.units[id]? = some u ∧ ∀ (name : String) (k : UnitId), u.subUnits[name]? = some k →
    ∃ w, c.units[k]? = some w ∧ w.finished = true

/-- Units may have finished; they are the same, with the same sub-units. -/
structure GivesUp (c c' : Core γ) : Prop where
  sound : c'.IsSound
  tree : c'.IsTree fun _ ↦ False
  precedes : c.Precedes c'
  absent : ∀ id : UnitId, c.units[id]? = none → c'.units[id]? = none
  subUnits : ∀ (id : UnitId) (u : UnitNode γ), c.units[id]? = some u →
    ∃ v, c'.units[id]? = some v ∧ v.subUnits = u.subUnits

namespace GivesUp

theorem refl (hc : c.IsSound) (htree : c.IsTree fun _ ↦ False) : c.GivesUp c :=
  ⟨hc, htree, .of_units_eq rfl, fun _ h ↦ h, fun _ u hu ↦ ⟨u, hu, rfl⟩⟩

theorem trans (h : c.GivesUp c') (h' : c'.GivesUp c'') : c.GivesUp c'' where
  sound := h'.sound
  tree := h'.tree
  precedes := h.precedes.trans h'.precedes
  absent id hid := h'.absent id (h.absent id hid)
  subUnits id u hu := by
    obtain ⟨v, hv, hsame⟩ := h.subUnits id u hu
    obtain ⟨w, hw, hsame'⟩ := h'.subUnits id v hv
    exact ⟨w, hw, hsame'.trans hsame⟩

/-- What has finished stays finished. -/
theorem finished (h : c.GivesUp c') (hid : ∃ u, c.units[id]? = some u ∧ u.finished = true) :
    ∃ v, c'.units[id]? = some v ∧ v.finished = true := by
  obtain ⟨u, hu, hfinished⟩ := hid
  obtain ⟨v, hv, hprecedes⟩ := h.precedes id u hu
  exact ⟨v, hv, hprecedes.finished hfinished⟩

theorem isInnermost (h : c.GivesUp c') (hid : c.IsInnermost id) : c'.IsInnermost id := by
  obtain ⟨u, hu, hall⟩ := hid
  obtain ⟨v, hv, hsame⟩ := h.subUnits id u hu
  exact ⟨v, hv, fun name k hname ↦ h.finished (hall name k (hsame ▸ hname))⟩

end GivesUp

/-- A unit whose sub-units have finished has their reports. -/
theorem IsTree.allReported (h : c.IsTree fun _ ↦ False) (hu : c.units[id]? = some u)
    (hall : ∀ (name : String) (k : UnitId), u.subUnits[name]? = some k →
      ∃ w, c.units[k]? = some w ∧ w.finished = true) : u.allReported = true := by
  rw [UnitNode.allReported, List.all_eq_true]
  intro name hname
  obtain ⟨k, hk⟩ := Option.isSome_iff_exists.1
    (Std.ExtTreeMap.mem_iff_isSome_getElem?.1 (Std.ExtTreeMap.mem_keys.1 hname))
  obtain ⟨w, hw, hfinished⟩ := hall name k hk
  obtain ⟨r, hr⟩ := Option.isSome_iff_exists.1
    ((h.family.sound (lives_of_unit hw)).report.symm.trans hfinished)
  obtain rfl := h.filed.ids (lives_of_unit hw) hr
  exact Std.ExtTreeMap.mem_iff_contains.1 <| Std.ExtTreeMap.mem_iff_isSome_getElem?.2 <|
    Option.isSome_iff_exists.2 ⟨r, (h.subReports_iff hu).2 ⟨w, hk, hw, hr⟩⟩

/-- Giving up a unit whose sub-units have finished finishes it. -/
theorem givesUp_failStuck (hc : c.IsSound) (htree : c.IsTree fun _ ↦ False) (id : UnitId) :
    c.GivesUp (c.atUnit id .failStuck).2 ∧ (c.IsInnermost id →
      ∃ v, (c.atUnit id .failStuck).2.units[id]? = some v ∧ v.finished = true) := by
  cases hu : c.units[id]? with
  | none =>
    rw [atUnit_of_none hu]
    refine ⟨.refl hc htree, fun ⟨u, hu', _⟩ ↦ ?_⟩
    exact nomatch hu.symm.trans hu'
  | some u =>
    let t : Turn γ := ⟨u, .none, c.setup.settings, c.channels, c.nextRequest⟩
    have hstride : Stride IsPlainName c _ (c.atUnit id .failStuck).2 :=
      .did id .failStuck fun _ _ ↦ trivial
    have hadvances := hstride.advances hc
    have hpasses := hadvances.passes hc
    have hcarries := carries_carryOut hu (hc.filed id u hu) .failStuck
    have hnew : (c.turnOf u .failStuck).effects.newUnits = [] :=
      t.newUnits_failStuck
    have hsubs : (c.turnOf u .failStuck).unit.subUnits = u.subUnits :=
      ((UnitNode.Subsides.refl t.unit).failStuck).subUnits
    have hwanes := wanes_atUnit hc.filed hu .failStuck
    rw [hnew] at hcarries
    refine ⟨⟨hpasses.sound, (hadvances.tree htree).1, hpasses.precedes, fun k hk ↦ ?_,
      fun k w hw ↦ ?_⟩, fun ⟨u', hu', hall⟩ ↦ ?_⟩
    · refine hwanes.eq_none ?_
      rw [hcarries.units, if_neg (by rintro rfl; exact nomatch hu.symm.trans hk), hk]
      rfl
    · by_cases heq : id = k
      · subst heq
        obtain rfl := Option.some.inj (hu.symm.trans hw)
        obtain ⟨v, hv, hrest⟩ := hwanes.exists_of_unit hcarries.changed
        exact ⟨v, hv, hrest.subUnits.trans hsubs⟩
      · obtain ⟨v, hv, hrest⟩ := hwanes.exists_of_unit (hcarries.kept heq hw)
        exact ⟨v, hv, hrest.subUnits⟩
    · obtain rfl := Option.some.inj (hu.symm.trans hu')
      obtain ⟨v, hv, hrest⟩ := hwanes.exists_of_unit hcarries.changed
      exact ⟨v, hv, hrest.finished (t.finished_failStuck (htree.allReported hu hall))⟩

/-- Giving up several units, one after the other, finishes all those whose sub-units have
finished. -/
theorem givesUp_foldl (hc : c.IsSound) (htree : c.IsTree fun _ ↦ False) (ids : List UnitId) :
    c.GivesUp (ids.foldl (fun c u ↦ (c.atUnit u .failStuck).2) c) ∧
      ∀ id ∈ ids, c.IsInnermost id →
        ∃ v, (ids.foldl (fun c u ↦ (c.atUnit u .failStuck).2) c).units[id]? = some v ∧
          v.finished = true := by
  induction ids generalizing c with
  | nil => exact ⟨.refl hc htree, List.forall_mem_nil _⟩
  | cons id ids ih =>
    obtain ⟨hfirst, hdone⟩ := givesUp_failStuck hc htree id
    obtain ⟨hrest, hall⟩ := ih hfirst.sound hfirst.tree
    refine ⟨hfirst.trans hrest, List.forall_mem_cons.2 ⟨fun hinnermost ↦ ?_, fun k hk h ↦ ?_⟩⟩
    · exact hrest.finished (hdone hinnermost)
    · exact hall k hk (hfirst.isInnermost h)

/-- The units that are given up have not finished, and all their sub-units have. -/
theorem IsTree.of_mem_innermostUnfinished (h : c.IsTree fun _ ↦ False)
    (hid : id ∈ c.innermostUnfinished) :
    (∃ u, c.units[id]? = some u ∧ u.finished = false) ∧ c.IsInnermost id := by
  obtain ⟨e, he, hid⟩ := List.mem_filterMap.1 hid
  split at hid
  · exact nomatch hid
  · rename_i hnone
    obtain rfl := Option.some.inj hid
    obtain ⟨hmem, hunfinished⟩ := List.mem_filter.1 he
    have hu := Std.ExtTreeMap.mem_toList_iff_getElem?_eq_some.1 hmem
    refine ⟨⟨e.2, hu, by simpa using hunfinished⟩, e.2, hu, fun name k hname ↦ ?_⟩
    obtain ⟨-, -, x, hx, -⟩ := h.family.child (lives_of_unit hu) hname
    obtain ⟨w, hw, -⟩ := exists_of_lives hx
    refine ⟨w, hw, Bool.of_not_eq_false fun hopen ↦ hnone (List.any_eq_true.2 ⟨k, ?_, ?_⟩)⟩
    · exact List.mem_map.2 ⟨(name, k), Std.ExtTreeMap.mem_toList_iff_getElem?_eq_some.2 hname, rfl⟩
    · rw [Std.ExtTreeSet.contains_iff_mem, SortedSet.mem_ofList]
      exact List.mem_map.2 ⟨(k, w), List.mem_filter.2
        ⟨Std.ExtTreeMap.mem_toList_iff_getElem?_eq_some.2 hw, by simpa using hopen⟩, rfl⟩

/-- Fewer units are unfinished after one of them has been given up for good. -/
theorem GivesUp.unfinished_lt (h : c.GivesUp c')
    (hopen : ∃ u, c.units[id]? = some u ∧ u.finished = false)
    (hdone : ∃ v, c'.units[id]? = some v ∧ v.finished = true) :
    c'.total UnitNode.unfinished < c.total UnitNode.unfinished := by
  obtain ⟨u, hu, hunfinished⟩ := hopen
  obtain ⟨v, hv, hfinished⟩ := hdone
  refine total_add_le (n := 1) id ?_ fun k _ ↦ ?_
  · rw [share, share, hu, hv, Option.elim_some, Option.elim_some, UnitNode.unfinished,
      UnitNode.unfinished, hfinished, hunfinished]
    exact Nat.le_refl _
  · rw [share, share]
    cases hw : c.units[k]? with
    | none => rw [h.absent k hw]
    | some w =>
      obtain ⟨w', hw', hprecedes⟩ := h.precedes k w hw
      rw [hw', Option.elim_some, Option.elim_some, UnitNode.unfinished, UnitNode.unfinished]
      split
      · exact Nat.zero_le _
      · rename_i hopen
        rw [if_neg fun hfinished : w.finished = true ↦ hopen (hprecedes.finished hfinished)]

section

variable {setup : Setup} {root : UnitId} {code : γ} {previous : Option Report}
  {hs : List (UnitId × Report)}

/-- **Dealing with quiescence cannot go on for ever.** Whenever something is resolved, there is a
message or a task to go on with afterwards, or less remains to be resolved than before. Whenever
units are given up, all of those that were chosen finish, and there is at least one of them. -/
theorem Strides.settling (hprevious : ∀ r, previous = some r → r.IsPlain)
    (h : Strides IsPlainName (start setup root code previous) hs c) :
    (c.resolveQuiescence.1 = true →
      c.resolveQuiescence.2.hasWork = true ∨ c.resolveQuiescence.2.remaining < c.remaining) ∧
    (c.failStuckUnits.1 = true →
      c.innermostUnfinished ≠ [] ∧
      (∀ id ∈ c.innermostUnfinished, ∃ u v, c.units[id]? = some u ∧ u.finished = false ∧
        c.failStuckUnits.2.units[id]? = some v ∧ v.finished = true) ∧
      c.failStuckUnits.2.total UnitNode.unfinished < c.total UnitNode.unfinished) := by
  have hstart : (start setup root code previous).IsSound := isSound_start setup root code previous
  have hsound := (h.passes hstart).sound
  have htree := h.tree hstart (isTree_start hprevious)
  refine ⟨remaining_resolveQuiescence hsound (h.isParked (.of_parked_empty rfl)), fun hany ↦ ?_⟩
  have hnonempty : c.innermostUnfinished ≠ [] := by
    simpa only [failStuckUnits, Bool.not_eq_true', List.isEmpty_eq_false_iff] using hany
  obtain ⟨hgives, hdone⟩ := givesUp_foldl hsound htree c.innermostUnfinished
  have hends : ∀ id ∈ c.innermostUnfinished,
      ∃ v, c.failStuckUnits.2.units[id]? = some v ∧ v.finished = true := fun id hid ↦
    hdone id hid (htree.of_mem_innermostUnfinished hid).2
  refine ⟨hnonempty, fun id hid ↦ ?_, ?_⟩
  · obtain ⟨u, hu, hunfinished⟩ := (htree.of_mem_innermostUnfinished hid).1
    obtain ⟨v, hv, hfinished⟩ := hends id hid
    exact ⟨u, v, hu, hunfinished, hv, hfinished⟩
  · obtain ⟨id, ids, heq⟩ := List.exists_cons_of_ne_nil hnonempty
    have hmem : id ∈ c.innermostUnfinished := heq ▸ List.mem_cons_self
    exact hgives.unfinished_lt (htree.of_mem_innermostUnfinished hmem).1 (hends id hmem)

end

private def idleId : UnitId := ⟨"idle"⟩

private def idleSetup : Setup := ⟨⟨true, .simpleEnvironment⟩, [], 1⟩

/-- A unit that is about to be told to start. -/
private def idleStart : Core Unit := { start idleSetup idleId () none with mail := .empty }

private def idleBegun : Core Unit := (idleStart.atUnit idleId (.handle (.start []))).2

/-- The checker of the unit waits for something that does not come. -/
private def idleWaiting : Core Unit := { idleBegun with executor := .empty }

private theorem strides_idleWaiting :
    ∃ hs, Strides IsPlainName (start idleSetup idleId () none) hs idleWaiting := by
  have hstart : Stride IsPlainName (start idleSetup idleId () none) _ idleStart :=
    .other rfl ⟨rfl, rfl, rfl⟩ (.inl rfl)
  have hbegun : Stride IsPlainName idleStart _ idleBegun :=
    .did idleId (.handle (.start [])) fun _ _ ↦ trivial
  have hwaiting : Stride IsPlainName idleBegun _ idleWaiting :=
    .other rfl ⟨rfl, rfl, rfl⟩ (.inl rfl)
  exact ⟨_, ((Stride.strides hstart).tail hbegun).tail hwaiting⟩

/-- Nothing is left to be done for the unit but to end its local phase, and to give it up if that
does not help. -/
theorem settling_idle : idleWaiting.hasWork = false ∧
    idleWaiting.resolveQuiescence.2.remaining < idleWaiting.remaining ∧
    ∃ v, idleWaiting.failStuckUnits.2.units[idleId]? = some v ∧ v.finished = true := by
  obtain ⟨hs, hrun⟩ := strides_idleWaiting
  have hfirst : ∀ r : Report, none = some r → r.IsPlain := nofun
  obtain ⟨hresolve, hfail⟩ := Strides.settling hfirst hrun
  have hquiet : idleWaiting.resolveQuiescence.2.hasWork = false := rfl
  have hstuck : idleWaiting.innermostUnfinished = [idleId] := rfl
  have hless : idleWaiting.resolveQuiescence.2.remaining < idleWaiting.remaining :=
    (hresolve rfl).resolve_left fun hwork ↦ nomatch hquiet.symm.trans hwork
  refine ⟨rfl, hless, ?_⟩
  obtain ⟨-, hall, -⟩ := hfail rfl
  obtain ⟨_, v, -, -, hv, hfinished⟩ := hall idleId (hstuck ▸ List.mem_singleton_self idleId)
  exact ⟨v, hv, hfinished⟩

end Core

end ScopeGraphs
