import ScopeGraphs.Proofs.Engine.Watching

/-!
# Closing by force

A cluster of units that nobody outside can unblock, and in which nobody is undecided about reuse, is
resolved by force: every member gives up the tokens that wait for something to be closed, and
everything that it keeps open on scopes of other units. `Core.Closes` says what this comes to. Units
outside of the cluster keep their tokens and what they keep open, members keep their other tokens,
and nothing else happens to tokens at all, however many units finish on the way.

## What is taken away from others

Units that wait for a member without being waited for are not in the cluster, and among them may be
the owner of a scope that a member adds edges to. The owner waits to be told that the member is done
with a label, and the member is made to stop adding edges, but nobody tells the owner. Forced
closure spares what units outside rely on exactly if they rely on nothing
(`Core.Reaches.spares_iff`), and in some runs they do (`Core.not_always_spared`).
-/

namespace ScopeGraphs

variable {γ α : Type}

/-! ## One unit -/

namespace Turn

variable (t : Turn γ) {token : Token} {holder : UnitId}

theorem count_grantAll (es : List (Token × UnitId)) :
    (t.grantAll es).unit.waits.count token holder =
      t.unit.waits.count token holder - es.count (token, holder) := by
  induction es generalizing t with
  | nil => rfl
  | cons e es ih =>
    change ((t.grant e.1 e.2).grantAll es).unit.waits.count token holder = _
    rw [ih, waits_grant, count_lower, List.count_cons, Nat.sub_sub, Nat.add_comm]
    simp only [beq_iff_eq]

/-- A unit that closes by force gives up its closure tokens and no others. -/
theorem count_grantClosures : t.grantClosures.unit.waits.count token holder =
    if token.isClosure then 0 else t.unit.waits.count token holder := by
  -- Telling those who wait for slots to be closed leaves the bag alone.
  have hbag : t.grantClosures.unit.waits =
      (t.grantAll (t.unit.waits.entries.filter fun e ↦ e.1.isClosure)).unit.waits := by
    rw [grantClosures, fireDelays, unit_tell]
    rfl
  rw [hbag, count_grantAll]
  by_cases hclosure : token.isClosure = true
  · have hall : (t.unit.waits.entries.filter fun e ↦ e.1.isClosure).count (token, holder) =
        t.unit.waits.entries.count (token, holder) := List.count_filter hclosure
    rw [if_pos hclosure, hall, TokenBag.count_entries, Nat.sub_self]
  · have hnone : (token, holder) ∉ t.unit.waits.entries.filter fun e ↦ e.1.isClosure :=
      fun hmem ↦ hclosure (List.mem_filter.1 hmem).2
    rw [if_neg hclosure, List.count_eq_zero.2 hnone, Nat.sub_zero]

theorem shared_grantClosures : t.grantClosures.unit.shared = ∅ := by
  rw [grantClosures, fireDelays, unit_tell]
  rfl

theorem newUnits_grantClosures : t.grantClosures.effects.newUnits = t.effects.newUnits :=
  (t.moves_grantClosures (A := fun d ↦ ∀ u roots, d ≠ .join u roots) (fun _ _ _ _ ↦ nofun)
    fun _ _ ↦ nofun).newUnits fun u roots h ↦ h u roots rfl

end Turn

namespace UnitNode

/-- The unit waits for the same, and keeps the same open on scopes of others. -/
structure Keeps (u u' : UnitNode γ) : Prop where
  waits : u'.waits = u.waits
  shared : u'.shared = u.shared

/-- The unit has given up its closure tokens and all that it kept open on scopes of others. -/
structure ClosesDown (u u' : UnitNode γ) : Prop where
  waits : ∀ token holder,
    u'.waits.count token holder = if token.isClosure then 0 else u.waits.count token holder
  shared : u'.shared = ∅

variable {u u' u'' : UnitNode γ}

theorem Keeps.refl (u : UnitNode γ) : u.Keeps u := ⟨rfl, rfl⟩

theorem Keeps.trans (h : u.Keeps u') (h' : u'.Keeps u'') : u.Keeps u'' :=
  ⟨h'.waits.trans h.waits, h'.shared.trans h.shared⟩

theorem Keeps.closesDown (h : u.Keeps u') (h' : u'.ClosesDown u'') : u.ClosesDown u'' :=
  ⟨fun token holder ↦ h.waits ▸ h'.waits token holder, h'.shared⟩

namespace ClosesDown

theorem keeps (h : u.ClosesDown u') (h' : u'.Keeps u'') : u.ClosesDown u'' :=
  ⟨fun token holder ↦ h'.waits ▸ h.waits token holder, h'.shared.trans h.shared⟩

theorem trans (h : u.ClosesDown u') (h' : u'.ClosesDown u'') : u.ClosesDown u'' := by
  refine ⟨fun token holder ↦ ?_, h'.shared⟩
  rw [h'.waits, h.waits]
  split <;> rfl

theorem shares_eq_false (h : u.ClosesDown u') (s : Scope) (slot : Slot) :
    u'.shares s slot = false :=
  shares_of_empty h.shared s slot

end ClosesDown

/-! ### Units that may be missing -/

section

variable {R S T : UnitNode γ → UnitNode γ → Prop} {o o' o'' : Option (UnitNode γ)}

theorem rel_mono (h : ∀ {u u'}, R u u' → S u u') : Option.Rel R o o' → Option.Rel S o o'
  | .some hR => .some (h hR)
  | .none => .none

theorem rel_and (h : ∀ {u u'}, R u u' → S u u' → T u u') :
    Option.Rel R o o' → Option.Rel S o o' → Option.Rel T o o'
  | .some hR, .some hS => .some (h hR hS)
  | .none, .none => .none

theorem rel_trans (h : ∀ {u u' u''}, R u u' → S u' u'' → T u u'') :
    Option.Rel R o o' → Option.Rel S o' o'' → Option.Rel T o o''
  | .some hR, .some hS => .some (h hR hS)
  | .none, .none => .none

end

end UnitNode

/-! ## All units -/

namespace Core

variable {c c' c'' : Core γ} {id : UnitId} {u u' : UnitNode γ} {us vs : List UnitId}

/-- Some units have closed down, and all others have kept what they had. -/
def Closes (c : Core γ) (us : List UnitId) (c' : Core γ) : Prop :=
  ∀ id, Option.Rel (fun u u' ↦ (id ∉ us → u.Keeps u') ∧ (id ∈ us → u.ClosesDown u'))
    c.units[id]? c'.units[id]?

namespace Closes

theorem of_units_eq (h : c'.units = c.units) : c.Closes [] c' := by
  intro id
  rw [h]
  cases c.units[id]? with
  | none => exact .none
  | some u => exact .some ⟨fun _ ↦ .refl u, fun hid ↦ absurd hid List.not_mem_nil⟩

theorem trans (h : c.Closes us c') (h' : c'.Closes vs c'') : c.Closes (us ++ vs) c'' := by
  intro id
  refine UnitNode.rel_trans (fun {u u' u''} h h' ↦ ⟨fun hid ↦ ?_, fun hid ↦ ?_⟩) (h id) (h' id)
  · rw [List.mem_append, not_or] at hid
    exact (h.1 hid.1).trans (h'.1 hid.2)
  · by_cases hus : id ∈ us
    · by_cases hvs : id ∈ vs
      · exact (h.2 hus).trans (h'.2 hvs)
      · exact (h.2 hus).keeps (h'.1 hvs)
    · exact (h.1 hus).closesDown (h'.2 ((List.mem_append.1 hid).resolve_left hus))

/-- One unit has been changed, and no unit added. -/
theorem of_insert (hu : c.units[id]? = some u) (hunits : c'.units = c.units.insert id u')
    (hkeeps : id ∉ us → u.Keeps u') (hcloses : id ∈ us → u.ClosesDown u')
    (hothers : ∀ v ∈ us, v = id) : c.Closes us c' := by
  intro v
  rw [hunits, SortedMap.getElem?_insert_eq]
  split
  · rename_i heq
    rw [← heq, hu]
    exact .some ⟨hkeeps, hcloses⟩
  · rename_i hne
    cases c.units[v]? with
    | none => exact .none
    | some w => exact .some ⟨fun _ ↦ .refl w, fun hv ↦ absurd (hothers v hv).symm hne⟩

end Closes

/-! ### Operations -/

theorem filed_of_reaches (h : Reaches c c') (hc : c.Filed) : c'.Filed :=
  let ⟨_, hrun⟩ := h
  hrun.filed hc

/-- An operation that adds no units changes only the unit that it is carried out on. -/
theorem units_carryOut {op : UnitOp γ α} (hid : u.id = id)
    (hnew : (c.turn u op).2.1.newUnits = []) : (c.carryOut id u op).units =
      c.units.insert id
        (op.run ⟨u, .none, c.setup.settings, c.channels, c.nextRequest⟩).2.unit := by
  rw [carryOut, applyEffects, hnew, (foldl_post _ _).1, List.foldl_nil, (foldl_noteWait _ _ _).1,
    units_turn, hid]

theorem closes_subUnitFinished (hc : c.Filed) (hu : c.units[id]? = some u) (r : Report) :
    c.Closes [] (c.carryOut id u (.subUnitFinished r)) := by
  let t : Turn γ := ⟨u, .none, c.setup.settings, c.channels, c.nextRequest⟩
  have hmoves : t.Moves (fun _ ↦ False) (t.subUnitFinished r) := t.moves_subUnitFinished r
  have hnew : (t.subUnitFinished r).effects.newUnits = [] := hmoves.newUnits fun _ _ h ↦ h
  refine .of_insert hu (units_carryOut (hc id u hu) hnew) (fun _ ↦ ⟨?_, ?_⟩)
    (fun hid ↦ absurd hid List.not_mem_nil) (List.forall_mem_nil _)
  · exact congrArg (·.2.2.2.2.2.2.1) hmoves.stake
  · exact congrArg (·.2.2.2.2.2.1) hmoves.stake

theorem closes_handReport (hc : c.Filed) (origin : UnitId) (report : Report) (n : Nat) :
    c.Closes [] (c.handReport origin report n).2 := by
  induction n generalizing c origin report with
  | zero => exact .of_units_eq rfl
  | succ n ih =>
    rw [handReport]
    split
    · dsimp only
      split <;> exact .of_units_eq rfl
    · rename_i parent _
      split
      · exact .of_units_eq rfl
      · rename_i u hu
        have hcarried := closes_subUnitFinished hc hu report
        dsimp only
        split
        · exact hcarried
        · exact hcarried.trans (ih (filed_of_reaches (reaches_carryOut hu _) hc) _ _)

/-- A unit closes by force, and may finish and with it units above it. -/
theorem closes_atUnit (hc : c.Filed) (id : UnitId) :
    c.Closes [id] (c.atUnit id .grantClosures).2 := by
  have hspawned (ts : List (Task γ)) (c : Core γ) : (ts.foldl spawn c).units = c.units := by
    induction ts generalizing c with
    | nil => rfl
    | cons t ts ih => exact ih (c.spawn t)
  rw [atUnit]
  split
  · rename_i hnone
    intro v
    cases hv : c.units[v]? with
    | none => exact .none
    | some w =>
      refine .some ⟨fun _ ↦ .refl w, fun hmem ↦ ?_⟩
      rw [List.mem_singleton.1 hmem, hnone] at hv
      contradiction
  · rename_i u hu
    let t : Turn γ := ⟨u, .none, c.setup.settings, c.channels, c.nextRequest⟩
    have hcarried : c.Closes [id] (c.carryOut id u .grantClosures) :=
      .of_insert hu (units_carryOut (hc id u hu) t.newUnits_grantClosures)
        (fun hid ↦ absurd (List.mem_singleton_self id) hid)
        (fun _ ↦ ⟨fun _ _ ↦ t.count_grantClosures, t.shared_grantClosures⟩)
        fun _ hv ↦ List.mem_singleton.1 hv
    dsimp only
    split
    · exact hcarried.trans (.of_units_eq (hspawned _ _))
    · have hfiled := filed_of_reaches (reaches_carryOut hu .grantClosures) hc
      -- The reports that are handed on grant tokens to nobody, and change no shares.
      exact (hcarried.trans (closes_handReport hfiled _ _ _)).trans (.of_units_eq (hspawned _ _))

theorem closes_grantAllClosures (hc : c.Filed) (us : List UnitId) :
    c.Closes us (c.grantAllClosures us).2 := by
  induction us generalizing c with
  | nil => exact .of_units_eq rfl
  | cons id us ih =>
    exact (closes_atUnit hc id).trans (ih (filed_of_reaches (reaches_atUnit c id _) hc))

/-- **Forced closure stays inside the cluster.** When a cluster without undecided members is
resolved, its members close down, and all other units keep their tokens and what they keep open. -/
theorem closes_resolveCluster (hc : c.Filed) {cluster : List UnitId}
    (hdecided : ∀ id ∈ cluster, ∀ u, c.units[id]? = some u → u.phase ≠ .undecided) :
    c.Closes cluster (c.resolveCluster cluster).2 := by
  -- The engine goes through the units of the cluster that exist, under the ids that they have.
  let members := cluster.filterMap fun id ↦ c.units[id]?
  have hmembers : ∀ id u, c.units[id]? = some u →
      (id ∈ members.map UnitNode.id ↔ id ∈ cluster) := by
    intro id u hu
    rw [List.mem_map]
    constructor
    · rintro ⟨v, hv, rfl⟩
      obtain ⟨id', hid', hv⟩ := List.mem_filterMap.1 hv
      exact hc id' v hv ▸ hid'
    · intro hid
      -- Units are filed under their ids, so the id is that of a member again.
      exact ⟨u, List.mem_filterMap.2 ⟨id, hid, hu⟩, hc id u hu⟩
  have hundecided : members.filter (fun u ↦ u.phase = .undecided) = [] := by
    rw [List.filter_eq_nil_iff]
    intro u hu
    obtain ⟨id, hid, hu⟩ := List.mem_filterMap.1 hu
    simpa using hdecided id hid u hu
  have hforced : (c.resolveCluster cluster).2.units =
      (c.grantAllClosures (members.map UnitNode.id)).2.units := by
    rw [resolveCluster]
    dsimp only
    rw [hundecided, List.map_nil, if_neg (by simp), if_pos List.isEmpty_nil]
  intro id
  have hclosed := closes_grantAllClosures hc (members.map UnitNode.id) id
  rw [hforced]
  cases hu : c.units[id]? with
  | none =>
    rw [hu] at hclosed
    revert hclosed
    generalize ((c.grantAllClosures (members.map UnitNode.id)).2.units)[id]? = o
    rintro ⟨⟩
    exact .none
  | some u => rwa [hu, hmembers id u hu] at hclosed

/-! ## What others rely on -/

/-- A unit outside of a cluster waits for a member to be done with a label of one of its scopes. -/
structure ReliesOn (c : Core γ) (cluster : List UnitId) (p m : UnitId) (s : Scope) (l : Label) :
    Prop where
  outside : p ∉ cluster
  inside : m ∈ cluster
  owner : s.owner = p
  waits : ∃ u, c.units[p]? = some u ∧ 0 < u.waits.count (.closeSlot s (.edge l)) m

/-- Members on whose labels units outside of the cluster count still keep these labels open in a
later state, so they can add edges and close the labels. -/
def Spares (c : Core γ) (cluster : List UnitId) (c' : Core γ) : Prop :=
  ∀ p m s l, c.ReliesOn cluster p m s l →
    ∃ u, c'.units[m]? = some u ∧ u.shares s (.edge l) = true

/-- A cluster that closes down spares what others rely on only if nobody relies on anything. -/
theorem Closes.spares_iff_forall_not {cluster : List UnitId} (h : c.Closes cluster c') :
    c.Spares cluster c' ↔ ∀ p m s l, ¬ c.ReliesOn cluster p m s l := by
  constructor
  · intro hspares p m s l hrelies
    obtain ⟨v, hv, hshares⟩ := hspares p m s l hrelies
    have hmember := h m
    rw [hv] at hmember
    generalize c.units[m]? = o at hmember
    obtain ⟨-, hcloses⟩ | _ := hmember
    rw [(hcloses hrelies.inside).shares_eq_false] at hshares
    exact Bool.false_ne_true hshares
  · intro hnone p m s l hrelies
    exact absurd hrelies (hnone p m s l)

/-- **What forced closure takes away from others.** In every reachable state the resolution of a
cluster without undecided members leaves all units outside the cluster what they wait for and what
they keep open, and takes from every member exactly its closure tokens and all that it keeps open on
scopes of others. So the members still keep open the labels that units outside rely on exactly if no
unit outside relies on a label of a member. -/
theorem Reaches.spares_iff {setup : Setup} {root : UnitId} {code : γ} {previous : Option Report}
    (h : Reaches (start setup root code previous) c) {cluster : List UnitId}
    (hdecided : ∀ id ∈ cluster, ∀ u, c.units[id]? = some u → u.phase ≠ .undecided) :
    c.Closes cluster (c.resolveCluster cluster).2 ∧
      (c.Spares cluster (c.resolveCluster cluster).2 ↔
        ∀ p m s l, ¬ c.ReliesOn cluster p m s l) := by
  have hclosed := closes_resolveCluster
    (filed_of_reaches h (filed_start setup root code previous)) hdecided
  exact ⟨hclosed, hclosed.spares_iff_forall_not⟩

/-! ### A member that an outsider relies on -/

/-- Nothing is left to be done but to resolve clusters. -/
structure IsQuiescent (c : Core γ) : Prop where
  work : c.hasWork = false
  parked : c.mail.parked.isEmpty = true
  localUnits : c.localUnits = []

private def lender : UnitId := ⟨"root"⟩

private def borrower : UnitId := lender.child "c"

private def lentScope : Scope := ⟨lender, "r-0"⟩

private def lendingSetup : Setup := ⟨.nonIncremental, ["E"], 0⟩

/-- A checker that lends a scope to a sub-unit, whose checker takes it to add edges to it and then
waits for a label of a scope of its own that it never closes. -/
private def lendingCheckers : Behaviour Bool where
  run unit isLender _ :=
    if isLender then
      .perform (.onUnit unit (.act (.freshScope "r" [] false false))) fun _ ↦
      .perform (.onUnit unit (.act (.addSubUnit "c" (.checker false) [lentScope] false))) fun _ ↦
      .never
    else
      .perform (.onUnit unit (.act (.initScope lentScope ["E"] false))) fun _ ↦
      .perform (.onUnit unit (.act (.freshScope "s" ["E"] false false))) fun _ ↦
      .never
  presented _ d := .ok d

private def lendingSteps : Nat → Engine Bool
  | 0 => ⟨start lendingSetup lender true none, ∅⟩
  | n + 1 => ((lendingSteps n).work lendingCheckers).2

private theorem reachable_lendingSteps (n : Nat) :
    (lendingSteps n).Reachable lendingCheckers lendingSetup lender true none := by
  induction n with
  | zero => exact .start
  | succ n ih => exact ih.work

/-- Both checkers have done what they could. -/
private def stalled : Engine Bool := lendingSteps 6

private theorem clusters_stalled :
    stalled.core.detector.graph.terminalClusters = [[borrower]] := by
  decide +kernel

private theorem isQuiescent_stalled : stalled.core.IsQuiescent :=
  ⟨by decide +kernel, by decide +kernel, by decide +kernel⟩

private theorem decided_stalled :
    ∀ id ∈ [borrower], ∀ u, stalled.core.units[id]? = some u → u.phase ≠ .undecided := by
  intro id hid u hu hundecided
  have hphase : (stalled.core.units[borrower]?).map UnitNode.phase = some .active := by
    decide +kernel
  rw [List.mem_singleton.1 hid] at hu
  rw [hu, Option.map_some, hundecided] at hphase
  exact absurd hphase nofun

private theorem reliesOn_stalled :
    stalled.core.ReliesOn [borrower] lender borrower lentScope "E" := by
  refine ⟨by decide, List.mem_singleton_self _, rfl, ?_⟩
  have hcount : (stalled.core.units[lender]?).map
      (fun u ↦ u.waits.count (.closeSlot lentScope (.edge "E")) borrower) = some 1 := by
    decide +kernel
  obtain ⟨u, hu, hone⟩ := Option.map_eq_some_iff.1 hcount
  exact ⟨u, hu, by rw [hone]; exact Nat.one_pos⟩

/-- When the sub-unit is made to close down, the unit that lent it a scope still relies on it. -/
theorem Reaches.spares_iff_lent :
    Reaches (start lendingSetup lender true none) stalled.core ∧
      ¬ stalled.core.Spares [borrower] (stalled.core.resolveCluster [borrower]).2 := by
  have hreaches : Reaches (start lendingSetup lender true none) stalled.core :=
    admits_reaches.reachable (fun _ _ ↦ Proc.uses_of_forall (fun _ ↦ trivial) _)
      (reachable_lendingSteps 6)
  refine ⟨hreaches, fun hspares ↦ ?_⟩
  exact (hreaches.spares_iff decided_stalled).2.1 hspares _ _ _ _ reliesOn_stalled

/-- **Not all that others rely on is spared.** There is a run that comes to rest with a cluster
without undecided members, such that the resolution of the cluster takes a label from a member that
a unit outside of the cluster still waits for. -/
theorem not_always_spared :
    ¬ ∀ (b : Behaviour Bool) (setup : Setup) (root : UnitId) (code : Bool)
      (previous : Option Report) (e : Engine Bool), e.Reachable b setup root code previous →
      e.core.IsQuiescent → ∀ cluster ∈ e.core.detector.graph.terminalClusters,
      (∀ id ∈ cluster, ∀ u, e.core.units[id]? = some u → u.phase ≠ .undecided) →
      e.core.Spares cluster (e.core.resolveCluster cluster).2 := by
  intro h
  have hcluster : [borrower] ∈ stalled.core.detector.graph.terminalClusters := by
    rw [clusters_stalled]
    exact List.mem_singleton_self _
  have hreachable : stalled.Reachable lendingCheckers lendingSetup lender true none :=
    reachable_lendingSteps 6
  have hspares : stalled.core.Spares [borrower] (stalled.core.resolveCluster [borrower]).2 :=
    h lendingCheckers lendingSetup lender true none stalled hreachable isQuiescent_stalled
      [borrower] hcluster decided_stalled
  have hclosed : stalled.core.Closes [borrower] (stalled.core.resolveCluster [borrower]).2 :=
    closes_resolveCluster hreachable.watched.filed decided_stalled
  exact hclosed.spares_iff_forall_not.1 hspares _ _ _ _ reliesOn_stalled

end Core

end ScopeGraphs
