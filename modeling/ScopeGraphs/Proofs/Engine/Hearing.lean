import Mathlib.Algebra.GroupWithZero.Nat
import ScopeGraphs.Proofs.Engine.Arrivals
import ScopeGraphs.Proofs.Engine.Ties
import ScopeGraphs.Proofs.Units.Resuming

/-!
# Whether closing is heard

A unit keeps a *set* of labels open on a scope of another unit, whose owner keeps a *bag* of tokens,
one for every announcement that a label is kept open. Closing a label is said once. So a label that
is announced again while it is open leaves a token behind that nobody gives up
(`Core.Course.count_closeSlot`). Units that resume a snapshot or replay do not announce a scope
again that they have initialised; checkers may (`Core.not_always_heard`).
-/

namespace ScopeGraphs

variable {γ α : Type}

/-! ## Announcements -/

/-- The root scopes that a unit had in the previous run, each with the one that takes its place. -/
def UnitNode.rootMoves (u : UnitNode γ) : List (Scope × Scope) :=
  ((u.previous.map Report.roots).getD []).zip u.roots

/-- How often a unit that resumes a snapshot announces that it keeps a label open. -/
def Snapshot.announces (x : Snapshot) (u : UnitNode γ) (s : Scope) (l : Label)
    (pairs : List (Scope × Scope)) : Nat :=
  if u.initialized.contains s then 0
  else (pairs.find? fun e ↦ e.2 = s).elim 0 fun e ↦ x.openSlots.count (e.1, .edge l)

/-- How often an action of the checker of a unit announces to the owner of a scope that the unit
keeps a label open. -/
def Action.announces (settings : Settings) (u : UnitNode γ) (s : Scope) (l : Label) :
    {α : Type} → Action γ α → Nat
  | _, initScope s' labels _ => if u.mayAct ∧ s' = s then labels.count l else 0
  | _, askForReuse =>
    if u.phase = .started ∧ Attempt.mayReuse settings u then
      (u.previous.bind Report.snapshot).elim 0 fun x ↦ x.announces u s l u.rootMoves
    else 0
  | _, _ => 0

/-- How often an operation on a unit announces that the unit keeps a label open. -/
def UnitOp.announces (settings : Settings) (u : UnitNode γ) (s : Scope) (l : Label) :
    {α : Type} → UnitOp γ α → Nat
  | _, act a => a.announces settings u s l
  | _, _ => 0

/-- How many of the announcements in something that happens to a unit are too many. -/
def Occurrence.surplus (settings : Settings) (k : UnitId) (s : Scope) (l : Label) :
    Occurrence γ → Nat
  | acted u op => if u.id = k then u.surplus s l (op.announces settings u s l) else 0
  | _ => 0

theorem UnitNode.surplus_zero (u : UnitNode γ) (s : Scope) (l : Label) : u.surplus s l 0 = 0 :=
  Nat.zero_sub _

namespace UnitNode

variable {u v : UnitNode γ} {x : Snapshot} {e : Scope × Scope} {s : Scope} {l : Label} {n : Nat}

theorem contains_takeUp_self : (u.takeUp x e).initialized.contains e.2 = true :=
  Std.ExtTreeSet.mem_iff_contains.1 (SortedSet.mem_insert_iff.2 (.inl rfl))

theorem contains_takeUp_of_ne (h : e.2 ≠ s) :
    (u.takeUp x e).initialized.contains s = u.initialized.contains s := by
  rw [Bool.eq_iff_iff, ← Std.ExtTreeSet.mem_iff_contains, ← Std.ExtTreeSet.mem_iff_contains]
  exact SortedSet.mem_insert_iff.trans (or_iff_right (Ne.symm h))

theorem surplus_takeUp (h : e.2 ≠ s) : (u.takeUp x e).surplus s l n = u.surplus s l n := by
  have hshares : (u.takeUp x e).shares s (.edge l) = u.shares s (.edge l) := by
    rw [Bool.eq_iff_iff]
    exact shares_insert_iff.trans (by rw [if_neg h])
  rw [surplus, surplus, hshares]

end UnitNode

namespace Snapshot

variable {x : Snapshot} {u v : UnitNode γ} {s : Scope} {l : Label} {e : Scope × Scope}
  {pairs : List (Scope × Scope)}

theorem announces_of_initialized (h : u.initialized.contains s = true) :
    x.announces u s l pairs = 0 :=
  if_pos h

theorem announces_congr (h : u.initialized.contains s = v.initialized.contains s) :
    x.announces u s l pairs = x.announces v s l pairs := by
  rw [announces, announces, h]

theorem announces_cons_of_ne (h : e.2 ≠ s) :
    x.announces u s l (e :: pairs) = x.announces u s l pairs := by
  rw [announces, announces, List.find?_cons_of_neg (by simpa using h)]

theorem announces_cons_self (h : u.initialized.contains e.2 = false) :
    x.announces u e.2 l (e :: pairs) = x.openSlots.count (e.1, .edge l) := by
  rw [announces, if_neg (by simp [h]), List.find?_cons_of_pos (by simp)]
  rfl

end Snapshot

/-- What a unit resumes of its own concerns nobody else. -/
theorem Turn.steady_resumeOwn (t : Turn γ) (x : Snapshot) :
    t.Moves (Deed.IsSteady t.unit.id) (t.resumeOwn x) :=
  t.moves_resumeOwn x (fun _ h ↦ (Deed.isCalm_raise_own h).isSteady) (fun _ ↦ trivial)
    fun _ _ ↦ trivial

namespace Core

variable {c c' : Core γ} {id k : UnitId} {s : Scope} {l : Label} {exact : Prop} {n n' : Nat}
  {u v : UnitNode γ} {m : Message} {t t' : Turn γ}

namespace TiesAt

/-! ## Resuming -/

theorem resumeRoot (h : TiesAt k s l exact n c t) (x : Snapshot) (e : Scope × Scope)
    (howns : t.unit.owns e.2 = false) (hnew : t.unit.initialized.contains e.2 = false) :
    TiesAt k s l exact (n + if t.unit.id = k ∧ e.2 = s then
      t.unit.surplus s l (x.openSlots.count (e.1, .edge l)) else 0) c (Turn.resumeRoot x t e) := by
  rw [t.resumeRoot_of_new x howns hnew, ← x.count_slotsOf]
  refine h.announce e.2 _ false _ fun hk slot ↦ ?_
  rw [Bool.eq_iff_iff, UnitNode.shares_insert_iff, Bool.or_eq_true, decide_eq_true_iff]
  split
  · rename_i heq
    obtain rfl := heq
    -- A scope that has not been initialised is not kept open.
    have hclosed : t.unit.shares e.2 slot ≠ true := fun hshares ↦ by
      have hinit := Ties.initialized h t.unit (hk ▸ c.units_put_self t.unit) slot hshares
      rw [Std.ExtTreeSet.mem_iff_contains, hnew] at hinit
      exact Bool.false_ne_true hinit
    rw [or_iff_left hclosed, SortedSet.mem_ofList]
    exact (and_iff_right rfl).symm
  · rename_i hne
    rw [or_iff_right fun h ↦ hne h.1]

theorem resumeRoots (h : TiesAt k s l exact n c t) (hforeign : s.owner ≠ k) (x : Snapshot)
    (pairs : List (Scope × Scope)) :
    TiesAt k s l exact
      (n + if t.unit.id = k then t.unit.surplus s l (x.announces t.unit s l pairs) else 0) c
      (pairs.foldl (Turn.resumeRoot x) t) := by
  induction pairs generalizing t n with
  | nil =>
    have hnone : x.announces t.unit s l [] = 0 := ite_self _
    rw [hnone, UnitNode.surplus_zero, ite_self]
    exact h
  | cons e pairs ih =>
    rw [List.foldl_cons]
    by_cases hskip : (t.unit.owns e.2 || t.unit.initialized.contains e.2) = true
    · rw [t.resumeRoot_of_not x hskip]
      -- A scope of others that is passed over has been initialised before.
      have hsame (hk : t.unit.id = k) :
          x.announces t.unit s l (e :: pairs) = x.announces t.unit s l pairs := by
        by_cases hs : e.2 = s
        · obtain rfl := hs
          have howns : t.unit.owns e.2 ≠ true := fun howns ↦
            hforeign ((UnitNode.owns_iff.1 howns).trans hk)
          have hinit := ((Bool.or_eq_true _ _).mp hskip).resolve_left howns
          rw [Snapshot.announces_of_initialized hinit, Snapshot.announces_of_initialized hinit]
        · exact Snapshot.announces_cons_of_ne hs
      have hrest := ih h
      split at hrest
      · rename_i hk
        rwa [if_pos hk, hsame hk]
      · rename_i hk
        rwa [if_neg hk]
    · rw [Bool.or_eq_true, not_or, Bool.not_eq_true, Bool.not_eq_true] at hskip
      obtain ⟨howns, hnew⟩ := hskip
      have hresumed := ih (h.resumeRoot x e howns hnew)
      rw [t.resumeRoot_of_new x howns hnew] at hresumed ⊢
      change TiesAt k s l exact (_ + if t.unit.id = k then (t.unit.takeUp x e).surplus s l
        (x.announces (t.unit.takeUp x e) s l pairs) else 0) c _ at hresumed
      by_cases hk : t.unit.id = k
      · rw [if_pos hk] at hresumed ⊢
        by_cases hs : e.2 = s
        · obtain rfl := hs
          rw [Snapshot.announces_of_initialized UnitNode.contains_takeUp_self, UnitNode.surplus_zero,
            if_pos ⟨hk, rfl⟩] at hresumed
          rw [Snapshot.announces_cons_self hnew]
          exact hresumed
        · rw [if_neg fun h ↦ hs h.2, UnitNode.surplus_takeUp hs,
            Snapshot.announces_congr (UnitNode.contains_takeUp_of_ne hs)] at hresumed
          rw [Snapshot.announces_cons_of_ne hs]
          exact hresumed
      · rw [if_neg hk, if_neg fun h ↦ hk h.1] at hresumed
        rw [if_neg hk]
        exact hresumed

theorem restore (h : TiesAt k s l exact n c t) (hforeign : s.owner ≠ k) (x : Snapshot) :
    TiesAt k s l exact (n + if t.unit.id = k then
      t.unit.surplus s l (x.announces t.unit s l t.unit.rootMoves) else 0) c (t.restore x) := by
  obtain ⟨waits, graph, localGraph, hunit, -⟩ := t.resumeOwn_spec x
  have hroots := (h.steady hforeign (t.steady_resumeOwn x)).resumeRoots hforeign x
    (t.resumeOwn x).unit.rootMoves
  have hended : TiesAt k s l exact _ c (t.restore x) := hroots.calm hforeign
    ((Turn.Moves.refl _).edit (f := fun u ↦ { u with snapshot := some x }) rfl).endLocalPhase
  rw [hunit] at hended
  exact hended

/-! ## Replaying -/

theorem replay (h : TiesAt k s l exact n c t) (hforeign : s.owner ≠ k) (previous : Report)
    (p : Renaming) : TiesAt k s l exact n c (t.replay previous p) := by
  unfold Turn.replay
  extract_lets captured known own counters begun asserted
  have hasserted : t.Moves (Deed.IsSteady t.unit.id) asserted :=
    ((Turn.Moves.refl t).edit (by rfl)).trans
      (begun.moves_assertGraph _ p (fun _ ↦ trivial) fun _ _ ↦ trivial)
  have hgranted : t.Moves (Deed.IsSteady t.unit.id) (asserted.grantAll
      (asserted.unit.waits.entries.filter fun e ↦ e.1.isClosure && e.2 = asserted.unit.id)) :=
    hasserted.grantAll fun e he _ ↦ by
      have hown := (List.mem_filter.1 he).2
      rw [Bool.and_eq_true, decide_eq_true_iff] at hown
      exact hown.2.trans hasserted.id
  exact (h.steady hforeign hgranted).closeShares hforeign

theorem release (h : TiesAt k s l exact n c t) (hforeign : s.owner ≠ k) (p : Renaming) :
    TiesAt k s l exact n c (t.release p) := by
  unfold Turn.release
  split
  · rename_i previous _ _
    extract_lets replayed told settled
    have hreplayed : TiesAt k s l exact n c replayed :=
      (h.calm hforeign ((Turn.Moves.refl t).edit (f := fun u ↦ { u with reuse := some p }) rfl)).replay
        hforeign previous p
    clear_value replayed
    have htold : replayed.Moves (Deed.IsSteady replayed.unit.id) told :=
      (Turn.Moves.refl replayed).enter rfl ⟨nofun, nofun⟩
    have hsettled : replayed.Moves (Deed.IsSteady replayed.unit.id) settled :=
      ((htold.settleActive _).settleDecision _).endLocalPhase
    have hgranted : replayed.Moves (Deed.IsSteady replayed.unit.id)
        (settled.grant .activate settled.unit.id) := hsettled.grant nofun
    exact hreplayed.steady hforeign (hgranted.trans
      (Turn.moves_replaySubUnits _ (fun _ hd ↦ hd.isSteady) fun _ _ hd ↦ hd))
  · exact h

theorem startReplaying (h : TiesAt k s l exact n c t) (hforeign : s.owner ≠ k) :
    TiesAt k s l exact n c t.startReplaying := by
  unfold Turn.startReplaying
  split
  · exact h.calm hforeign (t.moves_fail _)
  · rename_i previous _
    extract_lets p replayed told handed
    have hreplayed : TiesAt k s l exact n c replayed :=
      (h.calm hforeign ((Turn.Moves.refl t).edit (f := fun u ↦ { u with reuse := some p }) rfl)).replay
        hforeign previous p
    clear_value replayed
    have htold : replayed.Moves (Deed.IsSteady replayed.unit.id) told :=
      (Turn.Moves.refl replayed).enter rfl ⟨nofun, nofun⟩
    have hhanded : replayed.Moves (Deed.IsSteady replayed.unit.id) handed :=
      ((htold.settleActive _).settleDecision _).trans
        (Turn.moves_replaySubUnits _ (fun _ hd ↦ hd.isSteady) fun _ _ hd ↦ hd)
    exact hreplayed.steady hforeign (hhanded.edit (by rfl)).tryFinish

theorem startLibrary (h : TiesAt k s l exact n c t) (hforeign : s.owner ≠ k) (lib : Library) :
    TiesAt k s l exact n c (t.startLibrary lib) := by
  unfold Turn.startLibrary
  extract_lets asserted active settled
  have hasserted : t.Moves (Deed.IsSteady t.unit.id) asserted := by
    unfold asserted
    cases lib.bind t.unit.id t.unit.roots with
    | ok bound =>
      exact ((Turn.Moves.refl t).edit (f := fun u ↦
        { u with scopes := bound.1.foldl (fun ss s ↦ ss.insert s) u.scopes }) rfl).trans
          (Turn.moves_assertGraph _ bound.2 .identity (fun _ ↦ trivial) fun _ _ ↦ trivial)
    | error e => exact (Turn.Moves.refl t).edit (by rfl)
  clear_value asserted
  have hactive : t.Moves (Deed.IsSteady t.unit.id) active := hasserted.enter rfl ⟨nofun, nofun⟩
  have hsettled : TiesAt k s l exact n c settled :=
    (h.steady hforeign ((hactive.settleActive _).settleDecision _)).closeShares hforeign
  clear_value settled
  exact hsettled.calm hforeign ((Turn.Moves.refl settled).edit (by rfl)).tryFinish

/-! ## Operations -/

/-- A unit announces nothing. -/
theorem quiet (h : TiesAt k s l exact n c t') {m : Nat} (hm : u.id = k → m = 0) :
    TiesAt k s l exact (n + if u.id = k then u.surplus s l m else 0) c t' := by
  split
  · rename_i hk
    rw [hm hk, UnitNode.surplus_zero]
    exact h
  · exact h

theorem initScope (h : TiesAt k s l exact n c t) (hforeign : s.owner ≠ k) (s' : Scope)
    (labels : List Label) (sharing : Bool) :
    TiesAt k s l exact (n + if t.unit.id = k then t.unit.surplus s l
      ((Action.initScope s' labels sharing).announces t.settings t.unit s l) else 0) c
      (Attempt.initScope s' labels sharing t).2 := by
  rw [Attempt.initScope, Attempt.requireLive_bind]
  by_cases hact : t.unit.mayAct = true
  · rw [if_pos hact, Attempt.unit_bind]
    by_cases hown : t.unit.owns s' = true
    · rw [if_pos hown]
      have hinit := h.calm hforeign (t.moves_shareInitialized _ s' (labels.map .edge) sharing
        (fun _ ↦ ⟨rfl, UnitNode.owns_iff.1 hown⟩) trivial fun _ ↦ rfl)
      refine hinit.quiet fun hk ↦ if_neg fun heq ↦ hforeign ?_
      rw [← heq.2]
      exact (UnitNode.owns_iff.1 hown).trans hk
    · rw [if_neg hown]
      have hkept := h.keepOpen s' (labels.map .edge) sharing
      by_cases hs : s' = s
      · have hannounced : (Action.initScope s' labels sharing).announces t.settings t.unit s l =
            (labels.map Slot.edge).count (.edge l) := by
          rw [List.count_map_of_injective labels Slot.edge (fun _ _ heq ↦ Slot.edge.inj heq)]
          exact if_pos ⟨hact, hs⟩
        obtain rfl := hs
        rw [hannounced]
        simp only [and_true] at hkept
        exact hkept
      · rw [if_neg fun heq ↦ hs heq.2] at hkept
        exact hkept.quiet fun _ ↦ if_neg fun heq ↦ hs heq.2
  · rw [if_neg hact]
    exact h.quiet fun _ ↦ if_neg fun heq ↦ hact heq.1

theorem closeLabel (h : TiesAt k s l exact n c t) (hforeign : s.owner ≠ k) (s' : Scope)
    (l' : Label) : TiesAt k s l exact n c (Attempt.closeLabel s' l' t).2 := by
  rw [Attempt.closeLabel, Attempt.requireLive_bind]
  split
  · rw [Attempt.unit_bind]
    split
    · exact h.calm hforeign ((Turn.Moves.refl t).grant fun _ ↦ rfl)
    · split
      · rename_i hopen
        exact h.dropShared hforeign hopen
      · exact h
  · exact h

theorem askForReuse (h : TiesAt k s l exact n c t) (hforeign : s.owner ≠ k) :
    TiesAt k s l exact (n + if t.unit.id = k then t.unit.surplus s l
      (Action.askForReuse.announces t.settings t.unit s l) else 0) c
      (Attempt.askForReuse t).2 := by
  rw [Attempt.askForReuse, Attempt.unit_bind, Attempt.require_bind]
  by_cases hphase : t.unit.phase = .started
  · rw [if_pos (decide_eq_true hphase), Attempt.get_bind]
    by_cases hmay : Attempt.mayReuse t.settings t.unit = true
    · have hannounced : Action.askForReuse.announces t.settings t.unit s l =
          (t.unit.previous.bind Report.snapshot).elim 0 fun x ↦
            x.announces t.unit s l t.unit.rootMoves :=
        if_pos ⟨hphase, hmay⟩
      rw [if_pos hmay, Attempt.change_bind, hannounced]
      have hundecided : TiesAt k s l exact n c (t.edit fun u ↦ { u with phase := .undecided }) :=
        h.deed hforeign (d := .hesitate) trivial
      cases t.unit.previous.bind Report.snapshot with
      | none => exact (hundecided.calm hforeign ((Turn.Moves.refl _).spawn _)).quiet fun _ ↦ rfl
      | some x =>
        exact (hundecided.restore hforeign x).calm hforeign ((Turn.Moves.refl _).spawn _)
    · rw [if_neg hmay]
      exact (h.calm hforeign (t.moves_restart .initiallyStarted)).quiet fun _ ↦
        if_neg fun heq ↦ hmay heq.2
  · rw [if_neg fun h ↦ hphase (decide_eq_true_iff.1 h)]
    exact h.quiet fun _ ↦ if_neg fun heq ↦ hphase heq.1

/-- What a checker does. -/
theorem attempt (h : TiesAt k s l exact n c t) (hforeign : s.owner ≠ k) (a : Action γ α) :
    TiesAt k s l exact (n + if t.unit.id = k then
      t.unit.surplus s l (a.announces t.settings t.unit s l) else 0) c (a.attempt t).2 := by
  have hsteady {x : Attempt γ α} (hdoes : x.Does (Deed.IsSteady t.unit.id) t.unit.id) :
      TiesAt k s l exact (n + if t.unit.id = k then t.unit.surplus s l 0 else 0) c (x t).2 :=
    (h.steady hforeign (hdoes t rfl)).quiet fun _ ↦ rfl
  have hcalm {x : Attempt γ α} (hdoes : x.Does (Deed.IsCalm t.unit.id) t.unit.id) :
      TiesAt k s l exact (n + if t.unit.id = k then t.unit.surplus s l 0 else 0) c (x t).2 :=
    (h.calm hforeign (hdoes t rfl)).quiet fun _ ↦ rfl
  cases a with
  | freshScope base labels hasDatum sharing =>
    exact hcalm (Attempt.does_freshScope base labels hasDatum sharing)
  | initScope s' labels sharing => exact h.initScope hforeign s' labels sharing
  | shareScope s' => exact hcalm (Attempt.does_shareScope s')
  | setDatum s' d => exact hsteady (Attempt.does_setDatum s' d trivial fun _ ↦ rfl)
  | addEdge e => exact hsteady (Attempt.does_addEdge e (fun _ hd ↦ hd.isSteady) trivial)
  | closeLabel s' l' => exact (h.closeLabel hforeign s' l').quiet fun _ ↦ rfl
  | closeScope s' => exact hcalm (Attempt.does_closeScope s')
  | beginQuery path => exact hcalm (Attempt.does_beginQuery path)
  | addSubUnit name kind roots changed =>
    exact hsteady (Attempt.does_addSubUnit name kind roots changed (fun _ hd ↦ hd.isSteady)
      fun _ hd _ ↦ hd)
  | askForReuse => exact h.askForReuse hforeign

/-- What happens to a unit without force. -/
theorem run (h : TiesAt k s l exact n c t) (hforeign : s.owner ≠ k) (op : UnitOp γ α)
    (hop : op.IsProper) (hforced : ¬ op.IsForced) :
    TiesAt k s l exact (n + if t.unit.id = k then
      t.unit.surplus s l (op.announces t.settings t.unit s l) else 0) c (op.run t).2 := by
  have hcalm {t' : Turn γ} (hmoves : t.Moves (Deed.IsCalm t.unit.id) t') :
      TiesAt k s l exact (n + if t.unit.id = k then t.unit.surplus s l 0 else 0) c t' :=
    (h.calm hforeign hmoves).quiet fun _ ↦ rfl
  cases op with
  | act a => exact h.attempt hforeign a
  | begin state =>
    exact hcalm ((Turn.Moves.refl t).edit
      (f := fun u ↦ { u with begun := true, checkerState := state }) rfl)
  | keepState state =>
    exact hcalm ((Turn.Moves.refl t).edit (f := fun u ↦ { u with checkerState := some state }) rfl)
  | eagerStart => exact hcalm t.moves_eagerStart
  | checkerFinished result => exact hcalm (t.moves_checkerFinished result)
  | awaitDecided => exact hcalm t.moves_awaitDecided
  | awaitClosed s' slot => exact hcalm (t.moves_awaitClosed s' slot)
  | awaitOpen => exact hcalm t.moves_awaitOpen
  | awaitDecision => exact hcalm t.moves_awaitDecision
  | awaitReport => exact hcalm t.moves_awaitReport
  | ask q => exact hcalm (t.moves_ask q)
  | endAsking ticket => exact hcalm (t.moves_endAsking ticket fun hclosure ↦ absurd hclosure hop)
  | endQuery token record => exact hcalm (t.moves_endQuery token record fun _ ↦ rfl)
  | matchStep s' => exact hcalm (t.moves_matchStep s')
  | diffScope s' labels => exact hcalm (t.moves_diffScope s' labels)
  | handle m => exact hop.elim
  | subUnitFinished r => exact hcalm (t.moves_subUnitFinished r)
  | release p => exact (h.release hforeign p).quiet fun _ ↦ rfl
  | restart trace => exact hcalm (t.moves_restart trace)
  | endLocalPhase => exact hcalm t.moves_captureEnd
  | grantClosures | failStuck => exact absurd trivial hforced

end TiesAt

/-! ## Messages -/

namespace Ties

variable {mail : Mailboxes Message}

/-- Before a unit does something, what holds of tokens holds at the unit. -/
theorem at_of_some (h : Ties k s l exact n c [] []) (hu : c.units[id]? = some u) (ht : t.unit = u)
    (hnewUnits : t.effects.newUnits = []) (hmessages : t.effects.messages = []) :
    TiesAt k s l exact n c t := by
  obtain rfl := h.housed.filed id u hu
  have hunits : (c.put u).units = c.units := by
    refine Std.ExtTreeMap.ext_getElem? fun j ↦ ?_
    rw [units_put]
    split
    · rename_i heq
      exact heq ▸ hu.symm
    · rfl
  rw [TiesAt, ht, hnewUnits, hmessages]
  exact h.other hunits rfl

/-- A unit takes a message out of its mailbox, and counts on what the message says. -/
theorem absorbed (h : Ties k s l exact n c [] []) (hb : c.Becomes u v c')
    (htakes : c.mail.Takes u.id m mail) (hmail : c'.mail = mail) (hshared : v.shared = u.shared)
    (hinit : v.initialized = u.initialized) (htally : v.waits.tally = u.waits.tally.after m) :
    Ties k s l exact n c' [] [] := by
  have hshares (slot : Slot) : v.shares s slot = u.shares s slot := by
    rw [UnitNode.shares, hshared]
    rfl
  refine ⟨(h.housed.takes htakes).insert (c := { c with mail := mail }) hb.old hb.units hb.id hmail,
    List.forall_mem_nil _, fun w hw slot hslot ↦ ?_, ?_⟩
  · obtain ⟨rfl, rfl⟩ | hold := hb.cases hw
    · rw [hinit]
      exact h.initialized u hb.old slot (hshares slot ▸ hslot)
    · exact h.initialized w hold slot hslot
  · have hheld : c'.held k s l = c.held k s l := by
      by_cases hk : u.id = k
      · obtain rfl := hk
        rw [held_of_some hb.self, held_of_some hb.old, hshares]
      · rw [held, held, hb.others hk]
    rw [expected, hb.balance_takes htakes hmail htally, hheld]
    exact h.meets

/-- Messages that do not start a unit. -/
theorem handle (h : Ties k s l exact n c [] []) (hu : c.units[id]? = some u)
    (htakes : c.mail.Takes id m mail) (hm : m.roots? = none) (ht : t.unit = u)
    (hnewUnits : t.effects.newUnits = []) (hmessages : t.effects.messages = []) :
    TiesAt k s l exact n { c with mail := mail } (t.handle m) := by
  obtain rfl := h.housed.filed id u hu
  obtain rfl := ht
  have hmoves : t.Moves Deed.IsPrivate (t.handle m) := t.moves_handle hm
  have hkeeps : t.Keeps (t.handle m) := hmoves.keeps
  have hb : c.Becomes t.unit (t.handle m).unit
      (({ c with mail := mail } : Core γ).put (t.handle m).unit) :=
    becomes_put hu rfl rfl hkeeps.id hkeeps.kind hkeeps.phase
  rw [TiesAt, hkeeps.newUnits, hkeeps.messages, hnewUnits, hmessages]
  exact h.absorbed hb htakes rfl hkeeps.shared (hmoves.initialized fun _ hd ↦ hd)
    (t.tally_handle hm)

/-- A unit starts. -/
theorem start (h : Ties k s l exact n c [] []) (hforeign : s.owner ≠ k)
    (hu : c.units[id]? = some u) {roots : List Scope} (htakes : c.mail.Takes id (.start roots) mail)
    (ht : t.unit = u) (hnewUnits : t.effects.newUnits = []) (hmessages : t.effects.messages = []) :
    TiesAt k s l exact n { c with mail := mail } (t.start roots) := by
  obtain rfl := h.housed.filed id u hu
  obtain rfl := ht
  unfold Turn.start
  split
  · rw [TiesAt, hnewUnits, hmessages]
    exact h.absorbed (becomes_put hu rfl rfl rfl rfl fun _ ↦ rfl) htakes rfl rfl rfl rfl
  · extract_lets begun told
    have hbegun : TiesAt k s l exact n { c with mail := mail } begun := by
      rw [TiesAt, show begun.effects.newUnits = [] from hnewUnits,
        show begun.effects.messages = [] from hmessages]
      exact h.absorbed (becomes_put hu rfl rfl rfl rfl fun heq ↦ heq.elim nofun nofun) htakes rfl
        rfl rfl rfl
    have htold : TiesAt k s l exact n { c with mail := mail } told := by
      unfold told
      split
      · exact hbegun.sendOther not_false
      · exact hbegun
    clear_value told
    split
    · exact htold.calm hforeign (((Turn.Moves.refl told).waitFor trivial).spawn _)
    · exact htold.startReplaying hforeign
    · exact htold.calm hforeign told.moves_startRemoved
    · exact htold.startLibrary hforeign _

/-- What a unit has done is carried out. -/
theorem carryOut (u : UnitNode γ) (op : UnitOp γ α)
    (h : TiesAt k s l exact n c (op.run ⟨u, .none, c.setup.settings, c.channels, c.nextRequest⟩).2) :
    Ties k s l exact n (c.carryOut id u op) [] [] := by
  have hunits : (c.turn u op).2.2.units = (c.put
      (op.run ⟨u, .none, c.setup.settings, c.channels, c.nextRequest⟩).2.unit).units := by
    rw [units_turn, put, op.id_run]
  exact applyEffects id _ (Ties.other h hunits (c.mail_turn u op))

/-- Messages to units that do not exist are dropped. None of them is missed as long as none is the
news of a scope that is shared. -/
theorem dropped (h : Ties k s l exact n c [] []) (hforeign : s.owner ≠ k)
    (hunits : c'.units = c.units) (hmail : c'.mail = c.mail.dropParked.2)
    (hshares : exact → ∀ id, ∀ m ∈ c.mail.parkedFor id, ¬ m.IsShare) :
    Ties k s l exact n c' [] [] := by
  have hbox : c'.coming [] s.owner = c.mail.box s.owner := by
    rw [coming_nil, hmail, Mailboxes.queue, Mailboxes.parkedFor_dropParked, List.append_nil]
    rfl
  have hheld : c'.held k s l = c.held k s l := by rw [held, held, hunits]
  have htally : c'.tally s.owner = c.tally s.owner := by rw [tally, tally, hunits]
  refine ⟨h.housed.dropped hunits hmail, List.forall_mem_nil _,
    fun u hu ↦ h.initialized u (hunits ▸ hu), ?_⟩
  have hmeets := h.meets
  rw [expected, balance, coming_nil, Mailboxes.queue] at hmeets
  rw [expected, balance, htally, hbox, hheld]
  cases howner : c.units[s.owner]? with
  | some o =>
    rwa [h.housed.parked s.owner o howner, List.append_nil] at hmeets
  | none =>
    have hnone : (c.tally s.owner).through [] k s l = ⟨0, 0⟩ := by
      rw [tally, howner]
      rfl
    rw [h.housed.box s.owner howner] at hmeets ⊢
    rw [hnone]
    refine ⟨Nat.zero_le _, fun hexact ↦ ?_⟩
    have hless := (Tally.through_atMost s.owner (c.tally s.owner) (hshares hexact s.owner) k
      (Ne.symm hforeign) s l).2
    have hzero : (c.tally s.owner k s l).opens = 0 := congrArg _ hnone
    rw [hzero, Nat.le_zero] at hless
    exact hless.symm.trans (hmeets.eq hexact)

end Ties

/-- Before a unit has been started, nothing is kept open. -/
theorem ties_start (setup : Setup) (root : UnitId) (code : γ) (previous : Option Report) (k : UnitId)
    (s : Scope) (l : Label) (exact : Prop) :
    Ties k s l exact 0 (start setup root code previous) [] [] := by
  have hnew {u : UnitNode γ} (hu : (start setup root code previous).units[k]? = some u)
      (slot : Slot) : u.shares s slot = false := by
    obtain ⟨-, rfl⟩ := units_start_eq_some_iff.1 hu
    rfl
  have hheld : (start setup root code previous).held k s l = 0 := by
    cases hk : (start setup root code previous).units[k]? with
    | none =>
      rw [held, hk]
      rfl
    | some u =>
      rw [held_of_some hk, hnew hk]
      rfl
  have htally : ((start setup root code previous).tally s.owner k s l).opens = 0 := by
    rw [tally]
    cases howner : (start setup root code previous).units[s.owner]? with
    | none => rfl
    | some u =>
      obtain ⟨-, rfl⟩ := units_start_eq_some_iff.1 howner
      rfl
  have hexpected : (start setup root code previous).expected [] k s l = 0 := by
    rw [expected, balance, Tally.opens_through_of_not_isNews, htally]
    intro m hm
    change m ∈ (Mailboxes.empty.enqueue root (Message.start [])).box s.owner ++ [] ++ [] at hm
    rw [Mailboxes.box_enqueue, List.append_nil, List.append_nil] at hm
    split at hm
    · rw [List.mem_singleton.1 hm]
      exact not_false
    · exact absurd hm List.not_mem_nil
  refine ⟨housed_start _ _ _ _, List.forall_mem_nil _, fun u hu slot hslot ↦ ?_, ?_⟩
  · exact absurd hslot (hnew hu slot ▸ Bool.false_ne_true)
  · rw [hexpected, hheld]
    exact ⟨Nat.le_refl _, fun _ ↦ rfl⟩

/-! ## Courses -/

/-- What happens without force to units and messages. -/
theorem Move.ties {o : Occurrence γ} (hmove : Move c o c') (h : Ties k s l exact n c [] [])
    (hforeign : s.owner ≠ k) (hproper : o.IsProper) (hforced : ¬ o.IsForced)
    (hloses : exact → ¬ o.LosesShares) :
    Ties k s l exact (n + o.surplus c.setup.settings k s l) c' [] [] := by
  cases hmove with
  | @acted id u hu _ op _ =>
    have hturn : TiesAt k s l exact n c
        ⟨u, .none, c.setup.settings, c.channels, c.nextRequest⟩ := h.at_of_some hu rfl rfl rfl
    exact .carryOut u op (hturn.run hforeign op hproper hforced)
  | @handled id u hu m mail htakes =>
    refine .carryOut u (.handle m) ?_
    cases m with
    | start roots => exact h.start hforeign hu htakes rfl rfl rfl
    | unitStarted | initShare | addShare | addEdge | closeEdge | closeScope | query |
      queryPrevious | confirm | counterpart => exact h.handle hu htakes rfl rfl rfl rfl
  | dropped hunits hsetup hmail =>
    exact h.dropped hforeign hunits hmail fun hexact id m hm hshares ↦
      hloses hexact ⟨id, m, hm, hshares⟩
  | other hunits hsetup hmail => exact h.other hunits hmail

theorem Course.ties {tr : List (Occurrence γ × Core γ)} (hcourse : Course c tr c')
    (h : Ties k s l exact n c [] []) (hforeign : s.owner ≠ k)
    (htr : ∀ x ∈ tr, x.1.IsProper ∧ ¬ x.1.IsForced)
    (hloses : exact → ∀ x ∈ tr, ¬ x.1.LosesShares) :
    Ties k s l exact (n + (tr.map fun x ↦ x.1.surplus c.setup.settings k s l).sum) c' [] [] := by
  induction hcourse generalizing n with
  | nil => exact h
  | cons hmove _ ih =>
    obtain ⟨⟨hproper, hforced⟩, htr⟩ := List.forall_mem_cons.1 htr
    have hnext := hmove.ties h hforeign hproper hforced fun hexact ↦
      (List.forall_mem_cons.1 (hloses hexact)).1
    have hrest := ih hnext htr fun hexact ↦ (List.forall_mem_cons.1 (hloses hexact)).2
    rw [hmove.setup] at hrest
    rwa [List.map_cons, List.sum_cons, ← Nat.add_assoc]

/-- **What closing leaves behind.** In every course without force, however a unit has initialised
a scope of another unit, resumed it, added edges to it, closed labels of it and closed it, once the
owner of the scope has handled all news of the unit: the owner holds one token for a label towards
the unit if the unit keeps the label open, and besides at most one for every announcement of the
label that was made while the label was open already. If no news was dropped before the owner
existed, it holds exactly as many. -/
theorem Course.count_closeSlot {setup : Setup} {root : UnitId} {code : γ} {previous : Option Report}
    {tr : List (Occurrence γ × Core γ)} (hcourse : Course (start setup root code previous) tr c)
    (htr : ∀ x ∈ tr, x.1.IsProper ∧ ¬ x.1.IsForced) (hforeign : s.owner ≠ k)
    (hu : c.units[k]? = some u) (hv : c.units[s.owner]? = some v)
    (hheard : ∀ m ∈ c.mail.box s.owner, ¬ m.IsNews k) (l : Label) :
    v.waits.count (.closeSlot s (.edge l)) k ≤ (u.shares s (.edge l)).toNat +
        (tr.map fun x ↦ x.1.surplus setup.settings k s l).sum ∧
      ((∀ x ∈ tr, ¬ x.1.LosesShares) →
        v.waits.count (.closeSlot s (.edge l)) k = (u.shares s (.edge l)).toNat +
          (tr.map fun x ↦ x.1.surplus setup.settings k s l).sum) := by
  have hties := hcourse.ties
    (ties_start setup root code previous k s l (∀ x ∈ tr, ¬ x.1.LosesShares)) hforeign htr id
  have hmeets := hties.meets
  have hcount : c.expected [] k s l = v.waits.count (.closeSlot s (.edge l)) k := by
    rw [expected, balance, coming_nil, Mailboxes.queue, hties.housed.parked s.owner v hv,
      List.append_nil, Tally.opens_through_of_not_isNews hheard, tally_of_some hv]
    rfl
  rw [hcount, held_of_some hu, Nat.zero_add] at hmeets
  exact ⟨hmeets.le, hmeets.eq⟩

/-! ### Labels announced twice -/

private def desk : UnitId := ⟨"main"⟩

private def patron : UnitId := desk.child "sub"

private def onLoan : Scope := ⟨desk, "s-0"⟩

/-- A run that is about to begin. -/
private def inStock : Core Unit := start ⟨.nonIncremental, ["E"], 0⟩ desk () none

/-- The main unit has handed a scope to a sub-unit, which has been started. -/
private def handedOut : Core Unit :=
  ((inStock.receives.acts desk (.freshScope "s" [] false true)).acts desk
    (.addSubUnit "sub" (.checker ()) [onLoan] false)).receives

/-- The sub-unit has initialised the scope twice, and closed its label. -/
private def givenBack : Core Unit :=
  ((handedOut.acts patron (.initScope onLoan ["E"] false)).acts patron
    (.initScope onLoan ["E"] false)).acts patron (.closeLabel onLoan "E")

/-- The main unit has heard of all of this. -/
private def checkedIn : Core Unit := givenBack.receives.receives.receives.receives

private theorem leadsTo_checkedIn :
    LeadsTo (fun o ↦ o.IsProper ∧ ¬ o.IsForced ∧ ¬ o.LosesShares) inStock checkedIn := by
  let Quiet (o : Occurrence Unit) : Prop := o.IsProper ∧ ¬ o.IsForced ∧ ¬ o.LosesShares
  have hfine : True ∧ ¬ False ∧ ¬ False := ⟨trivial, not_false, not_false⟩
  have hmade : LeadsTo Quiet inStock _ := ((LeadsTo.refl inStock).receives (by decide +kernel)
    (by decide +kernel) hfine).acts desk (.freshScope "s" [] false true) (by decide +kernel) hfine
  have hhanded : LeadsTo Quiet inStock handedOut := (hmade.acts desk
    (.addSubUnit "sub" (.checker ()) [onLoan] false) (by decide +kernel)
      ⟨nofun, not_false, not_false⟩).receives (by decide +kernel) (by decide +kernel) hfine
  have hback : LeadsTo Quiet inStock givenBack := ((hhanded.acts patron
    (.initScope onLoan ["E"] false) (by decide +kernel) hfine).acts patron
      (.initScope onLoan ["E"] false) (by decide +kernel) hfine).acts patron
        (.closeLabel onLoan "E") (by decide +kernel) hfine
  have hheard : LeadsTo Quiet inStock givenBack.receives.receives :=
    (hback.receives (by decide +kernel) (by decide +kernel) hfine).receives (by decide +kernel)
      (by decide +kernel) hfine
  exact (hheard.receives (by decide +kernel) (by decide +kernel) hfine).receives
    (by decide +kernel) (by decide +kernel) hfine

/-- The label is closed and no message on its way, and still the main unit waits. -/
private theorem checkedIn_waits : checkedIn.units.contains desk = true ∧
    checkedIn.units.contains patron = true ∧
    (checkedIn.resident patron).shares onLoan (.edge "E") = false ∧
    (checkedIn.mail.box desk).isEmpty = true ∧
    (checkedIn.resident desk).waits.count (.closeSlot onLoan (.edge "E")) patron = 1 := by
  decide +kernel

/-- The sub-unit keeps nothing open and its messages have been handled, and still the main unit waits
for it, as it announced the label once too often. -/
theorem Course.count_closeSlot_checkedIn : ∃ tr : List (Occurrence Unit × Core Unit),
    Course inStock tr checkedIn ∧ (checkedIn.resident patron).shares onLoan (.edge "E") = false ∧
      (checkedIn.mail.box desk).isEmpty = true ∧
      (checkedIn.resident desk).waits.count (.closeSlot onLoan (.edge "E")) patron = 1 ∧
      (tr.map fun x ↦ x.1.surplus .nonIncremental patron onLoan "E").sum = 1 := by
  obtain ⟨tr, hcourse, htr⟩ := leadsTo_checkedIn
  obtain ⟨hlender, hborrower, hclosed, hempty, hwaits⟩ := checkedIn_waits
  have hcount := (hcourse.count_closeSlot (s := onLoan) (k := patron)
    (fun x hx ↦ ⟨(htr x hx).1, (htr x hx).2.1⟩) (by decide) (resident_eq hborrower)
    (resident_eq hlender) (fun m hm ↦ absurd (List.isEmpty_iff.1 hempty ▸ hm) List.not_mem_nil)
    "E").2 fun x hx ↦ (htr x hx).2.2
  rw [hclosed, Bool.toNat_false, Nat.zero_add] at hcount
  exact ⟨tr, hcourse, hclosed, hempty, hwaits, hcount.symm.trans hwaits⟩

/-- **Closing is not always heard.** A unit may keep a label of another unit's scope closed and have
said so, and still the owner of the scope waits for it to be closed. -/
theorem not_always_heard : ¬ ∀ (setup : Setup) (root : UnitId) (c : Core Unit) tr,
    Course (start setup root () none) tr c → (∀ x ∈ tr, x.1.IsProper ∧ ¬ x.1.IsForced) →
      ∀ (k : UnitId) (s : Scope) (l : Label) (u v : UnitNode Unit), s.owner ≠ k →
        c.units[k]? = some u → c.units[s.owner]? = some v → u.shares s (.edge l) = false →
          (∀ m ∈ c.mail.box s.owner, ¬ m.IsNews k) →
            v.waits.count (.closeSlot s (.edge l)) k = 0 := by
  intro h
  obtain ⟨tr, hcourse, htr⟩ := leadsTo_checkedIn
  obtain ⟨hlender, hborrower, hclosed, hempty, hwaits⟩ := checkedIn_waits
  have hnone := h _ desk checkedIn tr hcourse (fun x hx ↦ ⟨(htr x hx).1, (htr x hx).2.1⟩)
    patron onLoan "E" _ _ (by decide) (resident_eq hborrower) (resident_eq hlender) hclosed
    (fun m hm ↦ absurd (List.isEmpty_iff.1 hempty ▸ hm) List.not_mem_nil)
  exact absurd (hwaits.symm.trans hnone) Nat.one_ne_zero

end Core

end ScopeGraphs
