import ScopeGraphs.Proofs.Mentions
import ScopeGraphs.Proofs.Units.Inheriting
import ScopeGraphs.Proofs.Units.Living
import ScopeGraphs.Proofs.Units.Recording

/-!
# Serving a library

A unit that serves a library does everything when it is started: it binds the library to its root
scopes and asserts the graph that it gets, it closes what it keeps open on scopes of others, and it
has a result at once (`UnitNode.Serves`). From then on it has nothing to do but to take in what
others assert on its scopes and to answer questions, so this never changes
(`UnitNode.Serves.run`).
-/

namespace ScopeGraphs

variable {γ α : Type}

/-- A unit has not been started, and it has come to nothing yet. -/
structure UnitNode.IsIdle (u : UnitNode γ) : Prop where
  phase : u.phase = .created
  outcome : u.outcome = none
  localGraph : u.localGraph = .empty

/-- A unit has been started to serve a library with some root scopes. If the library could be bound
to them, the unit has asserted the bound graph and nothing else. -/
structure UnitNode.Serves (u : UnitNode γ) (lib : Library) (roots : List Scope) : Prop where
  phase : u.phase = .active ∨ u.phase = .done
  outcome : u.outcome.isSome = true
  localGraph : ∀ own graph, lib.bind u.id roots = .ok (own, graph) → u.localGraph = graph

namespace Turn

variable {t : Turn γ} {lib : Library} {own : List Scope} {graph : ScopeGraph}

/-- How a unit that serves a library ends, once it has asserted the graph. -/
private def endServing (t : Turn γ) : Turn γ :=
  let active := t.edit fun u ↦ { u with phase := .active }
  let settled := ((active.settleActive .running).settleDecision none).closeShares
  (settled.edit fun u ↦ { u with outcome := some none }).tryFinish

private theorem localGraph_endServing (t : Turn γ) :
    t.endServing.unit.localGraph = t.unit.localGraph := by
  unfold endServing
  extract_lets active settled
  have hactive : t.Moves Deed.IsSilent active := (Moves.refl t).enter rfl ⟨nofun, nofun⟩
  have hsettled : t.Moves Deed.IsSilent settled :=
    ((hactive.settleActive _).settleDecision _).trans
      ((moves_closeShares _).mono fun d (h : d.IsDiscreet t.unit.id) ↦ h.isSilent)
  clear_value settled
  have hended : t.Moves Deed.IsSilent
      (settled.edit fun u ↦ { u with outcome := some none }).tryFinish :=
    (hsettled.edit (by rfl)).tryFinish
  exact hended.records.localGraph

private theorem phase_endServing (t : Turn γ) :
    (t.endServing.unit.phase = .active ∨ t.endServing.unit.phase = .done) ∧
      t.endServing.unit.outcome.isSome = true := by
  unfold endServing
  extract_lets active settled
  have hsettled : settled.unit.phase = .active := by
    have hclosed : ((active.settleActive .running).settleDecision none).Stays settled :=
      (Stays.refl _).closeShares
    have hlife := hclosed.life
    rw [life_settleDecision, life_settleActive] at hlife
    exact congrArg Life.phase hlife
  clear_value settled
  have hended := (UnitNode.Abides.refl
    (settled.edit fun u ↦ { u with outcome := some none }).unit).tryFinish
  refine ⟨?_, by rw [hended.outcome]; rfl⟩
  obtain hsame | ⟨hdone, -⟩ := hended.phase
  · exact .inl (hsame.trans hsettled)
  · exact .inr hdone

theorem localGraph_assertGraph (hlocal : t.unit.localGraph = .empty) (g : ScopeGraph) :
    (t.assertGraph g .identity).unit.localGraph = g := by
  rw [(t.records_assertGraph .identity g).localGraph, hlocal, ScopeGraph.extend_empty]
  exact g.rename_identity

/-- A unit that has not asserted anything serves its library as soon as it is started. -/
theorem serves_startLibrary (hlocal : t.unit.localGraph = .empty) :
    (t.startLibrary lib).unit.Serves lib t.unit.roots := by
  obtain ⟨asserted, heq, hgraph⟩ : ∃ asserted : Turn γ, t.startLibrary lib = asserted.endServing ∧
      ∀ own graph, lib.bind t.unit.id t.unit.roots = .ok (own, graph) →
        asserted.unit.localGraph = graph := by
    unfold startLibrary
    cases lib.bind t.unit.id t.unit.roots with
    | error e => exact ⟨_, rfl, nofun⟩
    | ok bound =>
      refine ⟨_, rfl, fun own graph hbind ↦ ?_⟩
      obtain rfl := Except.ok.inj hbind
      let stocked : Turn γ :=
        t.edit fun u ↦ { u with scopes := own.foldl (fun ss s ↦ ss.insert s) u.scopes }
      exact localGraph_assertGraph (t := stocked) hlocal graph
  have hmoves : t.Moves (Deed.IsApart t.unit.id) (t.startLibrary lib) := t.moves_startLibrary lib
  obtain ⟨hphase, houtcome⟩ := asserted.phase_endServing
  refine ⟨heq ▸ hphase, heq ▸ houtcome, fun own graph hbind ↦ ?_⟩
  rw [heq, localGraph_endServing]
  exact hgraph own graph (hmoves.id ▸ hbind)

theorem serves_start (hidle : t.unit.IsIdle) (hkind : t.unit.kind = .library lib)
    (roots : List Scope) : (t.start roots).unit.Serves lib roots := by
  unfold start
  rw [if_neg (not_not.2 hidle.phase)]
  extract_lets begun told
  obtain ⟨hkind', hlocal, hroots⟩ : told.unit.kind = .library lib ∧
      told.unit.localGraph = .empty ∧ told.unit.roots = roots := by
    unfold told
    split <;> exact ⟨hkind, hidle.localGraph, rfl⟩
  clear_value told
  rw [hkind', ← hroots]
  exact serves_startLibrary hlocal

end Turn

namespace UnitNode

variable {u : UnitNode γ} {lib : Library} {roots : List Scope}

theorem Serves.started (h : u.Serves lib roots) : u.phase ≠ .created := by
  obtain heq | heq := h.phase <;> simp [heq]

/-- What a unit has that serves a library does not change, whatever happens to it. -/
theorem Serves.run (h : u.Serves lib roots) (hkind : u.kind.isChecker = false) (op : UnitOp γ α)
    (hop : op.IsOrderly u) (settings : Settings) (channels : Channels Parcel) (request : Nat) :
    (op.run ⟨u, .none, settings, channels, request⟩).2.unit.Serves lib roots := by
  have hphase : u.phase ≠ .started ∧ u.phase ≠ .undecided := by
    obtain heq | heq := h.phase <;> simp [heq]
  have habides := op.abides_run (t := ⟨u, .none, settings, channels, request⟩) hop hkind hphase
    (fun _ ↦ h.outcome) fun hcreated ↦ absurd hcreated h.started
  refine ⟨?_, habides.outcome ▸ h.outcome, fun own graph hbind ↦ ?_⟩
  · obtain hsame | ⟨hdone, -⟩ := habides.phase
    · exact hsame.symm ▸ h.phase
    · exact .inr hdone
  · rw [habides.localGraph]
    exact h.localGraph own graph (op.id_run ⟨u, .none, settings, channels, request⟩ ▸ hbind)

/-- A unit that is not told to start stays idle. -/
theorem IsIdle.run (h : u.IsIdle) (hkind : u.kind.isChecker = false) (op : UnitOp γ α)
    (hop : op.IsOrderly u) (hroots : op.roots? = none) (settings : Settings)
    (channels : Channels Parcel) (request : Nat) :
    (op.run ⟨u, .none, settings, channels, request⟩).2.unit.IsIdle := by
  have habides := op.abides_run (t := ⟨u, .none, settings, channels, request⟩) hop hkind
    (by simp [h.phase]) (fun hne ↦ absurd h.phase hne) fun _ ↦ hroots
  refine ⟨?_, habides.outcome.trans h.outcome, habides.localGraph.trans h.localGraph⟩
  obtain hsame | ⟨-, houtcome⟩ := habides.phase
  · exact hsame.trans h.phase
  · exact absurd (h.outcome ▸ houtcome) nofun

end UnitNode

end ScopeGraphs
