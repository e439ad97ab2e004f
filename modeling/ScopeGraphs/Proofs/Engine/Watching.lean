import ScopeGraphs.Proofs.Engine.Courses
import ScopeGraphs.Proofs.Units.Reporting

/-!
# What the detector of deadlocks sees

The detector keeps a graph of who waits for whom, apart from the units, and is told about changes
only after a unit has been changed. Between two steps of the engine nothing is left to be told: the
edges of every unit are the tokens that it holds, each as often, and only units that exist have
edges (`Engine.Reachable.perm_entries`). So the clusters that the detector finds are those of the
units as they stand.

What is kept by every single operation, with everything that follows from it, is `Core.Watched`. It
needs that units are filed under their ids, since a unit reports under its own id, and that there
are no edges of units that do not exist, since a unit that is added finds its edges already there.
-/

namespace ScopeGraphs

variable {γ α : Type}

namespace Core

/-- The detector knows what the units wait for. -/
structure Watched (c : Core γ) : Prop where
  filed : c.Filed
  mirrors : ∀ (id : UnitId) (u : UnitNode γ), c.units[id]? = some u →
    c.detector.graph.Mirrors id u.waits
  known : ∀ e ∈ c.detector.graph.edges, ∃ u, c.units[e.waiter]? = some u

theorem watched_start (setup : Setup) (root : UnitId) (code : γ) (previous : Option Report) :
    (start setup root code previous).Watched where
  filed := filed_start setup root code previous
  mirrors id u hu := by
    obtain ⟨-, rfl⟩ := units_start_eq_some_iff.1 hu
    intro token holder
    rfl
  known _ he := absurd he List.not_mem_nil

variable {c c' : Core γ} {id : UnitId} {u : UnitNode γ}

theorem foldl_noteWait (c : Core γ) (id : UnitId) (es : List WaitEvent) :
    (es.foldl (noteWait id) c).units = c.units ∧
      (es.foldl (noteWait id) c).detector.graph =
        es.foldl (WaitGraph.note · id) c.detector.graph := by
  induction es generalizing c with
  | nil => exact ⟨rfl, rfl⟩
  | cons e es ih =>
    obtain ⟨hunits, hgraph⟩ := ih (c.noteWait id e)
    have hnoted : (c.noteWait id e).detector.graph = c.detector.graph.note id e := by
      cases e <;> rfl
    exact ⟨hunits.trans (c.units_noteWait id e).1, hgraph.trans (by rw [hnoted, List.foldl_cons])⟩

theorem foldl_post (c : Core γ) (ms : List (UnitId × Message)) :
    (ms.foldl post c).units = c.units ∧ (ms.foldl post c).detector = c.detector := by
  induction ms generalizing c with
  | nil => exact ⟨rfl, rfl⟩
  | cons m ms ih => exact ih (c.post m)

theorem detector_addUnit (c : Core γ) (u : UnitNode γ) : (c.addUnit u).detector = c.detector := by
  rw [addUnit]
  split <;> rfl

namespace Watched

theorem other (h : c.Watched) (hunits : c'.units = c.units)
    (hgraph : c'.detector.graph = c.detector.graph) : c'.Watched where
  filed id u hu := h.filed id u (hunits ▸ hu)
  mirrors id u hu := hgraph ▸ h.mirrors id u (hunits ▸ hu)
  known e he := hunits ▸ h.known e (hgraph ▸ he)

/-- A unit has been changed, and its reports have been taken down. -/
theorem reported (h : c.Watched) {u' : UnitNode γ} {es : List WaitEvent} (hid : u'.id = id)
    (hunits : c'.units = c.units.insert id u')
    (hgraph : c'.detector.graph = es.foldl (WaitGraph.note · id) c.detector.graph)
    (hmirrors : c'.detector.graph.Mirrors id u'.waits) : c'.Watched := by
  have hunit {id' : UnitId} {v : UnitNode γ} (hv : c'.units[id']? = some v) :
      id = id' ∧ u' = v ∨ id ≠ id' ∧ c.units[id']? = some v :=
    SortedMap.getElem?_insert_eq_some_iff.1 (hunits ▸ hv)
  refine ⟨h.filed.insert hunits hid, fun id' v hv ↦ ?_, fun e he ↦ ?_⟩
  · obtain ⟨rfl, rfl⟩ | ⟨hne, hv⟩ := hunit hv
    · exact hmirrors
    · intro token holder
      rw [hgraph, WaitGraph.count_foldl_note_of_ne (Ne.symm hne)]
      exact h.mirrors id' v hv token holder
  · rw [hunits, SortedMap.getElem?_insert_eq]
    split
    · exact ⟨_, rfl⟩
    · rename_i hne
      rw [hgraph] at he
      exact h.known e ((WaitGraph.mem_edges_foldl_note he).resolve_left (Ne.symm hne))

/-- A unit is added that waits for nothing. -/
theorem joined (h : c.Watched) (hu : u.waits = .empty) : (c.addUnit u).Watched := by
  refine ⟨h.filed.addUnit u, fun id v hv ↦ ?_, fun e he ↦ ?_⟩
  · rw [detector_addUnit]
    obtain hv | ⟨hnew, -, rfl⟩ := units_addUnit_eq_some_iff.1 hv
    · exact h.mirrors id v hv
    · -- Only units that exist have edges, so the graph has none of the one that is added.
      intro token holder
      rw [hu, TokenBag.count_empty, List.count_eq_zero]
      intro hmem
      obtain ⟨w, hw⟩ := h.known _ hmem
      exact absurd (hw.symm.trans hnew) nofun
  · rw [detector_addUnit] at he
    obtain ⟨v, hv⟩ := h.known e he
    exact ⟨v, units_addUnit_eq_some_iff.2 (.inl hv)⟩

theorem foldl_joined (h : c.Watched) {us : List (UnitNode γ)}
    (hus : ∀ u ∈ us, u.waits = .empty) : (us.foldl addUnit c).Watched := by
  induction us generalizing c with
  | nil => exact h
  | cons u us ih =>
    exact ih (h.joined (hus u List.mem_cons_self)) fun v hv ↦ hus v (List.mem_cons_of_mem _ hv)

/-- **The detector keeps up.** After an operation on a unit, with the units added and the messages
sent, the detector knows again what the units wait for. -/
theorem carryOut (h : c.Watched) (hu : c.units[id]? = some u) (op : UnitOp γ α) :
    (c.carryOut id u op).Watched := by
  obtain rfl : u.id = id := h.filed id u hu
  have hreports := op.reports ⟨u, .none, c.setup.settings, c.channels, c.nextRequest⟩
  obtain ⟨es, hes, hmirrors⟩ := hreports.waits
  obtain ⟨us, hus, hblank⟩ := hreports.newUnits
  have hevents : (c.turn u op).2.1.waits = es := hes
  have hnew : (c.turn u op).2.1.newUnits = us := hus
  rw [Core.carryOut, applyEffects, hevents, hnew]
  -- The reports concern the unit at hand; units that join have nothing to report.
  have hnoted : (es.foldl (noteWait u.id) (c.turn u op).2.2).Watched := by
    obtain ⟨hunits, hgraph⟩ := foldl_noteWait (c.turn u op).2.2 u.id es
    rw [detector_turn] at hgraph
    rw [units_turn] at hunits
    refine h.reported hreports.id hunits hgraph ?_
    rw [hgraph]
    exact hmirrors _ (h.mirrors _ u hu)
  have hjoined := hnoted.foldl_joined hblank
  obtain ⟨hunits, hdetector⟩ := foldl_post (us.foldl addUnit
    (es.foldl (noteWait u.id) (c.turn u op).2.2)) (c.turn u op).2.1.messages
  exact hjoined.other hunits (congrArg Detector.graph hdetector)

end Watched

/-- Whatever happens in runs, the detector keeps up. -/
theorem admits_watched : Admits (fun _ _ ↦ True) fun c c' : Core γ ↦ c.Watched → c'.Watched where
  own _ := trivial
  refl _ h := h
  trans h h' hc := h' (h hc)
  other hunits _ _ hgraph h := h.other hunits hgraph
  acted hu _ h := h.carryOut hu _
  handled {c _ _ m mail} hu _ h :=
    Watched.carryOut (c := { c with mail := mail }) (h.other rfl rfl) hu (.handle m)
  missed _ _ h := h.other rfl rfl
  dropped hunits _ _ hgraph h := h.other hunits hgraph

end Core

/-! ## Between two steps of the engine -/

variable {b : Behaviour γ} {setup : Setup} {root : UnitId} {code : γ} {previous : Option Report}
  {e : Engine γ}

theorem Engine.Reachable.watched (he : e.Reachable b setup root code previous) : e.core.Watched :=
  Core.admits_watched.reachable (fun _ _ ↦ Proc.uses_of_forall (fun _ ↦ trivial) _) he
    (Core.watched_start setup root code previous)

/-- **The detector never drifts from the units.** In every state between two steps of the engine,
whatever the checkers do, the edges of the wait-for graph whose waiter is a given unit are the
entries of the bag of that unit, each as often, and the waiter of every edge is a unit that
exists. -/
theorem Engine.Reachable.perm_entries (he : e.Reachable b setup root code previous) :
    (∀ (id : UnitId) (u : UnitNode γ), e.core.units[id]? = some u → u.id = id ∧
      ((e.core.detector.graph.edges.filter fun w ↦ w.waiter = id).map fun w ↦
        (w.resource, w.holder)).Perm u.waits.entries) ∧
    ∀ w ∈ e.core.detector.graph.edges, ∃ u, e.core.units[w.waiter]? = some u :=
  ⟨fun id u hu ↦ ⟨he.watched.filed id u hu, (he.watched.mirrors id u hu).perm_edges⟩,
    he.watched.known⟩

private def loneId : UnitId := ⟨"root"⟩

private def loneSetup : Setup := ⟨.nonIncremental, [], 0⟩

private def idleChecker : Behaviour Unit := ⟨fun _ _ _ ↦ .never, fun _ d ↦ .ok d⟩

/-- A run after its first step: the root unit has been told to start. -/
private def afterStart : Engine Unit :=
  ((⟨Core.start loneSetup loneId () none, ∅⟩ : Engine Unit).work idleChecker).2

/-- A unit that has been told to start waits for its own activation, and the detector knows it. -/
theorem Engine.Reachable.perm_entries_started :
    ∃ u, afterStart.core.units[loneId]? = some u ∧
      [(Token.activate, loneId)].Perm u.waits.entries := by
  have hreachable : afterStart.Reachable idleChecker loneSetup loneId () none := .work .start
  obtain ⟨u, hu⟩ : ∃ u, afterStart.core.units[loneId]? = some u :=
    Option.isSome_iff_exists.1 (by rfl)
  exact ⟨u, hu, (hreachable.perm_entries.1 loneId u hu).2⟩

end ScopeGraphs
