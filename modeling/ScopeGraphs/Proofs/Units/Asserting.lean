import ScopeGraphs.Proofs.Contents
import ScopeGraphs.Units.Life

/-!
# What a unit writes without asking

A unit asserts whole graphs when it replays or resumes its previous run and when it serves a
library. On its own scopes this adds the graph to its fragment, whether a slot is open or not;
assertions on scopes of other units leave the fragment alone.
-/

namespace ScopeGraphs

variable {γ : Type}

theorem UnitNode.owns_iff {u : UnitNode γ} {s : Scope} : u.owns s = true ↔ s.owner = u.id :=
  decide_eq_true_iff

namespace Turn

variable (t : Turn γ) (p : Renaming)

/-- Asserting edges changes nothing but graphs, and adds those on scopes of the unit itself to its
fragment. -/
theorem foldl_assertEdge (es : List Edge) :
    ∃ graph localGraph,
      (es.foldl (fun t e ↦ t.assertEdge (e.rename p)) t).unit =
        { t.unit with graph := graph, localGraph := localGraph } ∧
      graph.data = t.unit.graph.data ∧
      ∀ e : Edge, e.source.owner = t.unit.id →
        (e ∈ graph.edges ↔ (∃ e' ∈ es, e'.rename p = e) ∨ e ∈ t.unit.graph.edges) := by
  induction es generalizing t with
  | nil => exact ⟨t.unit.graph, t.unit.localGraph, rfl, rfl, by simp⟩
  | cons a es ih =>
    obtain ⟨graph, localGraph, hunit, hdata, hedges⟩ := ih (t.assertEdge (a.rename p))
    have hassert : (t.assertEdge (a.rename p)).unit =
        { t.unit with
          graph := if t.unit.owns (a.rename p).source then t.unit.graph.addEdge (a.rename p)
            else t.unit.graph
          localGraph := t.unit.localGraph.addEdge (a.rename p) } := by
      unfold assertEdge
      cases t.unit.owns (a.rename p).source <;> rfl
    -- Edges of foreign scopes do not enter the fragment, so nothing is said about them.
    rw [hassert] at hunit hdata hedges
    refine ⟨graph, localGraph, hunit, hdata.trans (by split <;> rfl), fun e hown ↦ ?_⟩
    have hcons : (∃ e' ∈ a :: es, e'.rename p = e) ↔
        a.rename p = e ∨ ∃ e' ∈ es, e'.rename p = e := by simp
    rw [hedges e hown, hcons, or_assoc, or_left_comm]
    refine or_congr_right ?_
    dsimp only
    split
    · rw [ScopeGraph.mem_edges_addEdge, eq_comm]
    · rename_i hforeign
      refine (or_iff_right ?_).symm
      rintro rfl
      exact hforeign (UnitNode.owns_iff.2 hown)

/-- Asserting data changes nothing but graphs, and enters those of scopes of the unit itself into
its fragment, one after the other. -/
theorem foldl_assertDatum (ds : List (Scope × Datum)) :
    ∃ graph localGraph,
      (ds.foldl (fun t e ↦ t.assertDatum (p.apply e.1) (e.2.rename p)) t).unit =
        { t.unit with graph := graph, localGraph := localGraph } ∧
      graph.edges = t.unit.graph.edges ∧
      ∀ s : Scope, s.owner = t.unit.id →
        graph.data[s]? = ((ds.map fun e ↦ (p.apply e.1, e.2.rename p)).foldl
          (fun m e ↦ m.insert e.1 e.2) t.unit.graph.data)[s]? := by
  induction ds generalizing t with
  | nil => exact ⟨t.unit.graph, t.unit.localGraph, rfl, rfl, fun _ _ ↦ rfl⟩
  | cons a ds ih =>
    obtain ⟨graph, localGraph, hunit, hedges, hdata⟩ :=
      ih (t.assertDatum (p.apply a.1) (a.2.rename p))
    have hassert : (t.assertDatum (p.apply a.1) (a.2.rename p)).unit =
        { t.unit with
          graph := if t.unit.owns (p.apply a.1) then
              t.unit.graph.setDatum (p.apply a.1) (a.2.rename p)
            else t.unit.graph
          localGraph := t.unit.localGraph.setDatum (p.apply a.1) (a.2.rename p) } := by
      unfold assertDatum
      cases t.unit.owns (p.apply a.1) <;> rfl
    rw [hassert] at hunit hedges hdata
    refine ⟨graph, localGraph, hunit, hedges.trans (by split <;> rfl), fun s hown ↦ ?_⟩
    rw [hdata s hown, List.map_cons, List.foldl_cons, SortedMap.getElem?_foldl_insert,
      SortedMap.getElem?_foldl_insert]
    congr 1
    split
    · rfl
    · rename_i hforeign
      rw [SortedMap.getElem?_insert_eq, if_neg]
      rintro rfl
      exact hforeign (UnitNode.owns_iff.2 hown)

/-- Asserting a graph changes nothing but graphs; on scopes of the unit itself, its fragment becomes
the union with the renamed graph. -/
theorem assertGraph_spec (g : ScopeGraph) :
    ∃ graph localGraph,
      (t.assertGraph g p).unit = { t.unit with graph := graph, localGraph := localGraph } ∧
      ∀ s : Scope, s.owner = t.unit.id → ∀ slot,
        graph.AgreeAt (t.unit.graph.union (g.rename p)) s slot := by
  obtain ⟨graph₁, localGraph₁, hunit₁, hdata₁, hedges₁⟩ := t.foldl_assertEdge p g.edges.toList
  obtain ⟨graph₂, localGraph₂, hunit₂, hedges₂, hdata₂⟩ :=
    foldl_assertDatum (g.edges.toList.foldl (fun t e ↦ t.assertEdge (e.rename p)) t) p g.data.toList
  rw [hunit₁] at hunit₂ hedges₂ hdata₂
  refine ⟨graph₂, localGraph₂, hunit₂, fun s hown slot ↦ ?_⟩
  refine ScopeGraph.agreeAt_of (fun l t' _ ↦ ?_) fun _ ↦ ?_
  · rw [hedges₂, hedges₁ _ hown, ScopeGraph.mem_edges_union, ScopeGraph.mem_edges_rename]
    simp only [Std.ExtTreeSet.mem_toList]
  · rw [hdata₂ s hown, SortedMap.getElem?_foldl_insert, hdata₁]
    exact (ScopeGraph.datum?_union (g := t.unit.graph) (h := g.rename p) (s := s)).symm

end Turn

end ScopeGraphs
