import ScopeGraphs.Proofs.Paths

/-!
# What a graph holds in a slot

A query reads a scope graph slot by slot: the targets of a scope under a label, or its datum. Two
graphs that agree in a slot cannot be told apart there. The lemmas say what a slot holds after a
graph has grown, be it edge by edge or by another graph as a whole.
-/

namespace ScopeGraphs

variable {g h k : ScopeGraph} {s : Scope}

namespace ScopeGraph

/-- Two graphs hold the same in a slot of a scope. -/
def AgreeAt (g h : ScopeGraph) (s : Scope) : Slot → Prop
  | .datum => g.datum? s = h.datum? s
  | .edge l => g.targets s l = h.targets s l

theorem AgreeAt.refl (g : ScopeGraph) (s : Scope) (slot : Slot) : g.AgreeAt g s slot := by
  cases slot <;> rfl

theorem AgreeAt.symm {slot : Slot} (hgh : g.AgreeAt h s slot) : h.AgreeAt g s slot := by
  cases slot <;> exact Eq.symm hgh

theorem AgreeAt.trans {slot : Slot} (hgh : g.AgreeAt h s slot) (hhk : h.AgreeAt k s slot) :
    g.AgreeAt k s slot := by
  cases slot <;> exact Eq.trans hgh hhk

/-! ## Reading -/

/-- Targets are listed in the order of the edges, so two graphs with the same edges under a label
list the same targets. -/
theorem targets_congr {l : Label}
    (hmem : ∀ t, (⟨s, l, t⟩ : Edge) ∈ g.edges ↔ ⟨s, l, t⟩ ∈ h.edges) :
    g.targets s l = h.targets s l := by
  have htargets (g : ScopeGraph) : g.targets s l =
      (g.edges.toList.filter fun e ↦ e.source = s ∧ e.label = l).map Edge.target := by
    rw [targets, ← List.filterMap_eq_map, List.filterMap_filter]
    simp
  rw [htargets, htargets, SortedSet.filter_toList_congr]
  rintro ⟨a, l', t⟩ he
  obtain ⟨rfl, rfl⟩ := of_decide_eq_true he
  exact hmem t

/-- The scopes of a graph are the ends of its edges and the scopes with a datum. -/
theorem mem_scopes : s ∈ g.scopes ↔
    (∃ e ∈ g.edges, s = e.source ∨ s = e.target) ∨ s ∈ g.data := by
  rw [scopes, SortedSet.mem_ofList, List.mem_append, List.mem_flatMap, Std.ExtTreeMap.mem_keys]
  simp only [Std.ExtTreeSet.mem_toList, List.mem_cons, List.not_mem_nil, or_false]

/-- Slot by slot, two graphs agree when they have the same edges and the same datum there. -/
theorem agreeAt_of {slot : Slot}
    (hedges : ∀ l t, slot = .edge l → ((⟨s, l, t⟩ : Edge) ∈ g.edges ↔ ⟨s, l, t⟩ ∈ h.edges))
    (hdatum : slot = .datum → g.data[s]? = h.data[s]?) : g.AgreeAt h s slot := by
  cases slot with
  | datum => exact hdatum rfl
  | edge l => exact targets_congr fun t ↦ hedges l t rfl

/-! ## Growing -/

theorem mem_edges_addEdge {e e' : Edge} : e' ∈ (g.addEdge e).edges ↔ e' = e ∨ e' ∈ g.edges :=
  SortedSet.mem_insert_iff

theorem mem_edges_union {e : Edge} : e ∈ (g.union h).edges ↔ e ∈ h.edges ∨ e ∈ g.edges := by
  rw [union, SortedSet.mem_foldl_insert, Std.ExtTreeSet.mem_toList]

theorem datum?_union : (g.union h).datum? s = (h.datum? s).or (g.datum? s) := by
  rw [datum?, union, SortedMap.getElem?_foldl_insert, SortedMap.ofList_toList]
  rfl

theorem mem_edges_rename {p : Renaming} {e : Edge} :
    e ∈ (g.rename p).edges ↔ ∃ e' ∈ g.edges, e'.rename p = e := by
  rw [rename, of, SortedSet.mem_ofList, List.mem_map]
  simp only [Std.ExtTreeSet.mem_toList]

/-- An edge somewhere else changes nothing in a slot. -/
theorem agreeAt_addEdge {e : Edge} {slot : Slot} (hne : ¬ (e.source = s ∧ slot = .edge e.label)) :
    (g.addEdge e).AgreeAt g s slot := by
  refine agreeAt_of (fun l t hslot ↦ ?_) fun _ ↦ rfl
  rw [mem_edges_addEdge, or_iff_right]
  rintro rfl
  exact hne ⟨rfl, hslot⟩

/-- A datum somewhere else changes nothing in a slot. -/
theorem agreeAt_setDatum {s' : Scope} {d : Datum} {slot : Slot} (hne : ¬ (s' = s ∧ slot = .datum)) :
    (g.setDatum s' d).AgreeAt g s slot := by
  refine agreeAt_of (fun _ _ _ ↦ Iff.rfl) fun hslot ↦ ?_
  rw [setDatum, SortedMap.getElem?_insert_eq, if_neg fun heq ↦ hne ⟨heq, hslot⟩]

/-- Adding an edge is adding the graph with just this edge. -/
theorem agreeAt_addEdge_union {e : Edge} {slot : Slot} :
    (g.addEdge e).AgreeAt (g.union (.of [e] [])) s slot := by
  refine agreeAt_of (fun l t _ ↦ ?_) fun _ ↦ ?_
  · rw [mem_edges_addEdge, mem_edges_union, of, SortedSet.mem_ofList, List.mem_singleton]
  · have hdatum : (g.union (.of [e] [])).datum? s = g.datum? s := datum?_union.trans rfl
    exact hdatum.symm

theorem agreeAt_union_empty {slot : Slot} : (g.union .empty).AgreeAt g s slot := by
  refine agreeAt_of (fun l t _ ↦ ?_) fun _ ↦ datum?_union.trans rfl
  rw [mem_edges_union]
  exact or_iff_right Std.ExtTreeSet.not_mem_empty

end ScopeGraph

end ScopeGraphs
