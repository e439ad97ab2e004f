import Mathlib.Data.Set.Card
import ScopeGraphs.Proofs.Graph.Nesting

/-!
# The algebra of merging

Merging two scope graphs unites their edges, and where both have a datum for a scope, that of the
second stays. The laws follow from reading alone, since graphs are equal when they hold the same:
merging is associative and idempotent, the graph without edges and data is neutral, and the order
of two graphs matters only where their data contradict each other.

Graphs kept by source and label are merged one edge and one datum after the other, or not at all if
the second is empty. As what comes out is another form of what merging scope graphs gives
(`NestedGraph.flat_extend`), the laws carry over.
-/

namespace ScopeGraphs

/-! ## Scope graphs -/

namespace ScopeGraph

variable {g h k : ScopeGraph}

/-- Graphs with the same edges and data are equal. -/
theorem ext_contents (hedges : ∀ e, e ∈ g.edges ↔ e ∈ h.edges)
    (hdata : ∀ s, g.datum? s = h.datum? s) : g = h := by
  cases g
  cases h
  exact congrArg₂ ScopeGraph.mk (Std.ExtTreeSet.ext_mem hedges) (Std.ExtTreeMap.ext_getElem? hdata)

theorem not_mem_edges_empty (e : Edge) : e ∉ ScopeGraph.empty.edges :=
  Std.ExtTreeSet.not_mem_empty

theorem datum?_empty (s : Scope) : ScopeGraph.empty.datum? s = none :=
  Std.ExtTreeMap.getElem?_empty

theorem union_assoc : (g.union h).union k = g.union (h.union k) := by
  refine ext_contents (fun e ↦ ?_) fun s ↦ ?_
  · rw [mem_edges_union, mem_edges_union, mem_edges_union, mem_edges_union, or_assoc]
  · rw [datum?_union, datum?_union, datum?_union, datum?_union, Option.or_assoc]

theorem union_self : g.union g = g := by
  refine ext_contents (fun e ↦ ?_) fun s ↦ ?_
  · rw [mem_edges_union, or_self]
  · rw [datum?_union, Option.or_self]

theorem union_empty : g.union .empty = g := by
  refine ext_contents (fun e ↦ ?_) fun s ↦ ?_
  · rw [mem_edges_union, or_iff_right (not_mem_edges_empty e)]
  · rw [datum?_union, datum?_empty, Option.none_or]

theorem empty_union : ScopeGraph.empty.union g = g := by
  refine ext_contents (fun e ↦ ?_) fun s ↦ ?_
  · rw [mem_edges_union, or_iff_left (not_mem_edges_empty e)]
  · rw [datum?_union, datum?_empty, Option.or_none]

/-- Two values can be taken in either order unless both are there and differ. -/
private theorem or_comm_iff {α : Type*} {a b : Option α} :
    a.or b = b.or a ↔ ∀ x y, a = some x → b = some y → x = y := by
  cases a <;> cases b <;> simp

theorem union_comm_iff : g.union h = h.union g ↔
    ∀ s d d', g.datum? s = some d → h.datum? s = some d' → d = d' := by
  have hdatum (s : Scope) : (g.union h).datum? s = (h.union g).datum? s ↔
      ∀ d d', g.datum? s = some d → h.datum? s = some d' → d = d' := by
    rw [datum?_union, datum?_union, eq_comm, or_comm_iff]
  constructor
  · intro heq s
    exact (hdatum s).1 (by rw [heq])
  · intro hagree
    refine ext_contents (fun e ↦ ?_) fun s ↦ (hdatum s).2 (hagree s)
    rw [mem_edges_union, mem_edges_union, or_comm]

theorem isEmpty_iff : g.isEmpty = true ↔ g = .empty := by
  rw [isEmpty, Bool.and_eq_true, Std.ExtTreeSet.isEmpty_iff, Std.ExtTreeMap.isEmpty_iff]
  cases g
  exact (ScopeGraph.mk.injEq ..).symm ▸ Iff.rfl

theorem mem_labelsOf {s : Scope} {l : Label} :
    l ∈ g.labelsOf s ↔ ∃ t, (⟨s, l, t⟩ : Edge) ∈ g.edges := by
  rw [labelsOf, Std.ExtTreeSet.mem_toList, SortedSet.mem_ofList, List.mem_filterMap]
  simp only [Std.ExtTreeSet.mem_toList, Option.ite_none_right_eq_some, Option.some.injEq]
  constructor
  · rintro ⟨e, he, rfl, rfl⟩
    exact ⟨e.target, he⟩
  · rintro ⟨t, ht⟩
    exact ⟨_, ht, rfl, rfl⟩

/-- The edges are counted one by one. -/
theorem edgeCount_eq_ncard : g.edgeCount = {e | e ∈ g.edges}.ncard := by
  have hset : {e | e ∈ g.edges} = ↑g.edges.toList.toFinset := by
    ext e
    rw [List.coe_toFinset, Set.mem_ofPred_eq, Set.mem_ofPred_eq, Std.ExtTreeSet.mem_toList]
  rw [hset, Set.ncard_coe_finset, List.toFinset_card_of_nodup g.edges.nodup_toList,
    Std.ExtTreeSet.length_toList, edgeCount]

end ScopeGraph

/-! ## Graphs kept by source and label -/

namespace NestedGraph

variable {g h k : NestedGraph} {s : Scope} {l : Label} {e : Edge}

theorem flat_empty : empty.flat = .empty := rfl

theorem isEmpty_iff : g.isEmpty = true ↔ g = .empty := by
  rw [isEmpty, Bool.and_eq_true, Std.ExtTreeMap.isEmpty_iff, Std.ExtTreeMap.isEmpty_iff]
  cases g
  exact (NestedGraph.mk.injEq ..).symm ▸ Iff.rfl

theorem flat_extend : (g.extend h).flat = g.flat.union h.flat := by
  rw [extend]
  split
  · rename_i hempty
    rw [isEmpty_iff.1 hempty, flat_empty, ScopeGraph.union_empty]
  · rw [flat_foldl_setDatum, flat_foldl_addEdge, foldl_addEdge_data]
    refine congrArg₂ ScopeGraph.mk (Std.ExtTreeSet.ext_mem fun e ↦ ?_) rfl
    rw [SortedSet.mem_foldl_insert, SortedSet.mem_foldl_insert, Std.ExtTreeSet.mem_toList, flat,
      flat, SortedSet.mem_ofList, SortedSet.mem_ofList]

theorem hasEdge_extend : (g.extend h).HasEdge e ↔ h.HasEdge e ∨ g.HasEdge e := by
  rw [← mem_edges_flat, flat_extend, ScopeGraph.mem_edges_union, mem_edges_flat, mem_edges_flat]

theorem data_extend : (g.extend h).data[s]? = (h.data[s]?).or g.data[s]? := by
  change (g.extend h).flat.datum? s = _
  rw [flat_extend, ScopeGraph.datum?_union]
  rfl

/-! ## Reading -/

theorem edgeCount_flat : g.flat.edgeCount = g.edgeCount := by
  rw [edgeCount, ScopeGraph.edgeCount, SortedSet.size_eq_length g.nodup_edgeList]
  intro e
  rw [mem_edges_flat, mem_edgeList]

theorem scopes_flat : g.flat.scopes = g.scopes := by
  refine Std.ExtTreeSet.ext_mem fun s ↦ ?_
  rw [scopes, ScopeGraph.mem_scopes, SortedSet.mem_ofList, List.mem_append, List.mem_flatMap,
    Std.ExtTreeMap.mem_keys]
  simp only [mem_edges_flat, mem_edgeList, List.mem_cons, List.not_mem_nil, or_false]
  rfl

/-- A label has an entry only if there is an edge under it. -/
theorem IsTight.mem_labels (hg : g.IsTight) : l ∈ g.labels s ↔ ∃ t, g.HasEdge ⟨s, l, t⟩ := by
  rw [labels, Std.ExtTreeMap.mem_keys, Std.ExtTreeMap.mem_iff_isSome_getElem?]
  change _ ↔ ∃ t, t ∈ g.targetsAt s l
  rw [targetsAt]
  cases hl : (g.labelsAt s)[l]? with
  | none => simp
  | some targets =>
    have hne : targets ≠ ∅ := fun heq ↦ hg.targets_ne s l (by rw [hl, heq])
    rw [Ne, Std.ExtTreeSet.eq_empty_iff_forall_not_mem, not_forall_not] at hne
    simpa using hne

theorem IsTight.labels_eq (hg : g.IsTight) : g.labels s = g.flat.labelsOf s := by
  refine SortedSet.eq_of_pairwise_lt Std.ExtTreeMap.ordered_keys Std.ExtTreeSet.ordered_toList ?_
  intro l
  rw [hg.mem_labels, ScopeGraph.mem_labelsOf]
  simp only [mem_edges_flat]

theorem IsTight.isEmpty_eq (hg : g.IsTight) : g.isEmpty = g.flat.isEmpty := by
  rw [Bool.eq_iff_iff, isEmpty_iff, ScopeGraph.isEmpty_iff, hg.eq_iff_flat_eq isTight_empty,
    flat_empty]

/-! ## The laws -/

/-- A graph that holds the edges of two graphs, and the data of the second before those of the
first. -/
structure IsUnion (g h k : NestedGraph) : Prop where
  edges : ∀ e, k.HasEdge e ↔ g.HasEdge e ∨ h.HasEdge e
  data : ∀ s : Scope, k.data[s]? = (h.data[s]?).or g.data[s]?

/-- A graph of which every reading is the one of its edges and data. -/
structure IsReadable (g : NestedGraph) : Prop where
  edgeCount : g.edgeCount = {e | g.HasEdge e}.ncard
  scopes : ∀ s, s ∈ g.scopes ↔ (∃ e, g.HasEdge e ∧ (s = e.source ∨ s = e.target)) ∨ s ∈ g.data
  labels : ∀ s l, l ∈ g.labels s ↔ ∃ t, g.HasEdge ⟨s, l, t⟩
  nodup_labels : ∀ s, (g.labels s).Nodup
  isEmpty : g.isEmpty = true ↔ (∀ e, ¬ g.HasEdge e) ∧ ∀ s, s ∉ g.data

theorem flat_eq_iff : g.flat = h.flat ↔
    (∀ e, g.HasEdge e ↔ h.HasEdge e) ∧ ∀ s : Scope, g.data[s]? = h.data[s]? := by
  simp only [← mem_edges_flat]
  constructor
  · intro heq
    refine ⟨fun e ↦ by rw [heq], fun s ↦ ?_⟩
    change g.flat.datum? s = h.flat.datum? s
    rw [heq]
  · rintro ⟨hedges, hdata⟩
    exact ScopeGraph.ext_contents hedges hdata

theorem isUnion_extend : IsUnion g h (g.extend h) :=
  ⟨fun _ ↦ hasEdge_extend.trans or_comm, fun _ ↦ data_extend⟩

theorem IsUnion.flat_eq (hk : IsUnion g h k) : k.flat = (g.extend h).flat :=
  flat_eq_iff.2 ⟨fun e ↦ (hk.edges e).trans (isUnion_extend.edges e).symm,
    fun s ↦ (hk.data s).trans (isUnion_extend.data s).symm⟩

theorem IsTight.isReadable (hg : g.IsTight) : g.IsReadable where
  edgeCount := by
    rw [← edgeCount_flat, ScopeGraph.edgeCount_eq_ncard]
    simp only [mem_edges_flat]
  scopes s := by
    rw [← scopes_flat, ScopeGraph.mem_scopes]
    simp only [mem_edges_flat]
    rfl
  labels s l := hg.mem_labels
  nodup_labels s := SortedSet.nodup_of_pairwise_lt Std.ExtTreeMap.ordered_keys
  isEmpty := by
    rw [isEmpty_iff, hg.eq_iff_flat_eq isTight_empty, flat_eq_iff]
    refine and_congr (forall_congr' fun e ↦ ?_) (forall_congr' fun s ↦ ?_)
    · exact iff_false_right (ScopeGraph.not_mem_edges_empty e ∘ mem_edges_flat.2)
    · rw [Std.ExtTreeMap.mem_iff_isSome_getElem?, Option.not_isSome_iff_eq_none]
      exact Iff.rfl

/-- **Merging is union.** Of graphs that have been built, merging two gives exactly what holds the
edges of both and, for each scope, the datum of the second or, if it has none, of the first. It is
associative and idempotent, the empty graph is neutral on both sides, and the order does not matter
exactly if the two agree on every scope for which both have a datum. What is read from a graph
follows from its edges and data. Scope graphs with their edges in one set are the same thing in
another form, one graph for each, with the same merging and the same readings. -/
theorem merging_laws (hg : g.Made) (hh : h.Made) (hk : k.Made) :
    (∀ m : NestedGraph, m.Made → (IsUnion g h m ↔ m = g.extend h)) ∧
    (g.extend h).extend k = g.extend (h.extend k) ∧
    (g.extend g = g ∧ g.extend .empty = g ∧ NestedGraph.empty.extend g = g) ∧
    (g.extend h = h.extend g ↔
      ∀ (s : Scope) (d d' : Datum), g.data[s]? = some d → h.data[s]? = some d' → d = d') ∧
    g.IsReadable ∧
    ((g.extend h).flat = g.flat.union h.flat ∧ g.flat.edgeCount = g.edgeCount ∧
      g.flat.scopes = g.scopes ∧ (∀ s, g.flat.labelsOf s = g.labels s) ∧
      g.flat.isEmpty = g.isEmpty) ∧
    ∀ G : ScopeGraph, ∃! m : NestedGraph, m.Made ∧ m.flat = G := by
  have hgh : (g.extend h).Made := hg.extend hh
  refine ⟨fun m hm ↦ ⟨fun hunion ↦ ?_, ?_⟩, ?_, ⟨?_, ?_, ?_⟩, ?_, hg.isTight.isReadable,
    ⟨flat_extend, edgeCount_flat, scopes_flat, fun _ ↦ hg.isTight.labels_eq.symm,
      hg.isTight.isEmpty_eq.symm⟩, fun G ↦ ?_⟩
  · exact (hm.eq_iff_flat_eq hgh).2 hunion.flat_eq
  · rintro rfl
    exact isUnion_extend
  · rw [(hgh.extend hk).eq_iff_flat_eq (hg.extend (hh.extend hk))]
    simp only [flat_extend]
    exact ScopeGraph.union_assoc
  · rw [(hg.extend hg).eq_iff_flat_eq hg, flat_extend]
    exact ScopeGraph.union_self
  · rw [(hg.extend .empty).eq_iff_flat_eq hg, flat_extend]
    exact ScopeGraph.union_empty
  · rw [(Made.empty.extend hg).eq_iff_flat_eq hg, flat_extend]
    exact ScopeGraph.empty_union
  · rw [hgh.eq_iff_flat_eq (hh.extend hg), flat_extend, flat_extend]
    exact ScopeGraph.union_comm_iff
  · refine ⟨nest G, ⟨made_nest G, flat_nest G⟩, ?_⟩
    rintro m ⟨hm, rfl⟩
    exact hm.isTight.nest_flat.symm

/-- The fragment of a unit: an edge to a scope of another unit, and a datum. -/
private def fragment (owner other label : String) : NestedGraph :=
  (empty.addEdge ⟨⟨⟨owner⟩, "1"⟩, label, ⟨⟨other⟩, "1"⟩⟩).setDatum ⟨⟨owner⟩, "1"⟩ (.text owner)

private theorem made_fragment (owner other label : String) : (fragment owner other label).Made :=
  (Made.empty.addEdge _).setDatum _ _

/-- The fragments of different units can be merged in either order. -/
theorem merging_laws_fragments :
    ((fragment "a" "b" "E").Made ∧ (fragment "b" "a" "P").Made) ∧
    (fragment "a" "b" "E").extend (fragment "b" "a" "P") =
      (fragment "b" "a" "P").extend (fragment "a" "b" "E") := by
  have ha := made_fragment "a" "b" "E"
  have hb := made_fragment "b" "a" "P"
  refine ⟨⟨ha, hb⟩, (merging_laws ha hb .empty).2.2.2.1.2 fun s d d' hd hd' ↦ ?_⟩
  simp only [fragment, setDatum, addEdge, empty, SortedMap.getElem?_insert_eq] at hd hd'
  split at hd
  · rename_i heq
    rw [← heq, if_neg (by decide)] at hd'
    exact absurd hd' (by simp)
  · exact absurd hd (by simp)

end NestedGraph

end ScopeGraphs
