import Mathlib.Data.List.Nodup
import ScopeGraphs.Proofs.Contents

/-!
# Edges by source and label

A scope graph keeps its edges in one set. They can also be kept in nested maps, the targets of an
edge in a set that is found by its source and its label (`NestedGraph`). Nested maps that hold the
same edges need not be equal, though: one of them may have an entry for a scope without labels, or
for a label without targets.

Building never leaves such an entry behind (`NestedGraph.made_iff`), so what has been built is
determined by the edges and data it holds (`NestedGraph.Made.eq_iff_flat_eq`), and for each scope
graph there is one way to keep it (`NestedGraph.nest`).
-/

namespace ScopeGraphs

universe u v

/-- Edges by source and label, and data by scope. -/
structure NestedGraph where
  /-- The targets of edges, by source and label. -/
  edges : SortedMap Scope (SortedMap Label (SortedSet Scope))
  /-- The data, by scope. -/
  data : SortedMap Scope Datum

namespace NestedGraph

/-! ## Building and reading -/

/-- The graph without entries. -/
def empty : NestedGraph := ⟨∅, ∅⟩

/-- The targets of the edges of a scope, by label. -/
def labelsAt (g : NestedGraph) (s : Scope) : SortedMap Label (SortedSet Scope) :=
  (g.edges[s]?).getD ∅

/-- The targets of the edges of a scope under a label. -/
def targetsAt (g : NestedGraph) (s : Scope) (l : Label) : SortedSet Scope :=
  ((g.labelsAt s)[l]?).getD ∅

/-- Enters an edge, with entries for its source and its label if there are none. -/
def addEdge (g : NestedGraph) (e : Edge) : NestedGraph :=
  { g with
    edges := g.edges.insert e.source
      ((g.labelsAt e.source).insert e.label ((g.targetsAt e.source e.label).insert e.target)) }

/-- Enters a datum, in place of any there was. -/
def setDatum (g : NestedGraph) (s : Scope) (d : Datum) : NestedGraph :=
  { g with data := g.data.insert s d }

/-- The edges, one source after the other, and one label after the other. -/
def edgeList (g : NestedGraph) : List Edge :=
  g.edges.toList.flatMap fun a ↦ a.2.toList.flatMap fun b ↦ b.2.toList.map fun t ↦ ⟨a.1, b.1, t⟩

/-- Whether there are no entries. -/
def isEmpty (g : NestedGraph) : Bool := g.edges.isEmpty && g.data.isEmpty

/-- Enters everything from another graph, unless that has no entries. -/
def extend (g h : NestedGraph) : NestedGraph :=
  if h.isEmpty then g
  else h.data.toList.foldl (fun g e ↦ g.setDatum e.1 e.2) (h.edgeList.foldl addEdge g)

/-- The labels for which a scope has an entry, in order. -/
def labels (g : NestedGraph) (s : Scope) : List Label := (g.labelsAt s).keys

/-- Every scope with an edge, at the end of an edge or with a datum. -/
def scopes (g : NestedGraph) : SortedSet Scope :=
  SortedSet.ofList (g.edgeList.flatMap (fun e ↦ [e.source, e.target]) ++ g.data.keys)

/-- The number of edges. -/
def edgeCount (g : NestedGraph) : Nat := g.edgeList.length

/-- What can be built. -/
inductive Made : NestedGraph → Prop
  | empty : Made empty
  | addEdge {g : NestedGraph} (e : Edge) : Made g → Made (g.addEdge e)
  | setDatum {g : NestedGraph} (s : Scope) (d : Datum) : Made g → Made (g.setDatum s d)
  | extend {g h : NestedGraph} : Made g → Made h → Made (g.extend h)

/-- Every entry for a scope has labels, and every entry for a label has targets. -/
structure IsTight (g : NestedGraph) : Prop where
  labels_ne : ∀ s : Scope, g.edges[s]? ≠ some ∅
  targets_ne : ∀ (s : Scope) (l : Label), (g.labelsAt s)[l]? ≠ some ∅

/-- The same edges in one set. -/
def flat (g : NestedGraph) : ScopeGraph := ⟨SortedSet.ofList g.edgeList, g.data⟩

/-- Whether the graph holds an edge. -/
def HasEdge (g : NestedGraph) (e : Edge) : Prop := e.target ∈ g.targetsAt e.source e.label

variable {g h k : NestedGraph} {s : Scope} {l : Label} {e : Edge}

/-! ## Edges -/

theorem mem_edgeList : e ∈ g.edgeList ↔ g.HasEdge e := by
  obtain ⟨s, l, t⟩ := e
  rw [HasEdge, targetsAt, labelsAt, edgeList]
  simp only [List.mem_flatMap, List.mem_map, Std.ExtTreeSet.mem_toList, Prod.exists,
    Std.ExtTreeMap.mem_toList_iff_getElem?_eq_some, Edge.mk.injEq]
  constructor
  · rintro ⟨s, labels, hs, l, targets, hl, t, ht, rfl, rfl, rfl⟩
    simpa [hs, hl] using ht
  · intro ht
    cases hs : g.edges[s]? with
    | none => simp [hs] at ht
    | some labels =>
      cases hl : labels[l]? with
      | none => simp [hs, hl] at ht
      | some targets =>
        exact ⟨s, labels, hs, l, targets, hl, t, by simpa [hs, hl] using ht, rfl, rfl, rfl⟩

theorem mem_edges_flat : e ∈ g.flat.edges ↔ g.HasEdge e := by
  rw [flat, SortedSet.mem_ofList, mem_edgeList]

/-- What is listed by the keys of a map has no repetition if each part has none and tells its
key. -/
private theorem nodup_flatMap_toList {α : Type u} {β : Type v} [Keyed α] {m : SortedMap α β}
    {f : α × β → List Edge} (key : Edge → α) (hf : ∀ a, (f a).Nodup)
    (hkey : ∀ a, ∀ e ∈ f a, key e = a.1) : (m.toList.flatMap f).Nodup := by
  refine List.nodup_flatMap.2 ⟨fun a _ ↦ hf a, ?_⟩
  refine Std.ExtTreeMap.distinct_keys_toList.imp fun {a b} hne e hea heb ↦ hne ?_
  rw [Keyed.compare_eq_iff, ← hkey a e hea, hkey b e heb]

theorem nodup_edgeList (g : NestedGraph) : g.edgeList.Nodup := by
  refine nodup_flatMap_toList Edge.source (fun a ↦ ?_) fun a e he ↦ ?_
  · refine nodup_flatMap_toList Edge.label (fun b ↦ ?_) fun b e he ↦ ?_
    · exact (SortedSet.nodup_toList _).map fun t t' heq ↦ (Edge.mk.inj heq).2.2
    · obtain ⟨t, -, rfl⟩ := List.mem_map.1 he
      rfl
  · obtain ⟨b, -, he⟩ := List.mem_flatMap.1 he
    obtain ⟨t, -, rfl⟩ := List.mem_map.1 he
    rfl

/-! ## What an addition changes -/

theorem labelsAt_addEdge : (g.addEdge e).labelsAt s =
    if e.source = s then (g.labelsAt s).insert e.label
      ((g.targetsAt s e.label).insert e.target) else g.labelsAt s := by
  rw [labelsAt, addEdge, SortedMap.getElem?_insert_eq]
  split
  · rename_i heq
    rw [Option.getD_some, heq]
  · rfl

theorem targetsAt_addEdge : (g.addEdge e).targetsAt s l =
    if e.source = s ∧ e.label = l then (g.targetsAt s l).insert e.target else g.targetsAt s l := by
  rw [targetsAt, labelsAt_addEdge]
  by_cases hs : e.source = s
  · rw [if_pos hs, SortedMap.getElem?_insert_eq]
    by_cases hl : e.label = l
    · rw [if_pos hl, if_pos ⟨hs, hl⟩, Option.getD_some, hl]
    · rw [if_neg hl, if_neg fun heq ↦ hl heq.2]
      rfl
  · rw [if_neg hs, if_neg fun heq ↦ hs heq.1]
    rfl

theorem hasEdge_addEdge {e' : Edge} : (g.addEdge e).HasEdge e' ↔ e' = e ∨ g.HasEdge e' := by
  obtain ⟨s, l, t⟩ := e
  obtain ⟨s', l', t'⟩ := e'
  rw [HasEdge, HasEdge, targetsAt_addEdge]
  dsimp only
  split
  · rename_i heq
    obtain ⟨rfl, rfl⟩ := heq
    rw [SortedSet.mem_insert_iff]
    simp
  · rename_i hne
    refine (or_iff_right ?_).symm
    rintro heq
    obtain ⟨rfl, rfl, -⟩ := Edge.mk.inj heq
    exact hne ⟨rfl, rfl⟩

theorem flat_addEdge : (g.addEdge e).flat = g.flat.addEdge e := by
  refine congrArg₂ ScopeGraph.mk (Std.ExtTreeSet.ext_mem fun e' ↦ ?_) rfl
  change e' ∈ (g.addEdge e).flat.edges ↔ e' ∈ (g.flat.addEdge e).edges
  rw [mem_edges_flat, ScopeGraph.mem_edges_addEdge, mem_edges_flat]
  exact hasEdge_addEdge

theorem foldl_addEdge_data (es : List Edge) : (es.foldl addEdge g).data = g.data := by
  induction es generalizing g with
  | nil => rfl
  | cons e es ih => exact ih

theorem flat_foldl_addEdge (es : List Edge) :
    (es.foldl addEdge g).flat = ⟨es.foldl (fun es e ↦ es.insert e) g.flat.edges, g.data⟩ := by
  induction es generalizing g with
  | nil => rfl
  | cons e es ih => rw [List.foldl_cons, ih, flat_addEdge]; rfl

theorem foldl_setDatum (ds : List (Scope × Datum)) :
    ds.foldl (fun g e ↦ g.setDatum e.1 e.2) g =
      { g with data := ds.foldl (fun ds e ↦ ds.insert e.1 e.2) g.data } := by
  induction ds generalizing g with
  | nil => rfl
  | cons e ds ih => rw [List.foldl_cons, ih]; rfl

theorem flat_foldl_setDatum (ds : List (Scope × Datum)) :
    (ds.foldl (fun g e ↦ g.setDatum e.1 e.2) g).flat =
      ⟨g.flat.edges, ds.foldl (fun ds e ↦ ds.insert e.1 e.2) g.data⟩ := by
  rw [foldl_setDatum]
  rfl

/-! ## No empty entries -/

theorem isTight_empty : empty.IsTight where
  labels_ne := by simp [empty]
  targets_ne := by simp [labelsAt, empty]

theorem IsTight.addEdge (hg : g.IsTight) (e : Edge) : (g.addEdge e).IsTight where
  labels_ne s := by
    rw [NestedGraph.addEdge, SortedMap.getElem?_insert_eq]
    split
    · rw [Ne, Option.some.injEq]
      exact Std.ExtTreeMap.insert_ne_empty
    · exact hg.labels_ne s
  targets_ne s l := by
    rw [labelsAt_addEdge]
    split
    · rw [SortedMap.getElem?_insert_eq]
      split
      · rw [Ne, Option.some.injEq]
        exact Std.ExtTreeSet.insert_ne_empty
      · exact hg.targets_ne s l
    · exact hg.targets_ne s l

theorem IsTight.setDatum (hg : g.IsTight) (s : Scope) (d : Datum) : (g.setDatum s d).IsTight :=
  ⟨hg.labels_ne, hg.targets_ne⟩

theorem IsTight.foldl_addEdge (hg : g.IsTight) (es : List Edge) :
    (es.foldl NestedGraph.addEdge g).IsTight := by
  induction es generalizing g with
  | nil => exact hg
  | cons e es ih => exact ih (hg.addEdge e)

theorem IsTight.foldl_setDatum (hg : g.IsTight) (ds : List (Scope × Datum)) :
    (ds.foldl (fun g e ↦ g.setDatum e.1 e.2) g).IsTight := by
  rw [NestedGraph.foldl_setDatum]
  exact ⟨hg.labels_ne, hg.targets_ne⟩

theorem IsTight.extend (hg : g.IsTight) : (g.extend h).IsTight := by
  rw [NestedGraph.extend]
  split
  · exact hg
  · exact (hg.foldl_addEdge _).foldl_setDatum _

/-- What stands for a missing value can be told from it only where it is stored. -/
private theorem eq_of_getD_eq {α : Type u} {a b : Option α} {d : α} (ha : a ≠ some d)
    (hb : b ≠ some d) (h : a.getD d = b.getD d) : a = b := by
  cases a <;> cases b <;> simp_all

/-- **Without empty entries, a graph is determined by its edges and data.** -/
theorem IsTight.eq_iff_flat_eq (hg : g.IsTight) (hh : h.IsTight) : g = h ↔ g.flat = h.flat := by
  refine ⟨congrArg flat, fun hflat ↦ ?_⟩
  have htargets (s : Scope) (l : Label) : g.targetsAt s l = h.targetsAt s l := by
    refine Std.ExtTreeSet.ext_mem fun t ↦ ?_
    change g.HasEdge ⟨s, l, t⟩ ↔ h.HasEdge ⟨s, l, t⟩
    rw [← mem_edges_flat, ← mem_edges_flat, hflat]
  have hlabels (s : Scope) : g.labelsAt s = h.labelsAt s :=
    Std.ExtTreeMap.ext_getElem? fun l ↦
      eq_of_getD_eq (hg.targets_ne s l) (hh.targets_ne s l) (htargets s l)
  have hedges : g.edges = h.edges :=
    Std.ExtTreeMap.ext_getElem? fun s ↦ eq_of_getD_eq (hg.labels_ne s) (hh.labels_ne s) (hlabels s)
  have hdata : g.data = h.data := congrArg ScopeGraph.data hflat
  cases g
  cases h
  exact congrArg₂ NestedGraph.mk hedges hdata

/-! ## What can be built -/

/-- The edges and data of a scope graph, entered one after the other. -/
def nest (G : ScopeGraph) : NestedGraph :=
  G.data.toList.foldl (fun g e ↦ g.setDatum e.1 e.2) (G.edges.toList.foldl addEdge .empty)

theorem flat_nest (G : ScopeGraph) : (nest G).flat = G := by
  rw [nest, flat_foldl_setDatum, flat_foldl_addEdge]
  refine congrArg₂ ScopeGraph.mk (Std.ExtTreeSet.ext_mem fun e ↦ ?_)
    (Std.ExtTreeMap.ext_getElem? fun s ↦ ?_)
  · rw [SortedSet.mem_foldl_insert, Std.ExtTreeSet.mem_toList]
    exact or_iff_left Std.ExtTreeSet.not_mem_empty
  · rw [foldl_addEdge_data, SortedMap.getElem?_foldl_insert, SortedMap.ofList_toList]
    exact Option.or_none

theorem Made.foldl_addEdge (hg : g.Made) (es : List Edge) :
    (es.foldl NestedGraph.addEdge g).Made := by
  induction es generalizing g with
  | nil => exact hg
  | cons e es ih => exact ih (hg.addEdge e)

theorem Made.foldl_setDatum (hg : g.Made) (ds : List (Scope × Datum)) :
    (ds.foldl (fun g e ↦ g.setDatum e.1 e.2) g).Made := by
  induction ds generalizing g with
  | nil => exact hg
  | cons e ds ih => exact ih (hg.setDatum e.1 e.2)

theorem made_nest (G : ScopeGraph) : (nest G).Made :=
  (Made.empty.foldl_addEdge _).foldl_setDatum _

theorem Made.isTight (hg : g.Made) : g.IsTight := by
  induction hg with
  | empty => exact isTight_empty
  | addEdge e _ ih => exact ih.addEdge e
  | setDatum s d _ ih => exact ih.setDatum s d
  | extend _ _ ih => exact ih.extend

theorem IsTight.nest_flat (hg : g.IsTight) : nest g.flat = g :=
  ((made_nest g.flat).isTight.eq_iff_flat_eq hg).2 (flat_nest g.flat)

/-- **What can be built is exactly what has no empty entries.** -/
theorem made_iff : g.Made ↔ g.IsTight := by
  constructor
  · exact Made.isTight
  · intro hg
    rw [← hg.nest_flat]
    exact made_nest g.flat

/-- Graphs that have been built are equal as soon as they hold the same edges and data. -/
theorem Made.eq_iff_flat_eq (hg : g.Made) (hh : h.Made) : g = h ↔ g.flat = h.flat :=
  hg.isTight.eq_iff_flat_eq hh.isTight

end NestedGraph

end ScopeGraphs
