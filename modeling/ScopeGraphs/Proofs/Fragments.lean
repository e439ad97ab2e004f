import Mathlib.Algebra.GroupWithZero.Nat
import Mathlib.Data.List.Nodup
import ScopeGraphs.Proofs.Contents

/-!
# Putting fragments together

Of two data of one scope the later one counts when graphs are put together, so in general it
matters in which order this is done. Fragments of different units have nothing in common, though:
all edges of a fragment start at scopes of its unit, and only these have data in it
(`ScopeGraph.IsOwnedBy`). Then the order and the brackets do not matter
(`ScopeGraph.Merges.unique`), nothing is lost, and what a scope has is what it has in the fragment
of its owner.
-/

namespace ScopeGraphs

namespace ScopeGraph

/-- The edges of a graph start at scopes of a unit, and no other scopes have data. -/
structure IsOwnedBy (g : ScopeGraph) (id : UnitId) : Prop where
  edges : ∀ e ∈ g.edges, e.source.owner = id
  data : ∀ s d, g.datum? s = some d → s.owner = id

theorem isOwnedBy_empty (id : UnitId) : empty.IsOwnedBy id where
  edges _ he := absurd he Std.ExtTreeSet.not_mem_empty
  data _ _ hd := nomatch hd

theorem IsOwnedBy.addEdge {g : ScopeGraph} {id : UnitId} {e : Edge} (h : g.IsOwnedBy id)
    (he : e.source.owner = id) : (g.addEdge e).IsOwnedBy id where
  edges e' he' := by
    obtain rfl | hold := mem_edges_addEdge.1 he'
    · exact he
    · exact h.edges e' hold
  data := h.data

/-- A graph is put together from fragments, in some order and with some brackets. -/
inductive Merges : List (UnitId × ScopeGraph) → ScopeGraph → Prop where
  | one (id : UnitId) (g : ScopeGraph) : Merges [(id, g)] g
  | union {fs fs' : List (UnitId × ScopeGraph)} {g g' : ScopeGraph} (h : Merges fs g)
      (h' : Merges fs' g') : Merges (fs ++ fs') (g.union g')
  | reorder {fs fs' : List (UnitId × ScopeGraph)} {g : ScopeGraph} (h : Merges fs g)
      (hperm : fs.Perm fs') : Merges fs' g

/-- Fragments of different units, each with nothing but what its unit owns. -/
structure IsPartition (fs : List (UnitId × ScopeGraph)) : Prop where
  nodup : (fs.map Prod.fst).Nodup
  owned : ∀ f ∈ fs, f.2.IsOwnedBy f.1

namespace Merges

variable {fs : List (UnitId × ScopeGraph)} {g g' : ScopeGraph} {e : Edge} {s : Scope} {d : Datum}

theorem mem_edges_iff (h : Merges fs g) : e ∈ g.edges ↔ ∃ f ∈ fs, e ∈ f.2.edges := by
  induction h with
  | one id g => simp only [List.mem_singleton, exists_eq_left]
  | union _ _ ih ih' =>
    rw [mem_edges_union, ih, ih', or_comm]
    simp only [List.mem_append, or_and_right, exists_or]
  | reorder _ hperm ih => simp only [ih, hperm.mem_iff]

/-- Every datum comes from a fragment. -/
theorem exists_datum (h : Merges fs g) (hd : g.datum? s = some d) :
    ∃ f ∈ fs, f.2.datum? s = some d := by
  induction h with
  | one id g => exact ⟨_, List.mem_cons_self, hd⟩
  | union _ _ ih ih' =>
    rw [datum?_union, Option.or_eq_some_iff] at hd
    obtain hlater | ⟨-, hearlier⟩ := hd
    · obtain ⟨f, hf, hdatum⟩ := ih' hlater
      exact ⟨f, List.mem_append_right _ hf, hdatum⟩
    · obtain ⟨f, hf, hdatum⟩ := ih hearlier
      exact ⟨f, List.mem_append_left _ hf, hdatum⟩
  | reorder _ hperm ih =>
    obtain ⟨f, hf, hdatum⟩ := ih hd
    exact ⟨f, hperm.mem_iff.1 hf, hdatum⟩

/-- No scope loses its datum, though it may get that of another fragment. -/
theorem exists_datum_of_mem (h : Merges fs g) {f : UnitId × ScopeGraph} (hf : f ∈ fs)
    (hd : f.2.datum? s = some d) : ∃ d', g.datum? s = some d' := by
  induction h with
  | one id g =>
    obtain rfl := List.mem_singleton.1 hf
    exact ⟨d, hd⟩
  | union _ _ ih ih' =>
    rw [datum?_union]
    obtain hleft | hright := List.mem_append.1 hf
    · obtain ⟨d', hd'⟩ := ih hleft
      rw [hd']
      exact Option.isSome_iff_exists.1 (Option.isSome_or.trans (Bool.or_true _))
    · obtain ⟨d', hd'⟩ := ih' hright
      rw [hd']
      exact ⟨d', rfl⟩
  | reorder _ hperm ih => exact ih (hperm.mem_iff.2 hf)

variable (hfs : IsPartition fs)

include hfs

/-- A scope has the datum that it has in the fragment of its owner. -/
theorem datum?_eq (h : Merges fs g) {f : UnitId × ScopeGraph} (hf : f ∈ fs)
    (hown : s.owner = f.1) : g.datum? s = f.2.datum? s := by
  -- No other fragment has a datum of the scope.
  have hsame {f' : UnitId × ScopeGraph} (hf' : f' ∈ fs) {d : Datum} (hd : f'.2.datum? s = some d) :
      f' = f := by
    have hid : f'.1 = f.1 := ((hfs.owned f' hf').data s d hd).symm.trans hown
    exact List.inj_on_of_nodup_map hfs.nodup hf' hf hid
  refine Option.ext fun d ↦ ⟨fun hd ↦ ?_, fun hd ↦ ?_⟩
  · obtain ⟨f', hf', hd'⟩ := h.exists_datum hd
    exact hsame hf' hd' ▸ hd'
  · obtain ⟨d', hd'⟩ := h.exists_datum_of_mem hf hd
    obtain ⟨f', hf', hfrom⟩ := h.exists_datum hd'
    obtain rfl := hsame hf' hfrom
    obtain rfl := Option.some.inj (hfrom.symm.trans hd)
    exact hd'

/-- A scope of a unit that has no fragment has no datum. -/
theorem datum?_eq_none (h : Merges fs g) (hs : s.owner ∉ fs.map Prod.fst) : g.datum? s = none := by
  refine Option.eq_none_iff_forall_ne_some.2 fun d hd ↦ hs ?_
  obtain ⟨f, hf, hd'⟩ := h.exists_datum hd
  exact List.mem_map.2 ⟨f, hf, ((hfs.owned f hf).data s d hd').symm⟩

/-- An edge is in the fragment of the owner of its source. -/
theorem mem_edges_iff_of_owner (h : Merges fs g) {f : UnitId × ScopeGraph} (hf : f ∈ fs)
    (hown : e.source.owner = f.1) : e ∈ g.edges ↔ e ∈ f.2.edges := by
  rw [h.mem_edges_iff]
  refine ⟨fun ⟨f', hf', he⟩ ↦ ?_, fun he ↦ ⟨f, hf, he⟩⟩
  have hid : f'.1 = f.1 := ((hfs.owned f' hf').edges e he).symm.trans hown
  exact List.inj_on_of_nodup_map hfs.nodup hf' hf hid ▸ he

/-- **The order does not matter.** Fragments of different units make the same graph, whatever the
order in which they are put together. -/
theorem unique (h : Merges fs g) (h' : Merges fs g') : g = g' := by
  refine congrArg₂ ScopeGraph.mk (Std.ExtTreeSet.ext_mem fun e ↦ ?_)
    (Std.ExtTreeMap.ext_getElem? fun s ↦ ?_)
  · rw [h.mem_edges_iff, h'.mem_edges_iff]
  · change g.datum? s = g'.datum? s
    by_cases hs : s.owner ∈ fs.map Prod.fst
    · obtain ⟨f, hf, hown⟩ := List.mem_map.1 hs
      rw [h.datum?_eq hfs hf hown.symm, h'.datum?_eq hfs hf hown.symm]
    · rw [h.datum?_eq_none hfs hs, h'.datum?_eq_none hfs hs]

/-- No edge is in two fragments, so the edges can be counted one fragment after the other. -/
theorem edgeCount_eq (h : Merges fs g) : g.edgeCount = (fs.map fun f ↦ f.2.edgeCount).sum := by
  have hdisjoint : fs.Pairwise fun f f' ↦ f.2.edges.toList.Disjoint f'.2.edges.toList := by
    refine (List.pairwise_map.1 hfs.nodup).imp_of_mem fun {f f'} hf hf' hne e he he' ↦ hne ?_
    rw [← (hfs.owned f hf).edges e (Std.ExtTreeSet.mem_toList.1 he),
      ← (hfs.owned f' hf').edges e (Std.ExtTreeSet.mem_toList.1 he')]
  have hnodup : (fs.flatMap fun f ↦ f.2.edges.toList).Nodup :=
    List.nodup_flatMap.2 ⟨fun f _ ↦ f.2.edges.nodup_toList, hdisjoint⟩
  have hsize : g.edges.size = (fs.flatMap fun f ↦ f.2.edges.toList).length := by
    refine SortedSet.size_eq_length hnodup fun e ↦ ?_
    rw [h.mem_edges_iff, List.mem_flatMap]
    simp only [Std.ExtTreeSet.mem_toList]
  rw [edgeCount, hsize, List.length_flatMap]
  simp only [Std.ExtTreeSet.length_toList]
  rfl

end Merges

end ScopeGraph

end ScopeGraphs
