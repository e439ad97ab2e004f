import Mathlib.Data.List.Count
import ScopeGraphs.Proofs.Sorted
import ScopeGraphs.Wait.Index

/-!
# What an index of waits knows

A `WaitIndex` keeps every edge once, under its waiter, and every pair of units that are joined by an
edge a second time, under the holder. Here both sides are tied to the multiset of the edges that
remain: `WaitIndex.Files x g` says that `x` files the edges of `g`, and no entry of either map is
empty. Every change keeps this (`Files.add`, `Files.remove?`), so whatever was added and removed,
in whatever order, an index answers as the plain list of the remaining edges would
(`WaitIndex.isExact_changes`).

## Why the second map cannot lag behind

An edge is removed by its holder and what is awaited, among the edges of its waiter; whether the
waiter stays with the holder is then decided from what is left of these edges. The edges of one
waiter are all there is to decide it from (`joined_iff`).
-/

namespace ScopeGraphs

universe u v

/-! ## Lists filed under keys -/

namespace SortedMap

variable {α : Type u} {β : Type v} [Keyed α] [DecidableEq α] {m : SortedMap α (List β)}

/-- What is listed under a key is found among all that is listed, if everything tells the key under
which it is listed. -/
theorem filter_flatMap_toList (key : β → α) (hkey : ∀ k l, m[k]? = some l → ∀ b ∈ l, key b = k)
    (k : α) : (m.toList.flatMap Prod.snd).filter (fun b ↦ key b = k) = (m[k]?).getD [] := by
  have hone : ∀ a ∈ m.toList,
      a.2.filter (fun b ↦ key b = k) = if a.1 = k then a.2 else [] := by
    intro a ha
    have hlisted := hkey a.1 a.2 (Std.ExtTreeMap.mem_toList_iff_getElem?_eq_some.1 ha)
    split
    · rename_i heq
      exact List.filter_eq_self.2 fun b hb ↦ decide_eq_true ((hlisted b hb).trans heq)
    · rename_i hne
      exact List.filter_eq_nil_iff.2 fun b hb ↦ by simpa [hlisted b hb] using hne
  rw [List.filter_flatMap, List.flatMap_congr hone]
  cases hk : m[k]? with
  | none =>
    refine List.flatMap_eq_nil_iff.2 fun a ha ↦ if_neg ?_
    rintro rfl
    rw [Std.ExtTreeMap.mem_toList_iff_getElem?_eq_some.1 ha] at hk
    cases hk
  | some l =>
    -- The keys are distinct, so only the one entry contributes.
    obtain ⟨before, after, hsplit⟩ :=
      List.append_of_mem (Std.ExtTreeMap.mem_toList_iff_getElem?_eq_some.2 hk)
    have hdistinct := Std.ExtTreeMap.distinct_keys_toList (t := m)
    rw [hsplit, List.pairwise_append, List.pairwise_cons] at hdistinct
    obtain ⟨-, ⟨hafter, -⟩, hbefore⟩ := hdistinct
    have hskip₁ : before.flatMap (fun a ↦ if a.1 = k then a.2 else []) = [] :=
      List.flatMap_eq_nil_iff.2 fun a ha ↦ if_neg fun heq ↦
        hbefore a ha _ List.mem_cons_self (Keyed.compare_eq_iff.2 heq)
    have hskip₂ : after.flatMap (fun a ↦ if a.1 = k then a.2 else []) = [] :=
      List.flatMap_eq_nil_iff.2 fun a ha ↦ if_neg fun heq ↦
        hafter a ha (Keyed.compare_eq_iff.2 heq.symm)
    rw [hsplit, List.flatMap_append, List.flatMap_cons, hskip₁, hskip₂, if_pos rfl,
      List.nil_append, List.append_nil, Option.getD_some]

end SortedMap

variable {τ : Type}

namespace WaitIndex

variable {x y : WaitIndex τ} {g : WaitGraph τ} {e : WaitEdge τ}
  {u v w : UnitId}

/-! ## Two ways to keep the edges -/

/-- An index files the edges of a graph, and none of its entries is empty. -/
structure Files (x : WaitIndex τ) (g : WaitGraph τ) : Prop where
  /-- Under a unit there are its edges, in their order. -/
  edgesOf : ∀ u, x.edgesOf u = g.edges.filter fun e ↦ e.waiter = u
  /-- A unit has those as waiters that have an edge to it. -/
  mem_waiterSet : ∀ u v, v ∈ x.waiterSet u ↔ ∃ e ∈ g.edges, e.waiter = v ∧ e.holder = u
  /-- Units without edges are not listed. -/
  waits_ne : ∀ u : UnitId, x.waits[u]? ≠ some []
  /-- Units without waiters are not listed. -/
  waiters_ne : ∀ u : UnitId, x.waiters[u]? ≠ some ∅

theorem files_empty : (empty : WaitIndex τ).Files .empty where
  edgesOf u := by simp [WaitIndex.edgesOf, empty, WaitGraph.empty]
  mem_waiterSet u v := by simp [waiterSet, empty, WaitGraph.empty]
  waits_ne u := by simp [empty]
  waiters_ne u := by simp [empty]

/-! ## Adding an edge -/

theorem edgesOf_add : (x.add e).edgesOf u =
    if e.waiter = u then x.edgesOf u ++ [e] else x.edgesOf u := by
  rw [edgesOf, add, SortedMap.getElem?_insert_eq]
  split
  · rename_i heq
    rw [Option.getD_some, heq]
  · rfl

theorem waiterSet_add : (x.add e).waiterSet u =
    if e.holder = u then (x.waiterSet u).insert e.waiter else x.waiterSet u := by
  rw [waiterSet, add, SortedMap.getElem?_insert_eq]
  split
  · rename_i heq
    rw [Option.getD_some, heq]
  · rfl

theorem Files.add (h : x.Files g) (e : WaitEdge τ) : (x.add e).Files (g.add e) where
  edgesOf u := by
    rw [edgesOf_add, WaitGraph.add, List.filter_append, h.edgesOf]
    split
    · rename_i heq
      rw [List.filter_singleton, decide_eq_true heq, cond_true]
    · rename_i hne
      rw [List.filter_singleton, decide_eq_false hne, cond_false, List.append_nil]
  mem_waiterSet u v := by
    rw [waiterSet_add, WaitGraph.add]
    simp only [List.mem_append, List.mem_singleton, or_and_right, exists_or, exists_eq_left]
    rw [← h.mem_waiterSet]
    split
    · rename_i heq
      rw [SortedSet.mem_insert_iff, or_comm, and_iff_left heq, eq_comm]
    · rename_i hne
      rw [or_iff_left fun hjoined ↦ hne hjoined.2]
  waits_ne u := by
    rw [WaitIndex.add, SortedMap.getElem?_insert_eq]
    split
    · simp
    · exact h.waits_ne u
  waiters_ne u := by
    rw [WaitIndex.add, SortedMap.getElem?_insert_eq]
    split
    · rw [Ne, Option.some.injEq]
      exact Std.ExtTreeSet.insert_ne_empty
    · exact h.waiters_ne u

/-! ## Removing an edge -/

section

variable [DecidableEq τ]

/-- Among the edges of one waiter, holder and resource tell the edge. -/
theorem dropEdge?_eq {es : List (WaitEdge τ)} (hes : ∀ e' ∈ es, e'.waiter = e.waiter) :
    dropEdge? es e.holder e.resource = if e ∈ es then some (es.erase e) else none := by
  have hfind : (es.findIdx? fun e' ↦ e'.holder = e.holder && e'.resource = e.resource) =
      es.findIdx? (e == ·) := by
    induction es with
    | nil => rfl
    | cons e' es ih =>
      have hhead : (decide (e'.holder = e.holder) && decide (e'.resource = e.resource)) =
          (e == e') := by
        obtain ⟨waiter, holder, resource⟩ := e
        obtain ⟨waiter', holder', resource'⟩ := e'
        obtain rfl : waiter' = waiter := hes _ List.mem_cons_self
        rw [Bool.eq_iff_iff, Bool.and_eq_true, decide_eq_true_eq, decide_eq_true_eq, beq_iff_eq,
          WaitEdge.mk.injEq]
        exact ⟨fun h ↦ ⟨rfl, h.1.symm, h.2.symm⟩, fun h ↦ ⟨h.2.1.symm, h.2.2.symm⟩⟩
      rw [List.findIdx?_cons, List.findIdx?_cons, hhead,
        ih fun e'' he'' ↦ hes e'' (List.mem_cons_of_mem _ he'')]
  rw [dropEdge?, hfind, List.erase_eq_eraseP, List.eraseP_eq_eraseIdx]
  split
  · rename_i hmem
    cases hidx : es.findIdx? (e == ·) with
    | none => simpa using List.findIdx?_eq_none_iff.1 hidx e hmem
    | some i => rfl
  · rename_i hmem
    rw [List.findIdx?_eq_none_iff.2 fun e' he' ↦ beq_false_of_ne ?_, Option.map_none]
    rintro rfl
    exact hmem he'

theorem Files.remove?_eq (h : x.Files g) : x.remove? e =
    if e ∈ g.edges then
      some (x.refile e.waiter e.holder ((g.edges.erase e).filter fun e' ↦ e'.waiter = e.waiter))
    else none := by
  have hedges := h.edgesOf e.waiter
  have hmem : e ∈ x.edgesOf e.waiter ↔ e ∈ g.edges := by
    rw [hedges, List.mem_filter]
    exact and_iff_left (decide_eq_true rfl)
  have hwaiter : ∀ e' ∈ x.edgesOf e.waiter, e'.waiter = e.waiter := by
    intro e' he'
    rw [hedges, List.mem_filter] at he'
    exact of_decide_eq_true he'.2
  rw [WaitIndex.remove?]
  rw [WaitIndex.edgesOf] at hedges hmem hwaiter
  cases hlisted : x.waits[e.waiter]? with
  | none =>
    rw [hlisted] at hmem
    rw [if_neg (by simpa using hmem)]
    rfl
  | some es =>
    rw [hlisted, Option.getD_some] at hedges hmem hwaiter
    rw [← List.erase_filter, ← hedges]
    simp only [Option.bind_eq_bind, Option.bind_some, dropEdge?_eq hwaiter, hmem]
    split <;> rfl

end

theorem edgesOf_refile {es : List (WaitEdge τ)} :
    (x.refile v u es).edgesOf w = if v = w then es else x.edgesOf w := by
  rw [edgesOf, refile]
  dsimp only
  split
  · rename_i hempty
    rw [SortedMap.getElem?_erase_eq]
    split
    · rw [List.isEmpty_iff.1 hempty]
      rfl
    · rfl
  · rw [SortedMap.getElem?_insert_eq]
    split <;> rfl

theorem getD_dropWaiter (m : SortedMap UnitId (SortedSet UnitId)) :
    ((dropWaiter m u v)[w]?).getD ∅ =
      if u = w then ((m[w]?).getD ∅).erase v else (m[w]?).getD ∅ := by
  rw [dropWaiter]
  cases hu : m[u]? with
  | none =>
    dsimp only
    split
    · rename_i heq
      rw [← heq, hu]
      rfl
    · rfl
  | some us =>
    dsimp only
    split
    · rename_i hempty
      rw [SortedMap.getElem?_erase_eq]
      split
      · rename_i heq
        rw [← heq, hu, Option.getD_some, Std.ExtTreeSet.isEmpty_iff.1 hempty]
        rfl
      · rfl
    · rw [SortedMap.getElem?_insert_eq]
      split
      · rename_i heq
        rw [← heq, hu]
        rfl
      · rfl

theorem dropWaiter_ne {m : SortedMap UnitId (SortedSet UnitId)} (hm : ∀ w : UnitId, m[w]? ≠ some ∅)
    (w : UnitId) : (dropWaiter m u v)[w]? ≠ some ∅ := by
  rw [dropWaiter]
  split
  · exact hm w
  · dsimp only
    split
    · rw [SortedMap.getElem?_erase_eq]
      split
      · exact nofun
      · exact hm w
    · rename_i hleft
      rw [SortedMap.getElem?_insert_eq]
      split
      · rw [Ne, Option.some.injEq]
        exact fun heq ↦ hleft (Std.ExtTreeSet.isEmpty_iff.2 heq)
      · exact hm w

theorem waiterSet_refile {es : List (WaitEdge τ)} :
    (x.refile v u es).waiterSet w =
      if (es.any fun e ↦ e.holder = u) = false ∧ u = w then (x.waiterSet w).erase v
      else x.waiterSet w := by
  rw [waiterSet, refile]
  dsimp only
  cases es.any fun e ↦ e.holder = u with
  | true => simp [waiterSet]
  | false => simp [getD_dropWaiter, waiterSet]

/-- Whether a unit still waits for a holder can be seen from the edges of the unit alone. -/
theorem joined_iff (es : List (WaitEdge τ)) : ((es.filter fun e ↦ e.waiter = v).any
    fun e ↦ e.holder = u) = true ↔ ∃ e ∈ es, e.waiter = v ∧ e.holder = u := by
  simp only [List.any_eq_true, List.mem_filter, decide_eq_true_eq, and_assoc]

variable [DecidableEq τ]

/-- What is left of the edges of a unit is filed in their place. -/
theorem Files.refile (h : x.Files g) (e : WaitEdge τ) :
    (x.refile e.waiter e.holder ((g.edges.erase e).filter fun e' ↦ e'.waiter = e.waiter)).Files
      ⟨g.edges.erase e⟩ where
  edgesOf u := by
    rw [edgesOf_refile]
    split
    · rename_i heq
      rw [heq]
    · rename_i hne
      have hother : e ∉ g.edges.filter fun e' ↦ e'.waiter = u := fun hmem ↦
        hne (of_decide_eq_true (List.mem_filter.1 hmem).2)
      rw [h.edgesOf, ← List.erase_filter, List.erase_of_not_mem hother]
  mem_waiterSet u v := by
    rw [waiterSet_refile]
    split
    · rename_i hgone
      obtain ⟨hgone, rfl⟩ := hgone
      rw [← Bool.not_eq_true, joined_iff] at hgone
      rw [SortedSet.mem_erase_iff, h.mem_waiterSet]
      constructor
      · rintro ⟨hne, e', he', rfl, hholder⟩
        exact ⟨e', (List.mem_erase_of_ne fun heq ↦ hne (by rw [heq])).2 he', rfl, hholder⟩
      · rintro ⟨e', he', rfl, hholder⟩
        refine ⟨fun heq ↦ hgone ⟨e', he', heq, hholder⟩, e', ?_, rfl, hholder⟩
        exact List.mem_of_mem_erase he'
    · rename_i hkept
      rw [h.mem_waiterSet]
      constructor
      · rintro ⟨e', he', rfl, rfl⟩
        by_cases heq : e' = e
        · rw [heq]
          by_contra hnone
          rw [← joined_iff, Bool.not_eq_true] at hnone
          exact hkept ⟨hnone, by rw [heq]⟩
        · exact ⟨e', (List.mem_erase_of_ne heq).2 he', rfl, rfl⟩
      · rintro ⟨e', he', hjoined⟩
        exact ⟨e', List.mem_of_mem_erase he', hjoined⟩
  waits_ne u := by
    rw [WaitIndex.refile]
    dsimp only
    split
    · rw [SortedMap.getElem?_erase_eq]
      split
      · exact nofun
      · exact h.waits_ne u
    · rename_i hleft
      rw [SortedMap.getElem?_insert_eq]
      split
      · rw [Ne, Option.some.injEq]
        exact fun heq ↦ hleft (List.isEmpty_iff.2 heq)
      · exact h.waits_ne u
  waiters_ne u := by
    rw [WaitIndex.refile]
    dsimp only
    split
    · exact h.waiters_ne u
    · exact dropWaiter_ne h.waiters_ne u

/-! ## Reading the edges -/

omit [DecidableEq τ] in
theorem Files.waitersOf_eq (h : x.Files g) (u : UnitId) : x.waitersOf u = g.waitersOf u := by
  refine congrArg Std.ExtTreeSet.toList (Std.ExtTreeSet.ext_mem fun v ↦ ?_)
  rw [h.mem_waiterSet, SortedSet.mem_ofList, List.mem_map]
  simp only [List.mem_filter, decide_eq_true_eq, and_assoc, and_comm]

theorem Files.perm_edges (h : x.Files g) : x.graph.edges.Perm g.edges := by
  refine List.perm_iff_count.2 fun e ↦ ?_
  have hkey : ∀ (u : UnitId) es, x.waits[u]? = some es → ∀ e ∈ es, e.waiter = u := by
    intro u es hes e he
    have hedges := h.edgesOf u
    rw [WaitIndex.edgesOf, hes, Option.getD_some] at hedges
    rw [hedges] at he
    exact of_decide_eq_true (List.mem_filter.1 he).2
  have hself (es : List (WaitEdge τ)) :
      (es.filter fun e' ↦ e'.waiter = e.waiter).count e = es.count e :=
    List.count_filter (decide_eq_true rfl)
  calc x.graph.edges.count e
      = (x.graph.edges.filter fun e' ↦ e'.waiter = e.waiter).count e := (hself _).symm
    _ = (x.edgesOf e.waiter).count e := by
      rw [graph, SortedMap.filter_flatMap_toList WaitEdge.waiter hkey]
      rfl
    _ = g.edges.count e := by rw [h.edgesOf, hself]

theorem Files.edgeCount_eq (h : x.Files g) : x.edgeCount = g.edgeCount := by
  rw [WaitGraph.edgeCount, ← h.perm_edges.length_eq, graph, List.length_flatMap]
  exact List.foldr_map.symm

theorem Files.isEmpty_eq (h : x.Files g) : x.isEmpty = g.isEmpty := by
  rw [Bool.eq_iff_iff, WaitGraph.isEmpty, List.isEmpty_iff, isEmpty, Std.ExtTreeMap.isEmpty_iff]
  constructor
  · intro hnone
    have hperm := h.perm_edges.symm
    rw [graph, hnone] at hperm
    exact hperm.eq_nil
  · intro hnone
    refine Std.ExtTreeMap.ext_getElem? fun u ↦ ?_
    have hedges := h.edgesOf u
    rw [hnone, List.filter_nil, WaitIndex.edgesOf] at hedges
    cases hu : x.waits[u]? with
    | none => simp
    | some es =>
      rw [hu, Option.getD_some] at hedges
      exact absurd (hedges ▸ hu) (h.waits_ne u)

end WaitIndex

/-! ## Any sequence of changes -/

/-- A change to a wait-for graph that is asked for. -/
inductive WaitChange (τ : Type) where
  /-- An edge is to be added. -/
  | add (e : WaitEdge τ)
  /-- An occurrence of an edge is to be removed. -/
  | remove (e : WaitEdge τ)

/-- What came of a change. -/
inductive WaitRecord (τ : Type) where
  /-- An edge was added. -/
  | added (e : WaitEdge τ)
  /-- An occurrence of an edge was removed. -/
  | removed (e : WaitEdge τ)
  /-- There was no such edge to remove. -/
  | missed (e : WaitEdge τ)
  deriving DecidableEq

namespace WaitRecord

/-- Whether an edge was added. -/
def isAdded : WaitRecord τ → Bool
  | added _ => true
  | _ => false

/-- Whether an edge was removed. -/
def isRemoved : WaitRecord τ → Bool
  | removed _ => true
  | _ => false

end WaitRecord

variable [DecidableEq τ]

/-- Makes a change to a graph. -/
def WaitGraph.change (g : WaitGraph τ) : WaitChange τ → WaitRecord τ × WaitGraph τ
  | .add e => (.added e, g.add e)
  | .remove e =>
    match g.remove? e with
    | some g => (.removed e, g)
    | none => (.missed e, g)

/-- Makes changes to a graph, one after the other. -/
def WaitGraph.changes (g : WaitGraph τ) : List (WaitChange τ) → List (WaitRecord τ) × WaitGraph τ
  | [] => ([], g)
  | c :: cs =>
    let (r, g) := g.change c
    let (rs, g) := g.changes cs
    (r :: rs, g)

namespace WaitIndex

/-- Makes a change to an index. -/
def change (x : WaitIndex τ) : WaitChange τ → WaitRecord τ × WaitIndex τ
  | .add e => (.added e, x.add e)
  | .remove e =>
    match x.remove? e with
    | some x => (.removed e, x)
    | none => (.missed e, x)

/-- Makes changes to an index, one after the other. -/
def changes (x : WaitIndex τ) : List (WaitChange τ) → List (WaitRecord τ) × WaitIndex τ
  | [] => ([], x)
  | c :: cs =>
    let (r, x) := x.change c
    let (rs, x) := x.changes cs
    (r :: rs, x)

/-- An edge was added more often than it was removed. -/
def Remains (rs : List (WaitRecord τ)) (e : WaitEdge τ) : Prop :=
  rs.count (.removed e) < rs.count (.added e)

/-- An index answers every question by what was added and not removed. -/
structure IsExact (x : WaitIndex τ) (rs : List (WaitRecord τ)) : Prop where
  /-- Every edge is there as often as it was added and not removed. -/
  count : ∀ e, x.graph.edges.count e + rs.count (.removed e) = rs.count (.added e)
  /-- As many edges are counted as were added and not removed. -/
  edgeCount : x.edgeCount + rs.countP WaitRecord.isRemoved = rs.countP WaitRecord.isAdded
  /-- The waiters of a unit are the units with an edge to it that remains. -/
  mem_waitersOf : ∀ u v, v ∈ x.waitersOf u ↔ ∃ resource, Remains rs ⟨v, u, resource⟩
  /-- Every waiter is listed once. -/
  nodup_waitersOf : ∀ u, (x.waitersOf u).Nodup
  /-- An edge can be removed if it remains. -/
  remove?_isSome : ∀ e, (x.remove? e).isSome = true ↔ Remains rs e
  /-- One occurrence of it is removed then, and nothing else. -/
  remove?_perm : ∀ e y, x.remove? e = some y → y.graph.edges.Perm (x.graph.edges.erase e)
  /-- Nothing is there if no edge remains. -/
  isEmpty : x.isEmpty = true ↔ ∀ e, ¬ Remains rs e

variable {x : WaitIndex τ} {g : WaitGraph τ}

theorem Files.remove? (h : x.Files g) (e : WaitEdge τ) :
    x.remove? e = none ∧ g.remove? e = none ∧ e ∉ g.edges ∨
      ∃ y, x.remove? e = some y ∧ g.remove? e = some ⟨g.edges.erase e⟩ ∧ e ∈ g.edges ∧
        y.Files ⟨g.edges.erase e⟩ := by
  rw [h.remove?_eq, WaitGraph.remove?]
  by_cases he : e ∈ g.edges
  · rw [if_pos he, if_pos he]
    exact .inr ⟨_, rfl, rfl, he, h.refile e⟩
  · rw [if_neg he, if_neg he]
    exact .inl ⟨rfl, rfl, he⟩

theorem Files.change (h : x.Files g) (c : WaitChange τ) :
    (x.change c).1 = (g.change c).1 ∧ (x.change c).2.Files (g.change c).2 := by
  cases c with
  | add e => exact ⟨rfl, h.add e⟩
  | remove e =>
    rw [WaitIndex.change, WaitGraph.change]
    rcases h.remove? e with ⟨hx, hg, -⟩ | ⟨y, hx, hg, -, hy⟩
    · rw [hx, hg]
      exact ⟨rfl, h⟩
    · rw [hx, hg]
      exact ⟨rfl, hy⟩

theorem Files.changes (h : x.Files g) (cs : List (WaitChange τ)) :
    (x.changes cs).1 = (g.changes cs).1 ∧ (x.changes cs).2.Files (g.changes cs).2 := by
  induction cs generalizing x g with
  | nil => exact ⟨rfl, h⟩
  | cons c cs ih =>
    obtain ⟨hrecord, hfiles⟩ := h.change c
    obtain ⟨hrecords, hfiles⟩ := ih hfiles
    exact ⟨congrArg₂ List.cons hrecord hrecords, hfiles⟩

end WaitIndex

namespace WaitGraph

variable {g : WaitGraph τ}

/-- What a change adds to the edges and takes from them. -/
theorem change_spec (g : WaitGraph τ) (c : WaitChange τ) :
    (∃ e, g.change c = (.added e, ⟨g.edges ++ [e]⟩)) ∨
      (∃ e ∈ g.edges, g.change c = (.removed e, ⟨g.edges.erase e⟩)) ∨
      ∃ e, g.change c = (.missed e, g) := by
  cases c with
  | add e => exact .inl ⟨e, rfl⟩
  | remove e =>
    by_cases he : e ∈ g.edges
    · refine .inr (.inl ⟨e, he, ?_⟩)
      rw [change, remove?, if_pos he]
    · refine .inr (.inr ⟨e, ?_⟩)
      rw [change, remove?, if_neg he]

theorem count_changes (cs : List (WaitChange τ)) (e : WaitEdge τ) :
    (g.changes cs).2.edges.count e + (g.changes cs).1.count (.removed e) =
      g.edges.count e + (g.changes cs).1.count (.added e) := by
  induction cs generalizing g with
  | nil => rfl
  | cons c cs ih =>
    rw [changes]
    have hrest := ih (g := (g.change c).2)
    rcases g.change_spec c with ⟨e', hchange⟩ | ⟨e', he', hchange⟩ | ⟨e', hchange⟩
    all_goals
      rw [hchange] at hrest ⊢
      dsimp only at hrest ⊢
      rw [List.count_cons, List.count_cons]
    · rw [List.count_append, List.count_singleton] at hrest
      simp only [beq_iff_eq, WaitRecord.added.injEq, reduceCtorEq, if_false] at hrest ⊢
      omega
    · have hpos := List.count_pos_iff.2 he'
      rw [List.count_erase] at hrest
      simp only [beq_iff_eq, WaitRecord.removed.injEq, reduceCtorEq, if_false] at hrest ⊢
      split at hrest
      · rename_i heq
        subst heq
        rw [if_pos rfl]
        omega
      · rw [if_neg ‹_›]
        omega
    · simp only [beq_iff_eq, reduceCtorEq, if_false]
      exact hrest

theorem edgeCount_changes (cs : List (WaitChange τ)) :
    (g.changes cs).2.edgeCount + (g.changes cs).1.countP WaitRecord.isRemoved =
      g.edgeCount + (g.changes cs).1.countP WaitRecord.isAdded := by
  induction cs generalizing g with
  | nil => rfl
  | cons c cs ih =>
    rw [changes]
    have hrest := ih (g := (g.change c).2)
    rcases g.change_spec c with ⟨e, hchange⟩ | ⟨e, he, hchange⟩ | ⟨e, hchange⟩
    all_goals
      rw [hchange] at hrest ⊢
      dsimp only [edgeCount] at hrest ⊢
      rw [List.countP_cons, List.countP_cons]
      simp only [WaitRecord.isAdded, WaitRecord.isRemoved, if_true, Bool.false_eq_true, if_false]
    · rw [List.length_append, List.length_singleton] at hrest
      omega
    · have hpos := List.length_pos_of_mem he
      rw [List.length_erase_of_mem he] at hrest
      omega
    · exact hrest

/-- The edges that remain are those that are there. -/
theorem remains_iff (cs : List (WaitChange τ)) (e : WaitEdge τ) :
    WaitIndex.Remains (WaitGraph.empty.changes cs).1 e ↔
      e ∈ (WaitGraph.empty.changes cs).2.edges := by
  have hcount := count_changes (g := WaitGraph.empty) cs e
  rw [show (WaitGraph.empty : WaitGraph τ).edges = [] from rfl, List.count_nil] at hcount
  rw [WaitIndex.Remains, ← List.count_pos_iff]
  omega

end WaitGraph

namespace WaitIndex

/-- Whatever is added and removed, an index answers as the plain list of edges does. -/
theorem changes_eq_changes (cs : List (WaitChange τ)) :
    let index := (empty : WaitIndex τ).changes cs
    let graph := WaitGraph.empty.changes cs
    index.1 = graph.1 ∧ (∀ u, index.2.waitersOf u = graph.2.waitersOf u) ∧
      index.2.edgeCount = graph.2.edgeCount ∧ index.2.isEmpty = graph.2.isEmpty := by
  obtain ⟨hrecords, hfiles⟩ := (files_empty (τ := τ)).changes cs
  exact ⟨hrecords, hfiles.waitersOf_eq, hfiles.edgeCount_eq, hfiles.isEmpty_eq⟩

/-- Whatever is added and removed, an index knows the edges that remain: it finds and removes them,
counts them, and lists the waiters of every unit. -/
theorem isExact_changes (cs : List (WaitChange τ)) :
    ((empty : WaitIndex τ).changes cs).2.IsExact ((empty : WaitIndex τ).changes cs).1 := by
  obtain ⟨hrecords, hfiles⟩ := (files_empty (τ := τ)).changes cs
  have hremains := WaitGraph.remains_iff cs
  rw [← hrecords] at hremains
  exact {
    count := fun e ↦ by
      have hcount := WaitGraph.count_changes (g := WaitGraph.empty) cs e
      rw [show (WaitGraph.empty : WaitGraph τ).edges = [] from rfl, List.count_nil, Nat.zero_add,
        ← hrecords] at hcount
      rw [hfiles.perm_edges.count_eq, hcount]
    edgeCount := by
      have hcount := WaitGraph.edgeCount_changes (g := WaitGraph.empty) cs
      rw [show (WaitGraph.empty : WaitGraph τ).edgeCount = 0 from rfl, Nat.zero_add,
        ← hrecords] at hcount
      rw [hfiles.edgeCount_eq, hcount]
    mem_waitersOf := fun u v ↦ by
      rw [waitersOf, Std.ExtTreeSet.mem_toList, hfiles.mem_waiterSet]
      constructor
      · rintro ⟨e, he, rfl, rfl⟩
        exact ⟨e.resource, (hremains e).2 he⟩
      · rintro ⟨resource, hleft⟩
        exact ⟨_, (hremains _).1 hleft, rfl, rfl⟩
    nodup_waitersOf := fun u ↦ SortedSet.nodup_toList _
    remove?_isSome := fun e ↦ by
      rw [hremains]
      rcases hfiles.remove? e with ⟨hx, -, he⟩ | ⟨y, hx, -, he, -⟩
      · simp [hx, he]
      · simp [hx, he]
    remove?_perm := fun e y hy ↦ by
      rcases hfiles.remove? e with ⟨hx, -, -⟩ | ⟨y', hx, -, -, hleft⟩
      · rw [hx] at hy
        cases hy
      · rw [hx, Option.some.injEq] at hy
        rw [← hy]
        exact hleft.perm_edges.trans (hfiles.perm_edges.symm.erase e)
    isEmpty := by
      rw [hfiles.isEmpty_eq, WaitGraph.isEmpty, List.isEmpty_iff, List.eq_nil_iff_forall_not_mem]
      exact forall_congr' fun e ↦ not_congr (hremains e).symm }

end WaitIndex

end ScopeGraphs
