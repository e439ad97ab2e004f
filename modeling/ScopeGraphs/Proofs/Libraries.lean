import Mathlib.Data.List.Nodup
import Mathlib.Data.Set.Function
import ScopeGraphs.Library
import ScopeGraphs.Proofs.Contents
import ScopeGraphs.Proofs.Renaming.Merging

/-!
# Binding libraries

A library is bound with one renaming, in which roots go to the scopes given for them and all other
scopes of the graph to scopes that are made for them (`Library.binding`). Only the pairs of roots
are checked when they are recorded. The others need no check: their old scopes are not bound yet,
and a scope that is made could only be bound already if it had been given for a root. So all
scopes of the graph are bound, and no two of them to the same scope.
-/

namespace ScopeGraphs

namespace ScopeGraph

variable {g : ScopeGraph} {s : Scope} {e : Edge} {d : Datum}

theorem mem_scopes_iff : s ∈ g.scopes ↔
    (∃ e ∈ g.edges, s = e.source ∨ s = e.target) ∨ ∃ d, g.datum? s = some d := by
  rw [mem_scopes, Std.ExtTreeMap.mem_iff_isSome_getElem?, Option.isSome_iff_exists]
  exact Iff.rfl

theorem mem_scopes_of_source (he : e ∈ g.edges) : e.source ∈ g.scopes :=
  mem_scopes_iff.2 (.inl ⟨e, he, .inl rfl⟩)

theorem mem_scopes_of_target (he : e ∈ g.edges) : e.target ∈ g.scopes :=
  mem_scopes_iff.2 (.inl ⟨e, he, .inr rfl⟩)

theorem mem_scopes_of_datum? (hd : g.datum? s = some d) : s ∈ g.scopes :=
  mem_scopes_iff.2 (.inr ⟨d, hd⟩)

end ScopeGraph

namespace Library

variable {lib : Library} {owner : UnitId} {given own : List Scope} {graph : ScopeGraph}
  {roots : Renaming} {s t : Scope}

theorem freshScope_injective (owner : UnitId) : Function.Injective (freshScope owner) := by
  intro i j h
  have hrepr : toString i = toString j := (String.append_right_inj _).1 (Scope.mk.inj h).2
  have hdigits : Nat.toDigits 10 i = Nat.toDigits 10 j := String.ofList_injective hrepr
  rw [← Nat.ofDigitChars_ten_toDigits (n := i), hdigits, Nat.ofDigitChars_ten_toDigits]

/-! ## The renaming -/

/-- The scopes of a library that are no roots, in order. -/
def free (lib : Library) : List Scope := lib.graph.scopes.toList.filter fun s ↦ s ∉ lib.roots

/-- The scopes that are made for them. -/
def made (lib : Library) (owner : UnitId) : List Scope :=
  (List.range lib.free.length).map (freshScope owner)

/-- The renaming of a library whose roots are renamed already. -/
def binding (lib : Library) (owner : UnitId) (roots : Renaming) : Renaming :=
  roots.putEach (lib.free.zip (lib.made owner))

/-- A renaming of the roots to the scopes given for them, of which there are enough and none is one
that would be made. -/
structure IsBound (lib : Library) (owner : UnitId) (given : List Scope) (roots : Renaming) :
    Prop where
  length_eq : given.length = lib.roots.length
  pairs : roots.pairSet = {e | e ∈ lib.roots.zip given}
  notMem : ∀ i, freshScope owner i ∉ given

theorem mem_free : s ∈ lib.free ↔ s ∈ lib.graph.scopes ∧ s ∉ lib.roots := by
  rw [free, List.mem_filter, Std.ExtTreeSet.mem_toList, decide_eq_true_eq]

theorem nodup_free (lib : Library) : lib.free.Nodup := (SortedSet.nodup_toList _).filter _

theorem length_made : (lib.made owner).length = lib.free.length := by
  rw [made, List.length_map, List.length_range]

theorem nodup_made (lib : Library) (owner : UnitId) : (lib.made owner).Nodup :=
  List.nodup_range.map (freshScope_injective owner)

theorem map_fst_zip_made (lib : Library) (owner : UnitId) :
    (lib.free.zip (lib.made owner)).map Prod.fst = lib.free :=
  List.map_fst_zip (Nat.le_of_eq length_made.symm)

theorem map_snd_zip_made (lib : Library) (owner : UnitId) :
    (lib.free.zip (lib.made owner)).map Prod.snd = lib.made owner :=
  List.map_snd_zip (Nat.le_of_eq length_made)

theorem exists_of_mem_made (ht : t ∈ lib.made owner) : ∃ i, freshScope owner i = t := by
  obtain ⟨i, -, rfl⟩ := List.mem_map.1 ht
  exact ⟨i, rfl⟩

theorem owner_of_mem_made (ht : t ∈ lib.made owner) : t.owner = owner := by
  obtain ⟨i, rfl⟩ := exists_of_mem_made ht
  rfl

namespace IsBound

theorem get?_roots_iff (h : lib.IsBound owner given roots) :
    roots.get? s = some t ↔ (s, t) ∈ lib.roots.zip given :=
  Set.ext_iff.1 h.pairs (s, t)

/-- Exactly the roots are bound. -/
theorem get?_roots_eq_none_iff (h : lib.IsBound owner given roots) :
    roots.get? s = none ↔ s ∉ lib.roots := by
  have hfst : (lib.roots.zip given).map Prod.fst = lib.roots :=
    List.map_fst_zip (Nat.le_of_eq h.length_eq.symm)
  have hmem : s ∈ lib.roots ↔ ∃ t, roots.get? s = some t := by
    simp only [h.get?_roots_iff]
    conv_lhs => rw [← hfst]
    simp
  rw [hmem, not_exists, Option.eq_none_iff_forall_ne_some]

/-- No scope that is made has been given for a root. -/
theorem getInverse?_roots_eq_none (h : lib.IsBound owner given roots) (ht : t ∈ lib.made owner) :
    roots.getInverse? t = none := by
  obtain ⟨i, rfl⟩ := exists_of_mem_made ht
  refine Option.eq_none_iff_forall_ne_some.2 fun s hs ↦ h.notMem i ?_
  exact (List.of_mem_zip (h.get?_roots_iff.1 (Renaming.get?_eq_some_iff.2 hs))).2

theorem get?_binding_of_root (h : lib.IsBound owner given roots)
    (hst : (s, t) ∈ lib.roots.zip given) : (lib.binding owner roots).get? s = some t :=
  roots.self_le_putEach _ (h.get?_roots_iff.2 hst)

theorem get?_binding_of_free (h : lib.IsBound owner given roots)
    (hst : (s, t) ∈ lib.free.zip (lib.made owner)) :
    (lib.binding owner roots).get? s = some t := by
  refine Renaming.get?_putEach (e := (s, t)) (fun e he ↦ ?_) (fun e he ↦ ?_) ?_ ?_ hst
  · exact h.get?_roots_eq_none_iff.2 (mem_free.1 (List.of_mem_zip he).1).2
  · exact h.getInverse?_roots_eq_none (List.of_mem_zip he).2
  · rw [map_fst_zip_made]
    exact lib.nodup_free
  · rw [map_snd_zip_made]
    exact lib.nodup_made owner

/-- The scopes that are made are what the others become. -/
theorem map_binding_free (h : lib.IsBound owner given roots) :
    lib.free.map (lib.binding owner roots).apply = lib.made owner := by
  calc lib.free.map (lib.binding owner roots).apply
    _ = (lib.free.zip (lib.made owner)).map fun e ↦ (lib.binding owner roots).apply e.1 := by
      conv_lhs => rw [← map_fst_zip_made lib owner, List.map_map]
      rfl
    _ = (lib.free.zip (lib.made owner)).map Prod.snd := List.map_congr_left fun e he ↦
      Renaming.apply_eq_of_get? (h.get?_binding_of_free he)
    _ = lib.made owner := map_snd_zip_made lib owner

/-- What is neither a scope of the graph nor a root stays as it is. -/
theorem apply_binding_eq_self (h : lib.IsBound owner given roots) (hs : s ∉ lib.graph.scopes)
    (hroot : s ∉ lib.roots) : (lib.binding owner roots).apply s = s := by
  cases hget : (lib.binding owner roots).get? s with
  | none => rw [Renaming.apply, hget, Option.getD_none]
  | some t =>
    rcases Renaming.get?_or_mem_of_putEach hget with hget | hmem
    · rw [h.get?_roots_eq_none_iff.2 hroot] at hget
      exact absurd hget.symm (Option.some_ne_none t)
    · exact absurd (mem_free.1 (List.of_mem_zip hmem).1).1 hs

/-- Each scope of the graph is paired, as a root or as one of the others. -/
theorem exists_pair (h : lib.IsBound owner given roots) (hs : s ∈ lib.graph.scopes) :
    ∃ t, (s, t) ∈ lib.roots.zip given ∨ (s, t) ∈ lib.free.zip (lib.made owner) := by
  by_cases hroot : s ∈ lib.roots
  · obtain ⟨t, ht⟩ :=
      Option.ne_none_iff_exists'.1 (mt h.get?_roots_eq_none_iff.1 (not_not.2 hroot))
    exact ⟨t, .inl (h.get?_roots_iff.1 ht)⟩
  · have hfree : s ∈ (lib.free.zip (lib.made owner)).map Prod.fst := by
      rw [map_fst_zip_made]
      exact mem_free.2 ⟨hs, hroot⟩
    obtain ⟨e, he, rfl⟩ := List.mem_map.1 hfree
    exact ⟨e.2, .inr he⟩

/-- All scopes of the graph are bound. -/
theorem get?_binding (h : lib.IsBound owner given roots) (hs : s ∈ lib.graph.scopes) :
    (lib.binding owner roots).get? s = some ((lib.binding owner roots).apply s) := by
  obtain ⟨t, ht | ht⟩ := h.exists_pair hs
  · rw [h.get?_binding_of_root ht, Renaming.apply_eq_of_get? (h.get?_binding_of_root ht)]
  · rw [h.get?_binding_of_free ht, Renaming.apply_eq_of_get? (h.get?_binding_of_free ht)]

/-- A scope of the graph becomes the scope given for it, or one that is made. -/
theorem root_or_made (h : lib.IsBound owner given roots) (hs : s ∈ lib.graph.scopes) :
    (s, (lib.binding owner roots).apply s) ∈ lib.roots.zip given ∨
      (lib.binding owner roots).apply s ∈ lib.made owner := by
  obtain ⟨t, ht | ht⟩ := h.exists_pair hs
  · rw [Renaming.apply_eq_of_get? (h.get?_binding_of_root ht)]
    exact .inl ht
  · rw [Renaming.apply_eq_of_get? (h.get?_binding_of_free ht)]
    exact .inr (List.of_mem_zip ht).2

/-- No two scopes of the graph become one. -/
theorem injOn_binding (h : lib.IsBound owner given roots) :
    Set.InjOn (lib.binding owner roots).apply {s | s ∈ lib.graph.scopes} := by
  intro s hs t ht heq
  exact Renaming.get?_inj (h.get?_binding hs) (heq ▸ h.get?_binding ht)

end IsBound

/-! ## Binding -/

/-- A library is bound exactly if there is a renaming of its roots. -/
theorem bind_eq_ok_iff (hgiven : ∀ i, freshScope owner i ∉ given) :
    lib.bind owner given = .ok (own, graph) ↔
      ∃ roots : Renaming, lib.IsBound owner given roots ∧ own = lib.made owner ∧
        graph = lib.graph.rename (lib.binding owner roots) := by
  rw [bind]
  split
  · rename_i hlength
    exact ⟨nofun, fun ⟨_, hroots, _⟩ ↦ absurd hroots.length_eq hlength⟩
  · rename_i hlength
    rw [not_not] at hlength
    split
    · rename_i hnone
      refine ⟨nofun, fun ⟨_, hroots, _⟩ ↦ ?_⟩
      exact nomatch hnone.symm.trans (Renaming.of?_eq_some_iff.2 hroots.pairs)
    · rename_i roots hsome
      have hroots : lib.IsBound owner given roots :=
        ⟨hlength, Renaming.of?_eq_some_iff.1 hsome, hgiven⟩
      have hfree : (lib.graph.scopes.toList.filter fun s ↦ !roots.containsOld s) = lib.free := by
        refine List.filter_congr fun s _ ↦ ?_
        rw [Renaming.containsOld, Bool.eq_iff_iff, Bool.not_eq_true', Option.isSome_eq_false_iff,
          Option.isNone_iff_eq_none, hroots.get?_roots_eq_none_iff, decide_eq_true_eq]
      rw [hfree]
      constructor
      · intro h
        obtain ⟨rfl, rfl⟩ := Prod.mk.inj (Except.ok.inj h)
        exact ⟨roots, hroots, rfl, rfl⟩
      · rintro ⟨roots', hroots', rfl, rfl⟩
        obtain rfl := Renaming.pairSet_injective (hroots'.pairs.trans hroots.pairs.symm)
        rfl

/-- Whether there is a renaming of the roots. -/
theorem exists_isBound_iff (hgiven : ∀ i, freshScope owner i ∉ given) :
    (∃ roots, lib.IsBound owner given roots) ↔
      given.length = lib.roots.length ∧ IsOneToOne {e | e ∈ lib.roots.zip given} := by
  rw [← Renaming.of?_isSome_iff, Option.isSome_iff_exists]
  simp only [Renaming.of?_eq_some_iff]
  constructor
  · rintro ⟨roots, h⟩
    exact ⟨h.length_eq, roots, h.pairs⟩
  · rintro ⟨hlength, roots, hpairs⟩
    exact ⟨roots, hlength, hpairs, hgiven⟩

/-- A bound library has edges only of scopes that it was handed and of scopes made for it, unless it
was handed one that would be made for it. -/
theorem source_of_bind (h : lib.bind owner given = .ok (own, graph))
    (hgiven : ∀ i, freshScope owner i ∉ given) {e : Edge} (he : e ∈ graph.edges) :
    e.source ∈ given ∨ e.source.owner = owner := by
  obtain ⟨roots, hroots, rfl, rfl⟩ := (bind_eq_ok_iff hgiven).1 h
  obtain ⟨e, hmem, rfl⟩ := ScopeGraph.mem_edges_rename.1 he
  change (lib.binding owner roots).apply e.source ∈ given ∨
    ((lib.binding owner roots).apply e.source).owner = owner
  rcases hroots.root_or_made (ScopeGraph.mem_scopes_of_source hmem) with hroot | hmade
  · exact .inl (List.of_mem_zip hroot).2
  · exact .inr (owner_of_mem_made hmade)

end Library

end ScopeGraphs
