import ScopeGraphs.Proofs.Libraries
import ScopeGraphs.Proofs.Mentions
import ScopeGraphs.Proofs.Resolution.Renamed

/-!
# Bound libraries are copies

What a unit gets when it binds a library is the graph of the library under another name for each
scope: nothing is lost, nothing is added and nothing becomes one. The roots have the names that were
given for them, and the other names are the unit's own.

For that none of the given scopes may be the unit's own. Otherwise a name that is made could be
one that was given, and as the pairs of a renaming are not checked when such names are entered, two
scopes could become one.
-/

namespace ScopeGraphs

namespace Library

variable {lib : Library} {owner : UnitId} {given own : List Scope} {graph : ScopeGraph}
  {roots : Renaming} {f : Scope → Scope}

/-- A list of scopes and a graph are what a library becomes when its scopes are changed in a way
that keeps them apart, gives each root the scope at its place and each other scope one of the
owner's. -/
structure IsCopy (lib : Library) (owner : UnitId) (given own : List Scope) (graph : ScopeGraph)
    (f : Scope → Scope) : Prop where
  injOn : Set.InjOn f {s | s ∈ lib.graph.scopes}
  roots : ∀ e ∈ lib.roots.zip given, f e.1 = e.2
  own_eq : own = (lib.graph.scopes.toList.filter fun s ↦ s ∉ lib.roots).map f
  nodup_own : own.Nodup
  owner_own : ∀ s ∈ own, s.owner = owner
  others : ∀ s, s ∉ lib.graph.scopes → s ∉ lib.roots → f s = s
  edges : ∀ e, e ∈ graph.edges ↔ ∃ e' ∈ lib.graph.edges, e'.mapScopes f = e
  data : ∀ s d, graph.datum? s = some d ↔
    ∃ s' d', lib.graph.datum? s' = some d' ∧ f s' = s ∧ d'.mapScopes f = d

theorem datum?_rename_eq_some_iff {g : ScopeGraph} {p : Renaming}
    (hinj : Set.InjOn p.apply {s | s ∈ g.scopes}) {s : Scope} {d : Datum} :
    (g.rename p).datum? s = some d ↔
      ∃ s' d', g.datum? s' = some d' ∧ p.apply s' = s ∧ d'.mapScopes p.apply = d := by
  have hdatum {s' : Scope} (hs' : s' ∈ g.scopes) :
      (g.rename p).datum? (p.apply s') = (g.datum? s').map (Datum.rename p) :=
    ScopeGraph.datum?_rename hinj (fun _ h ↦ h) hs'
  constructor
  · intro h
    obtain ⟨s', hs', rfl⟩ := ScopeGraph.mem_scopes_rename.1 (ScopeGraph.mem_scopes_of_datum? h)
    rw [hdatum hs'] at h
    obtain ⟨d', hd', rfl⟩ := Option.map_eq_some_iff.1 h
    exact ⟨s', d', hd', rfl, (Datum.rename_eq_mapScopes p d').symm⟩
  · rintro ⟨s', d', hd', rfl, rfl⟩
    rw [hdatum (ScopeGraph.mem_scopes_of_datum? hd'), hd', Option.map_some,
      Datum.rename_eq_mapScopes]

theorem IsBound.isCopy (h : lib.IsBound owner given roots) :
    lib.IsCopy owner given (lib.made owner) (lib.graph.rename (lib.binding owner roots))
      (lib.binding owner roots).apply where
  injOn := h.injOn_binding
  roots e he := Renaming.apply_eq_of_get? (h.get?_binding_of_root he)
  own_eq := h.map_binding_free.symm
  nodup_own := lib.nodup_made owner
  owner_own _ := owner_of_mem_made
  others _ hs hroot := h.apply_binding_eq_self hs hroot
  edges e := by
    rw [ScopeGraph.mem_edges_rename]
    rfl
  data s d := datum?_rename_eq_some_iff h.injOn_binding

namespace IsCopy

theorem mem_edges_iff (h : lib.IsCopy owner given own graph f) {s t : Scope} {l : Label}
    (hs : s ∈ lib.graph.scopes) (ht : t ∈ lib.graph.scopes) :
    (⟨f s, l, f t⟩ : Edge) ∈ graph.edges ↔ ⟨s, l, t⟩ ∈ lib.graph.edges := by
  rw [h.edges]
  constructor
  · rintro ⟨⟨s', l', t'⟩, he, heq⟩
    obtain ⟨hs', rfl, ht'⟩ := Edge.mk.inj heq
    obtain rfl := h.injOn (ScopeGraph.mem_scopes_of_source he) hs hs'
    obtain rfl := h.injOn (ScopeGraph.mem_scopes_of_target he) ht ht'
    exact he
  · intro he
    exact ⟨_, he, rfl⟩

theorem datum?_eq (h : lib.IsCopy owner given own graph f) {s : Scope}
    (hs : s ∈ lib.graph.scopes) :
    graph.datum? (f s) = (lib.graph.datum? s).map (Datum.mapScopes f) := by
  refine Option.ext fun d ↦ ?_
  rw [h.data, Option.map_eq_some_iff]
  constructor
  · rintro ⟨s', d', hd', hs', rfl⟩
    obtain rfl := h.injOn (ScopeGraph.mem_scopes_of_datum? hd') hs hs'
    exact ⟨d', hd', rfl⟩
  · rintro ⟨d', hd', rfl⟩
    exact ⟨s, d', hd', rfl, rfl⟩

theorem mem_scopes_iff (h : lib.IsCopy owner given own graph f) {t : Scope} :
    t ∈ graph.scopes ↔ ∃ s ∈ lib.graph.scopes, f s = t := by
  constructor
  · intro ht
    rcases ScopeGraph.mem_scopes_iff.1 ht with ⟨e, he, hend⟩ | ⟨d, hd⟩
    · obtain ⟨e', he', rfl⟩ := (h.edges e).1 he
      rcases hend with rfl | rfl
      · exact ⟨e'.source, ScopeGraph.mem_scopes_of_source he', rfl⟩
      · exact ⟨e'.target, ScopeGraph.mem_scopes_of_target he', rfl⟩
    · obtain ⟨s, d', hd', rfl, -⟩ := (h.data t d).1 hd
      exact ⟨s, ScopeGraph.mem_scopes_of_datum? hd', rfl⟩
  · rintro ⟨s, hs, rfl⟩
    rcases ScopeGraph.mem_scopes_iff.1 hs with ⟨e, he, hend⟩ | ⟨d, hd⟩
    · have hmem : e.mapScopes f ∈ graph.edges := (h.edges _).2 ⟨e, he, rfl⟩
      rcases hend with rfl | rfl
      · exact ScopeGraph.mem_scopes_of_source hmem
      · exact ScopeGraph.mem_scopes_of_target hmem
    · exact ScopeGraph.mem_scopes_of_datum? ((h.data _ _).2 ⟨s, d, hd, rfl, rfl⟩)

end IsCopy

/-- **A bound library is a copy of the library.** If no given scope is the owner's own, a library
can be bound exactly if as many scopes are given as there are roots and the pairs of a root and the
scope at its place are one to one, where a pair may occur more than once. What comes out is then the
graph of the library with all scopes changed, inside data as well, in a way that keeps the scopes of
the graph apart, gives each root its scope and each other scope one of the owner's, and these are
the scopes that come with the graph. So an edge or a datum is in one graph exactly if it is in the
other. -/
theorem bind_isCopy (hgiven : ∀ s ∈ given, s.owner ≠ owner) :
    ((∃ own graph, lib.bind owner given = .ok (own, graph)) ↔
      given.length = lib.roots.length ∧ IsOneToOne {e | e ∈ lib.roots.zip given}) ∧
    ∀ own graph, lib.bind owner given = .ok (own, graph) →
      ∃ f : Scope → Scope, lib.IsCopy owner given own graph f ∧
        (∀ t, t ∈ graph.scopes ↔ ∃ s ∈ lib.graph.scopes, f s = t) ∧
        (∀ s ∈ lib.graph.scopes, ∀ t ∈ lib.graph.scopes, ∀ l : Label,
          ((⟨f s, l, f t⟩ : Edge) ∈ graph.edges ↔ ⟨s, l, t⟩ ∈ lib.graph.edges)) ∧
        ∀ s ∈ lib.graph.scopes,
          graph.datum? (f s) = (lib.graph.datum? s).map (Datum.mapScopes f) := by
  have hfresh (i : Nat) : freshScope owner i ∉ given := fun hmem ↦ hgiven _ hmem rfl
  constructor
  · rw [← exists_isBound_iff hfresh]
    simp only [bind_eq_ok_iff hfresh]
    constructor
    · rintro ⟨-, -, roots, hroots, -⟩
      exact ⟨roots, hroots⟩
    · rintro ⟨roots, hroots⟩
      exact ⟨_, _, roots, hroots, rfl, rfl⟩
  · intro own graph hbind
    obtain ⟨roots, hroots, rfl, rfl⟩ := (bind_eq_ok_iff hfresh).1 hbind
    have hcopy := hroots.isCopy
    exact ⟨_, hcopy, fun _ ↦ hcopy.mem_scopes_iff, fun _ hs _ ht _ ↦ hcopy.mem_edges_iff hs ht,
      fun _ hs ↦ hcopy.datum?_eq hs⟩

/-- A root with a declaration that points back to it. -/
private def oneDeclaration : Library where
  roots := [⟨⟨"lib"⟩, "root"⟩]
  graph := .of [⟨⟨⟨"lib"⟩, "root"⟩, "E", ⟨⟨"lib"⟩, "decl"⟩⟩]
    [(⟨⟨"lib"⟩, "decl"⟩, .scope ⟨⟨"lib"⟩, "root"⟩)]

/-- A unit binds the library to a scope of its parent. -/
theorem bind_isCopy_oneDeclaration :
    (∀ s ∈ [(⟨⟨"main"⟩, "r-0"⟩ : Scope)], s.owner ≠ ⟨"main/std"⟩) ∧
      ∃ own graph f, oneDeclaration.bind ⟨"main/std"⟩ [⟨⟨"main"⟩, "r-0"⟩] = .ok (own, graph) ∧
        oneDeclaration.IsCopy ⟨"main/std"⟩ [⟨⟨"main"⟩, "r-0"⟩] own graph f := by
  have hgiven : ∀ s ∈ [(⟨⟨"main"⟩, "r-0"⟩ : Scope)], s.owner ≠ ⟨"main/std"⟩ := by decide
  obtain ⟨hiff, hcopy⟩ := @bind_isCopy oneDeclaration _ _ hgiven
  obtain ⟨own, graph, hbind⟩ := hiff.2 ⟨rfl, by simp [IsOneToOne, oneDeclaration]⟩
  obtain ⟨f, hf, -⟩ := hcopy own graph hbind
  exact ⟨hgiven, own, graph, f, hbind, hf⟩

end Library

end ScopeGraphs
