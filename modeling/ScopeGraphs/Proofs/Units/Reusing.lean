import ScopeGraphs.Proofs.Mentions
import ScopeGraphs.Proofs.Units.Recording

/-!
# Reuse under renamed roots

A unit that reuses its previous result asserts again what it asserted then. The renaming under which
it does so comes from the queries that were confirmed. The root scopes that it is handed now take
the places of the previous ones, whether a query has met them or not, and a unit that resumes a
snapshot or starts as a stand-in pairs them off. A unit that is released does not
(`Turn.not_always_follows_roots`): what it asserted on a previous root scope follows only if the
renaming takes that scope to the one in its place (`Turn.release_follows_roots_iff`).
-/

namespace ScopeGraphs

variable {γ : Type}

/-- How scopes change when root scopes are replaced in order, and all other scopes renamed. -/
structure Renaming.ByRoots (p : Renaming) (before now : List Scope) (change : Scope → Scope) :
    Prop where
  root : ∀ e ∈ before.zip now, change e.1 = e.2
  other : ∀ s, s ∉ before → change s = p.apply s

namespace Turn

/-- A previous root scope has one in its place. -/
theorem exists_mem_zip {before now : List Scope} (hlength : before.length = now.length) {s : Scope}
    (hs : s ∈ before) : ∃ s', (s, s') ∈ before.zip now := by
  have hmap : (before.zip now).map Prod.fst = before := List.map_fst_zip (Nat.le_of_eq hlength)
  rw [← hmap, List.mem_map] at hs
  obtain ⟨⟨_, s'⟩, he, rfl⟩ := hs
  exact ⟨s', he⟩

/-- **What a released unit asserts.** It asserts exactly what it asserted in the previous run,
renamed. In this all root scopes are replaced by those in their places exactly if the renaming does
so with every root scope that the unit has asserted something about. -/
theorem release_follows_roots_iff {t : Turn γ} {previous : Report} {p : Renaming}
    {change : Scope → Scope} (hphase : t.unit.phase = .undecided)
    (hprevious : t.unit.previous = some previous)
    (hlength : previous.roots.length = t.unit.roots.length)
    (hchange : p.ByRoots previous.roots t.unit.roots change) :
    t.Records (previous.localGraph.edges.toList.map (Edge.rename p))
        (previous.localGraph.data.toList.map fun e ↦ (p.apply e.1, e.2.rename p)) (t.release p) ∧
      (((∀ e ∈ previous.localGraph.edges, e.rename p = e.mapScopes change) ∧
          ∀ e ∈ previous.localGraph.data.toList,
            (p.apply e.1, e.2.rename p) = (change e.1, e.2.mapScopes change)) ↔
        ∀ e ∈ previous.roots.zip t.unit.roots, previous.localGraph.Mentions e.1 →
          p.apply e.1 = e.2) := by
  refine ⟨t.records_release p hphase hprevious, ?_⟩
  simp only [Edge.rename_eq_mapScopes, Datum.rename_eq_mapScopes]
  rw [ScopeGraph.mapScopes_eq_iff]
  constructor
  · intro h e he hmentions
    exact (h e.1 hmentions).trans (hchange.root e he)
  · intro h s hmentions
    by_cases hs : s ∈ previous.roots
    · obtain ⟨s', he⟩ := exists_mem_zip hlength hs
      exact (h _ he hmentions).trans (hchange.root _ he).symm
    · exact (hchange.other s hs).symm

/-! ### A root scope that no query has met -/

private def child : UnitId := ⟨"root/c"⟩

private def formerRoot : Scope := ⟨⟨"root"⟩, "a-0"⟩

private def presentRoot : Scope := ⟨⟨"root"⟩, "b-0"⟩

private def declaration : Edge := ⟨formerRoot, "E", ⟨child, "t-0"⟩⟩

/-- The previous run, in which the unit declared something in its root scope and asked nothing. -/
private def declared : Report :=
  .mk child [formerRoot] .empty (.of [declaration] []) none [] [] none .initiallyStarted []

/-- The unit in the present run, with another root scope. -/
private def hesitating : Turn Unit where
  unit := { UnitNode.new child none (.checker ()) (some declared) false true with
    phase := .undecided
    roots := [presentRoot] }
  effects := .none
  settings := .withReuse .trivial
  channels := .empty
  nextRequest := 0

private def replaceRoot (s : Scope) : Scope := if s = formerRoot then presentRoot else s

private theorem byRoots_replaceRoot :
    Renaming.identity.ByRoots declared.roots hesitating.unit.roots replaceRoot where
  root e he := by
    obtain rfl := List.mem_singleton.1 he
    exact if_pos rfl
  other s hs := if_neg fun heq : s = formerRoot ↦ hs (heq ▸ List.mem_singleton_self _)

/-- Nothing was asked, so the root scope is not renamed, and the declaration stays where it was. -/
theorem release_follows_roots_iff_declared :
    hesitating.unit.phase = .undecided ∧ hesitating.unit.previous = some declared ∧
      ¬ ∀ e ∈ declared.localGraph.edges, e.rename .identity = e.mapScopes replaceRoot := by
  refine ⟨rfl, rfl, fun hedges ↦ ?_⟩
  have hfollows := (release_follows_roots_iff (t := hesitating) rfl rfl rfl byRoots_replaceRoot).2.1
    ⟨hedges, fun e he ↦ absurd he List.not_mem_nil⟩
  have hroot := hfollows (formerRoot, presentRoot) List.mem_cons_self
    (.inl ⟨declaration, SortedSet.mem_ofList.2 List.mem_cons_self, .inl rfl⟩)
  exact absurd hroot (by decide)

/-- **A released unit does not always follow its roots.** It may assert an edge on a previous root
scope that it has not been handed any more. -/
theorem not_always_follows_roots :
    ¬ ∀ (t : Turn Unit) (previous : Report) (p : Renaming) (change : Scope → Scope),
      t.unit.phase = .undecided → t.unit.previous = some previous →
      previous.roots.length = t.unit.roots.length →
      p.ByRoots previous.roots t.unit.roots change →
      ∀ e ∈ (t.release p).unit.localGraph.edges, e ∈ t.unit.localGraph.edges ∨
        ∃ e' ∈ previous.localGraph.edges, e = e'.mapScopes change := by
  intro h
  have hasserted : declaration ∈ (hesitating.release .identity).unit.localGraph.edges := by
    rw [(hesitating.records_release .identity rfl rfl).localGraph, ScopeGraph.mem_edges_extend]
    exact .inl (List.mem_map.2 ⟨declaration, by
      rw [Std.ExtTreeSet.mem_toList]
      exact SortedSet.mem_ofList.2 List.mem_cons_self, by decide⟩)
  rcases h hesitating declared .identity replaceRoot rfl rfl rfl byRoots_replaceRoot declaration
    hasserted with hold | ⟨e, he, heq⟩
  · exact Std.ExtTreeSet.not_mem_empty hold
  · obtain rfl := List.mem_singleton.1 (SortedSet.mem_ofList.1 he)
    exact absurd heq (by decide)

end Turn

end ScopeGraphs
