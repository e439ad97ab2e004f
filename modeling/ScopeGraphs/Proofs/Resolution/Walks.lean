import Mathlib.Data.Set.Finite.Lattice
import ScopeGraphs.Proofs.Paths
import ScopeGraphs.Proofs.Resolution.Views

/-!
# The walks of a query

`View.Finds` follows a query step by step: it says what can be found from a path under a pattern,
by ending there or by one more step. `ScopeGraph.Matches` describes the same finds as a whole: walks
in a graph that visit no scope twice, spell an acceptable word and end in an acceptable datum. The
two agree (`View.finds_start_iff`).

A walk cannot be extended more often than there are scopes it has not visited. That number is the
`room` of a path, and there are only finitely many finds because it decreases.
-/

namespace ScopeGraphs

/-! ## What can be found from a path -/

namespace View

/-- What a query finds from a path under a pattern. -/
inductive Finds (v : View) : Path → Pattern → ResolvedPath → Prop where
  /-- The path itself, if it may end where it is. -/
  | here {path : Path} {p : Pattern} {d : Datum} (hp : p.accepting = true)
      (hd : v.datum? path.target = some d) (hacc : v.accepts d = true) : Finds v path p ⟨path, d⟩
  /-- What is found from the path after one more step. -/
  | there {path q : Path} {p next : Pattern} {l : Label} {t : Scope} {f : ResolvedPath}
      (hl : l ∈ v.labels) (hp : p.step? l = some next) (ht : t ∈ v.targets path.target l)
      (hq : path.step? l t = some q) (hf : Finds v q next f) : Finds v path p f

/-- What a query finds from a path by leaving it through a slot. -/
inductive FindsBy (v : View) (path : Path) (p : Pattern) : Slot → ResolvedPath → Prop where
  /-- Through the slot of the datum: the path itself. -/
  | datum {d : Datum} (hd : v.datum? path.target = some d) (hacc : v.accepts d = true) :
      FindsBy v path p .datum ⟨path, d⟩
  /-- Through the edges under a label: what is found from the path after such a step. -/
  | edge {q : Path} {next : Pattern} {l : Label} {t : Scope} {f : ResolvedPath}
      (hp : p.step? l = some next) (ht : t ∈ v.targets path.target l)
      (hq : path.step? l t = some q) (hf : Finds v q next f) : FindsBy v path p (.edge l) f

variable {v : View} {path : Path} {p : Pattern} {f : ResolvedPath}

theorem finds_iff_findsBy :
    v.Finds path p f ↔ ∃ a ∈ Resolver.slots v.labels p, v.FindsBy path p a f := by
  constructor
  · intro h
    cases h with
    | here hp hd hacc => exact ⟨.datum, mem_slots_datum.2 hp, .datum hd hacc⟩
    | @there _ _ _ _ l _ _ hl hp ht hq hf =>
      exact ⟨.edge l, mem_slots_edge.2 ⟨hl, by simp [hp]⟩, .edge hp ht hq hf⟩
  · rintro ⟨a, ha, h⟩
    cases h with
    | datum hd hacc => exact .here (mem_slots_datum.1 ha) hd hacc
    | edge hp ht hq hf => exact .there (mem_slots_edge.1 ha).1 hp ht hq hf

/-- What is found from a path continues it. -/
theorem Finds.steps_eq (h : v.Finds path p f) : ∃ rest, f.path.steps = path.steps ++ rest := by
  induction h with
  | here => exact ⟨[], by simp⟩
  | there _ _ _ hq _ ih =>
    obtain ⟨rest, hrest⟩ := ih
    rw [Path.steps_of_step? hq, List.append_assoc] at hrest
    exact ⟨_, hrest⟩

/-- A path that has visited less finds at least as much from the same scope. -/
theorem Finds.of_shorter (h : v.Finds path p f) (short : Path)
    (htarget : short.target = path.target) (hscopes : short.scopes ⊆ path.scopes) :
    ∃ f', v.Finds short p f' := by
  induction h generalizing short with
  | here hp hd hacc => exact ⟨_, .here hp (htarget ▸ hd) hacc⟩
  | @there path q p next l t f hl hp ht hq _ ih =>
    have hfresh : t ∉ short.scopes := fun hmem ↦ Path.not_mem_of_step? hq (hscopes hmem)
    have hstep : short.step? l t = some ⟨short.source, short.steps ++ [(l, t)]⟩ :=
      Path.step?_eq_some_iff.2 ⟨hfresh, rfl⟩
    obtain ⟨f', hf'⟩ := ih ⟨short.source, short.steps ++ [(l, t)]⟩
      (by rw [Path.target_of_step? hstep, Path.target_of_step? hq])
      (by
        rw [Path.scopes_of_step? hstep, Path.scopes_of_step? hq]
        exact List.append_subset.2 ⟨List.subset_append_of_subset_left _ hscopes,
          List.subset_append_right _ _⟩)
    exact ⟨f', .there hl hp (htarget ▸ ht) hstep hf'⟩

/-! ## Room -/

/-- The number of scopes among the given ones that a path has not visited. -/
def room (U : List Scope) (path : Path) : Nat := (U.filter fun s ↦ s ∉ path.scopes).length

/-- Every step leads to one of the given scopes. -/
def Within (v : View) (U : List Scope) : Prop := ∀ s l, ∀ t ∈ v.targets s l, t ∈ U

/-- A step takes up room. -/
theorem room_lt_of_step? {U : List Scope} {q : Path} {l : Label} {t : Scope} (ht : t ∈ U)
    (hq : path.step? l t = some q) : room U q < room U path := by
  have hfilter : (U.filter fun s ↦ s ∉ q.scopes) =
      (U.filter fun s ↦ s ∉ path.scopes).filter fun s ↦ s ≠ t := by
    rw [List.filter_filter, Path.scopes_of_step? hq]
    refine List.filter_congr fun s _ ↦ ?_
    simp [and_comm]
  rw [room, room, hfilter, List.length_filter_lt_length_iff_exists]
  exact ⟨t, List.mem_filter.2 ⟨ht, by simpa using Path.not_mem_of_step? hq⟩, by simp⟩

theorem room_le (U : List Scope) (path : Path) : room U path ≤ U.length := List.length_filter_le _ _

/-- There are only finitely many finds. -/
theorem finite_finds {U : List Scope} (hU : v.Within U) (path : Path) (p : Pattern) :
    {f | v.Finds path p f}.Finite := by
  induction hn : room U path using Nat.strong_induction_on generalizing path p with
  | _ n ih =>
    have hsub : {f | v.Finds path p f} ⊆
        {f | ∃ d ∈ (v.datum? path.target).toList, f = ⟨path, d⟩} ∪
          ⋃ l ∈ {l | l ∈ v.labels}, ⋃ next ∈ {q | q ∈ (p.step? l).toList},
            ⋃ t ∈ {t | t ∈ v.targets path.target l}, ⋃ q ∈ {q | q ∈ (path.step? l t).toList},
              {f | v.Finds q next f} := by
      rintro f hf
      cases hf with
      | here hp hd hacc => exact .inl ⟨_, by simp [hd], rfl⟩
      | there hl hp ht hq hf =>
        simp only [Set.mem_union, Set.mem_iUnion]
        exact .inr ⟨_, hl, _, by simp [hp], _, ht, _, by simp [hq], hf⟩
    refine Set.Finite.subset (Set.Finite.union ?_ ?_) hsub
    · refine ((List.finite_toSet (v.datum? path.target).toList).image fun d ↦
        (⟨path, d⟩ : ResolvedPath)).subset ?_
      rintro f ⟨d, hd, rfl⟩
      exact ⟨d, hd, rfl⟩
    · refine (List.finite_toSet _).biUnion fun l hl ↦ (List.finite_toSet _).biUnion fun next _ ↦
        (List.finite_toSet _).biUnion fun t ht ↦ (List.finite_toSet _).biUnion fun q hq ↦ ?_
      have hq : path.step? l t = some q := by simpa using hq
      exact ih _ (hn ▸ room_lt_of_step? (hU _ _ _ ht) hq) q next rfl

end View

/-! ## The walks of a graph -/

/-- A resolved path that a query may answer with, as far as walks and data are concerned: it starts
at the source, visits no scope twice, walks along edges of the graph under listed labels, spells a
word of the pattern, and ends in a scope whose datum is accepted. -/
structure ScopeGraph.Matches (g : ScopeGraph) (labels : List Label) (source : Scope) (p : Pattern)
    (accepts : Datum → Bool) (f : ResolvedPath) : Prop where
  source : f.path.source = source
  simple : f.path.scopes.Nodup
  edges : ∀ e ∈ f.path.edges, e ∈ g.edges
  labels : ∀ l ∈ f.path.labels, l ∈ labels
  word : p.accepts f.path.labels = true
  datum : g.datum? f.path.target = some f.datum
  accepts : accepts f.datum = true

/-- A path that a query has taken so far in a graph, and the pattern that is left of the one it
started with. -/
structure ScopeGraph.Walked (g : ScopeGraph) (labels : List Label) (p₀ : Pattern) (path : Path)
    (p : Pattern) : Prop where
  simple : path.scopes.Nodup
  edges : ∀ e ∈ path.edges, e ∈ g.edges
  labels : ∀ l ∈ path.labels, l ∈ labels
  word : p₀.run? path.labels = some p

namespace View

/-- The view of a graph under rules that only look at data. -/
def ofGraph (g : ScopeGraph) (labels : List Label) (preference : Preference)
    (accepts : Datum → Bool) (covers : Datum → Datum → Bool) (coversAll : Bool) : View where
  labels := labels
  preference := preference
  targets := g.targets
  datum? := g.datum?
  accepts := accepts
  covers := covers
  coversAll := coversAll

variable {g : ScopeGraph} {labels : List Label} {preference : Preference} {accepts : Datum → Bool}
  {covers : Datum → Datum → Bool} {coversAll : Bool} {path : Path} {p p₀ : Pattern}
  {f : ResolvedPath}

/-- What is found after a walk is a walk as a whole. -/
theorem Finds.matches (h : (ofGraph g labels preference accepts covers coversAll).Finds path p f)
    (hw : g.Walked labels p₀ path p) : g.Matches labels path.source p₀ accepts f := by
  induction h with
  | here hp hd hacc =>
    exact ⟨rfl, hw.simple, hw.edges, hw.labels, by simp [Pattern.accepts, hw.word, hp], hd, hacc⟩
  | there hl hp ht hq _ ih =>
    rw [← Path.source_of_step? hq]
    refine ih ⟨?_, ?_, ?_, ?_⟩
    · rw [Path.scopes_of_step? hq, ← List.concat_eq_append]
      exact hw.simple.concat (Path.not_mem_of_step? hq)
    · rw [Path.edges_of_step? hq]
      simpa [or_imp, forall_and] using ⟨hw.edges, ScopeGraph.mem_targets.1 ht⟩
    · rw [Path.labels_of_step? hq]
      simpa [or_imp, forall_and] using ⟨hw.labels, hl⟩
    · rw [Path.labels_of_step? hq, Pattern.run?_append, hw.word]
      simpa [Pattern.run?] using hp

/-- A walk as a whole is found from each of its beginnings. -/
theorem finds_of_matches (rest : List (Label × Scope)) {s : Scope} {done : List (Label × Scope)}
    (hf : f.path = ⟨s, done ++ rest⟩) (hm : g.Matches labels s p₀ accepts f)
    (hp : p₀.run? (done.map Prod.fst) = some p) :
    (ofGraph g labels preference accepts covers coversAll).Finds ⟨s, done⟩ p f := by
  obtain ⟨path, d⟩ := f
  obtain rfl : path = _ := hf
  induction rest generalizing done p with
  | nil =>
    simp only [List.append_nil] at hm ⊢
    refine .here ?_ hm.datum hm.accepts
    have hword := hm.word
    rw [Pattern.accepts, Path.labels, hp] at hword
    simpa using hword
  | cons e rest ih =>
    obtain ⟨l, t⟩ := e
    have hword := hm.word
    rw [Pattern.accepts, Path.labels, List.map_append, Pattern.run?_append, hp,
      List.map_cons] at hword
    have hstep : ∃ next, p.step? l = some next := by
      cases h : p.step? l with
      | none => simp [Pattern.run?, h] at hword
      | some next => exact ⟨next, rfl⟩
    obtain ⟨next, hnext⟩ := hstep
    have hedge : (⟨Path.target ⟨s, done⟩, l, t⟩ : Edge) ∈ g.edges := by
      refine hm.edges _ ?_
      rw [Path.edges, Path.edgesFrom_append]
      simp [Path.edgesFrom]
    -- The walk as a whole visits no scope twice, so its beginning has not been at `t`.
    have hfresh : t ∉ Path.scopes ⟨s, done⟩ := by
      have hsimple := hm.simple
      rw [Path.scopes] at hsimple
      simp only [List.map_append, List.map_cons] at hsimple
      rw [← List.cons_append, List.nodup_append] at hsimple
      intro ht
      exact hsimple.2.2 t ht t (by simp) rfl
    refine .there (hm.labels l (by simp [Path.labels])) hnext (ScopeGraph.mem_targets.2 hedge)
      (Path.step?_eq_some_iff.2 ⟨hfresh, rfl⟩) ?_
    have hassoc : done ++ (l, t) :: rest = (done ++ [(l, t)]) ++ rest := by simp
    rw [hassoc] at hm ⊢
    refine ih ?_ hm
    rw [List.map_append, Pattern.run?_append, hp]
    simpa [Pattern.run?] using hnext

/-- **What a query finds from its source are the walks that match it.** -/
theorem finds_start_iff {source : Scope} :
    (ofGraph g labels preference accepts covers coversAll).Finds (.start source) p f ↔
      g.Matches labels source p accepts f := by
  constructor
  · intro h
    exact h.matches ⟨by simp, by simp [Path.edges, Path.edgesFrom], by simp [Path.labels], rfl⟩
  · intro h
    have hpath : f.path = ⟨source, [] ++ f.path.steps⟩ := by simp [← h.source]
    exact finds_of_matches f.path.steps hpath h rfl

end View

end ScopeGraphs
