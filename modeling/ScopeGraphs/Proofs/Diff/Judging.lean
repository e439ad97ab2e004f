import ScopeGraphs.Proofs.Diff.Walks
import ScopeGraphs.Proofs.Mentions

/-!
# Data that are judged equal

A scope is diffed once, and its datum is judged under all pairs that the differ knows at that time.
A walk relies on this verdict whenever it comes to the scope, but it returns the pairs of the scopes
that it comes to, and no others. Both are parts of what the differ knows in the end
(`Differ.Judged.le`, `EnvDiff.Gathers.pairs_le`), and neither has to include the other. The differ
may know the pair of a scope to which the walk does not come, and the walk may come to a scope whose
pair was not yet known when the datum was judged.

So a datum that is judged equal is the previous one renamed by the pairs that are returned exactly
if the two parts agree on the scopes it mentions (`FixedGraphs.renames_datum_iff`).
-/

namespace ScopeGraphs

/-- Two parts of one renaming have the same effect on a datum exactly if both rename each scope that
it mentions, or neither of them, or the scope keeps its name anyway. -/
theorem Datum.rename_eq_rename_iff {p q r : Renaming} (hpr : p ≤ r) (hqr : q ≤ r) (d : Datum) :
    d.rename p = d.rename q ↔
      ∀ s ∈ d.scopes, (p.get? s).isSome = (q.get? s).isSome ∨ r.apply s = s := by
  rw [rename_eq_mapScopes, rename_eq_mapScopes, mapScopes_eq_iff]
  exact forall₂_congr fun s _ ↦ Renaming.apply_eq_apply_iff hpr hqr

namespace EnvDiff

variable {owner : UnitId} {d : Differ} {rule : DataRule QueryParams} {ed : EnvDiff} {path q : Path}
  {p p' : Pattern} {x : ScopeDiff} {before now : ScopeGraph} {labels : List Label} {r : Renaming}

/-- A walk comes to a scope that has a difference, where a path may end, and reports no change of
its datum. -/
structure Passes (owner : UnitId) (d : Differ) (rule : DataRule QueryParams) (ed : EnvDiff)
    (path : Path) (p : Pattern) (q : Path) (p' : Pattern) (x : ScopeDiff) : Prop where
  visits : Visits owner d path p q p'
  owner_eq : q.target.owner = owner
  diff : d.diffOf? q.target = some x
  accepting : p'.accepting = true
  unreported : ∀ c ∈ datumChanges q p' rule x, c ∉ ed.changes

/-- A datum that was judged to be another one is reported, because one of the two is there. -/
theorem exists_mem_datumChanges (hx : x.Judges r before now) (hp : p.accepting = true)
    (hchanged : x.datumChanged = true) : ∃ c, c ∈ datumChanges path p rule x := by
  rw [datumChanges, hp, hchanged, Bool.and_self, if_pos rfl]
  cases hhas : x.hasDatum with
  | true => exact ⟨_, List.mem_append_left _ List.mem_cons_self⟩
  | false =>
    cases hhad : x.hadDatum with
    | true => exact ⟨_, List.mem_append_right _ List.mem_cons_self⟩
    | false =>
      have hnow : now.datum? x.current = none := by simpa [hx.hasDatum] using hhas
      have hbefore : before.datum? x.previous = none := by simpa [hx.hadDatum] using hhad
      have hsame : x.datumChanged = false := hx.datum.2 (by rw [hnow, hbefore, Option.map_none])
      exact absurd (hsame.symm.trans hchanged) Bool.false_ne_true

/-- If no change is reported, the data were judged equal. -/
theorem Passes.datumChanged_eq_false (h : Passes owner d rule ed path p q p' x)
    (hx : x.Judges r before now)
    (hed : ed.Gathers owner d rule (Visits owner d path p)) : x.datumChanged = false := by
  rw [← Bool.not_eq_true]
  intro hchanged
  obtain ⟨c, hc⟩ : ∃ c, c ∈ datumChanges q p' rule x :=
    exists_mem_datumChanges hx h.accepting hchanged
  refine h.unreported c hc (hed.changes.2 ⟨q, p', h.visits, ?_⟩)
  rw [foundAt_of_diffOf? h.owner_eq h.diff]
  exact List.mem_append_left _ (List.mem_append_left _ hc)

/-- The pairs that a walk returns are those of the scopes that it comes to. -/
theorem Gathers.get?_pairs_iff (h : ed.Gathers owner d rule (Visits owner d path p))
    (hd : Differ.Reached owner before now labels d) {a b : Scope} :
    ed.pairs.get? a = some b ↔ ∃ q p' x, Visits owner d path p q p' ∧ q.target = b ∧
      b.owner = owner ∧ d.diffOf? b = some x ∧ x.previous = a := by
  rw [h.pairs]
  constructor
  · rintro ⟨q, p', hvisits, hfound⟩
    obtain ⟨howner, x, hx, hprev, hcur⟩ := get?_foundAt.1 hfound
    obtain rfl : q.target = b := (hd.diffs hx).current.symm.trans hcur
    exact ⟨q, p', x, hvisits, rfl, howner, hx, hprev⟩
  · rintro ⟨q, p', x, hvisits, rfl, howner, hx, hprev⟩
    exact ⟨q, p', hvisits, get?_foundAt.2 ⟨howner, x, hx, hprev, (hd.diffs hx).current⟩⟩

end EnvDiff

namespace FixedGraphs

/-- **What it means that a walk passes a scope.** A walk between fixed graphs returns the pairs of
the scopes of the unit that it comes to. Where it reports no change of a datum, the datum is the
previous one renamed by the pairs under which it was judged. Renamed by the pairs that are returned,
the previous datum is the same exactly if, for every scope that it mentions, the walk comes to its
counterpart exactly if that was known when the datum was judged, or the scope kept its name. -/
theorem renames_datum_iff (g : FixedGraphs) (σ : FixedState) (hσ : g.Reached σ) (path : Path)
    (p : Pattern) (rule : DataRule QueryParams) :
    ∃ ed σ', Runs (g.envDiff path p rule) σ ed σ' ∧
      (∀ a b, ed.pairs.get? a = some b ↔
        ∃ q p' x, EnvDiff.Visits g.owner σ'.differ path p q p' ∧ q.target = b ∧
          b.owner = g.owner ∧ σ'.differ.diffOf? b = some x ∧ x.previous = a) ∧
      ∀ q p' x, ed.Passes g.owner σ'.differ rule path p q p' x →
        ∃ r, Differ.Judged g.owner g.previous g.current g.labels σ'.differ x r ∧
          (g.previous.datum? x.previous).map (Datum.rename r) = g.current.datum? q.target ∧
          ((g.previous.datum? x.previous).map (Datum.rename ed.pairs) =
              g.current.datum? q.target ↔
            ∀ d, g.previous.datum? x.previous = some d → ∀ s ∈ d.scopes,
              (ed.pairs.get? s).isSome = (r.get? s).isSome ∨ σ'.differ.pairs.apply s = s) := by
  obtain ⟨ed, σ', hrun, hwalked⟩ := runs_envDiff hσ path p rule
  have hgathers := hwalked.gathers
  refine ⟨ed, σ', hrun, fun a b ↦ hgathers.get?_pairs_iff hwalked.reached, ?_⟩
  intro q p' x hpasses
  obtain ⟨hcur, -, r, hjudged, hjudges⟩ := Differ.Reached.diffs hwalked.reached hpasses.diff
  have hequal : (g.previous.datum? x.previous).map (Datum.rename r) =
      g.current.datum? q.target := by
    rw [← hcur]
    exact hjudges.datum.1 (hpasses.datumChanged_eq_false hjudges hgathers)
  refine ⟨r, hjudged, hequal, ?_⟩
  rw [← hequal]
  cases g.previous.datum? x.previous with
  | none => simp
  | some d =>
    have hrename := Datum.rename_eq_rename_iff (hgathers.pairs_le hwalked.reached) hjudged.le d
    simpa using hrename

/-- A scope of a unit. -/
private def scopeCalled (name : String) : Scope := ⟨⟨"u"⟩, name⟩

/-- A unit with one datum, which mentions a scope that got another name. -/
private def pointer : FixedGraphs where
  owner := ⟨"u"⟩
  labels := ["E"]
  previous := .of [] [(scopeCalled "s", .scope (scopeCalled "old"))]
  current := .of [] [(scopeCalled "s", .scope (scopeCalled "new"))]
  matching := .differ
  verdicts := ∅

/-- The state in which both scopes are known to have counterparts. -/
private def pointerKnown : FixedState :=
  pointer.start ((Renaming.identity.put (scopeCalled "s") (scopeCalled "s")).put
    (scopeCalled "old") (scopeCalled "new"))

/-- The state after the walk. -/
private def pointerLeft : FixedState :=
  ⟨(pointerKnown.differ.diff (scopeCalled "s") pointer.current pointer.labels).2, []⟩

/-- What the walk returns: the pair of the only scope that it comes to, and no change. -/
private def pointerFound : EnvDiff :=
  ⟨Renaming.identity.put (scopeCalled "s") (scopeCalled "s"), []⟩

private theorem runs_pointer :
    Runs (pointer.envDiff (.start (scopeCalled "s")) .epsilon .any) pointerKnown pointerFound
      pointerLeft := by
  rfl

private theorem passes_pointer :
    pointerFound.Passes pointer.owner pointerLeft.differ .any (.start (scopeCalled "s")) .epsilon
      (.start (scopeCalled "s")) .epsilon
      ⟨scopeCalled "s", scopeCalled "s", [], [], [], false, true, true⟩ where
  visits := .here _ _
  owner_eq := rfl
  diff := by rfl
  accepting := rfl
  unreported _ _ := List.not_mem_nil

/-- The datum was judged with the scope that it mentions renamed, but the walk never comes there and
does not return the pair. -/
theorem renames_datum_iff_pointer :
    ∃ ed σ', Runs (pointer.envDiff (.start (scopeCalled "s")) .epsilon .any) pointerKnown ed σ' ∧
      ed.isUnchanged ∧
      (∃ r, (pointer.previous.datum? (scopeCalled "s")).map (Datum.rename r) =
        pointer.current.datum? (scopeCalled "s")) ∧
      (pointer.previous.datum? (scopeCalled "s")).map (Datum.rename ed.pairs) ≠
        pointer.current.datum? (scopeCalled "s") := by
  obtain ⟨ed, σ', hrun, -, hdata⟩ := renames_datum_iff pointer pointerKnown (.start _)
    (.start (scopeCalled "s")) .epsilon .any
  obtain ⟨hed, rfl⟩ := Prod.mk.inj (hrun.symm.trans runs_pointer)
  obtain rfl := Except.ok.inj hed
  obtain ⟨r, -, hequal, hiff⟩ := hdata _ _ _ passes_pointer
  refine ⟨_, _, hrun, rfl, ⟨r, hequal⟩, ?_⟩
  intro h
  rcases hiff.1 h _ rfl (scopeCalled "old") (List.mem_singleton_self _) with hboth | hkept
  · have hunknown : r.get? (scopeCalled "old") = none :=
      Option.isNone_iff_eq_none.1 (Option.isSome_eq_false_iff.1 hboth.symm)
    have hself : r.apply (scopeCalled "old") = scopeCalled "old" := by
      rw [Renaming.apply, hunknown, Option.getD_none]
    have hnew : r.apply (scopeCalled "old") = scopeCalled "new" :=
      Datum.scope.inj (Option.some.inj hequal)
    exact absurd (hself.symm.trans hnew) (by decide)
  · exact absurd hkept (by decide +kernel)

/-- What a walk passes need not be the previous datum renamed by the pairs that it returns. -/
theorem not_always_renamed :
    ¬ ∀ (g : FixedGraphs) (σ σ' : FixedState) (path : Path) (p : Pattern)
      (rule : DataRule QueryParams) (ed : EnvDiff), g.Reached σ →
      Runs (g.envDiff path p rule) σ ed σ' →
      ∀ q p' x, ed.Passes g.owner σ'.differ rule path p q p' x →
        (g.previous.datum? x.previous).map (Datum.rename ed.pairs) =
          g.current.datum? q.target := by
  intro h
  have hequal := h pointer pointerKnown _ _ _ _ _ (.start _) runs_pointer _ _ _ passes_pointer
  exact absurd hequal (by decide +kernel)

/-- The graph of a unit in which the datum of a scope mentions one that is two edges away. -/
private def distant (target : String) : ScopeGraph :=
  .of [⟨scopeCalled "s", "E", scopeCalled "t"⟩, ⟨scopeCalled "t", "E", scopeCalled target⟩]
    [(scopeCalled "s", .scope (scopeCalled "old")), (scopeCalled target, .int 1)]

/-- The other way round: the datum stays as it is and is judged first, and only behind the second
edge the scope that it mentions turns out to have another name. -/
example :
    let g : FixedGraphs := ⟨⟨"u"⟩, ["E"], distant "old", distant "new", .differ, ∅⟩
    let start := g.start (Renaming.identity.put (scopeCalled "s") (scopeCalled "s"))
    let p : Pattern := .ofAutomaton (.of [(0, "E", 0)] [0])
    ((g.envDiff (.start (scopeCalled "s")) p .any).run.run start).1.map
        (fun ed ↦ (ed.isUnchanged, ed.pairs.apply (scopeCalled "old"))) =
      .ok (true, scopeCalled "new") := by
  rfl

end FixedGraphs

end ScopeGraphs
