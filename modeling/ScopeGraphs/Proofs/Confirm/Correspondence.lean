import ScopeGraphs.Proofs.Diff.Walks

/-!
# Corresponding finds

Two paths correspond under a renaming if they spell the same word and the renaming pairs the scopes
they visit, one by one. If the changes listed by a walk are all harmless, then everything that a
query finds in the current graph corresponds to something that it found in the previous one, and the
other way round.

A change is harmless if nothing is found behind it. For what was removed it is enough to look from
its scope on, without the path that led there: a path that has visited less finds more
(`View.Finds.of_shorter`).
-/

namespace ScopeGraphs

/-! ## Corresponding paths -/

/-- The two paths spell the same word and visit paired scopes. -/
structure Path.Corresponds (r : Renaming) (old new : Path) : Prop where
  source : r.get? old.source = some new.source
  steps : List.Forall₂ (fun e e' : Label × Scope ↦ e.1 = e'.1 ∧ r.get? e.2 = some e'.2)
    old.steps new.steps

namespace Path.Corresponds

variable {r r' : Renaming} {old new q : Path} {l : Label} {x t : Scope}

theorem start (h : r.get? x = some t) : Corresponds r (.start x) (.start t) := ⟨h, .nil⟩

theorem mono (h : Corresponds r old new) (hr : r ≤ r') : Corresponds r' old new :=
  ⟨hr h.source, h.steps.imp fun _ _ he ↦ ⟨he.1, hr he.2⟩⟩

theorem target (h : Corresponds r old new) : r.get? old.target = some new.target := by
  obtain ⟨s, steps⟩ := old
  obtain ⟨s', steps'⟩ := new
  obtain ⟨hs, hsteps⟩ := h
  dsimp only at hs hsteps
  induction hsteps generalizing s s' with
  | nil => exact hs
  | @cons e e' _ _ he _ ih =>
    rw [target_cons, target_cons]
    exact ih e.2 e'.2 he.2

/-- Paired scopes have both been visited or both not. -/
theorem mem_scopes_iff (h : Corresponds r old new) (hx : r.get? x = some t) :
    x ∈ old.scopes ↔ t ∈ new.scopes := by
  obtain ⟨s, steps⟩ := old
  obtain ⟨s', steps'⟩ := new
  have hpair : ∀ {y u}, r.get? y = some u → (x = y ↔ t = u) := by
    intro y u hy
    constructor
    · rintro rfl
      exact Option.some.inj (hx.symm.trans hy)
    · rintro rfl
      exact Renaming.get?_inj hx hy
  have hsteps : x ∈ steps.map Prod.snd ↔ t ∈ steps'.map Prod.snd := by
    have hall := h.steps
    simp only at hall
    induction hall with
    | nil => simp
    | cons he _ ih =>
      rw [List.map_cons, List.map_cons, List.mem_cons, List.mem_cons, hpair he.2]
      exact or_congr_right (ih ⟨h.source, by assumption⟩)
  rw [scopes, scopes, List.mem_cons, List.mem_cons, hpair h.source, hsteps]

private theorem concat (h : Corresponds r old new) (hx : r.get? x = some t) :
    Corresponds r ⟨old.source, old.steps ++ [(l, x)]⟩ ⟨new.source, new.steps ++ [(l, t)]⟩ :=
  ⟨h.source, List.rel_append h.steps (.cons ⟨rfl, hx⟩ .nil)⟩

/-- A step of the new path can be taken by the old one. -/
theorem step_old (h : Corresponds r old new) (hx : r.get? x = some t)
    (hq : new.step? l t = some q) : ∃ q', old.step? l x = some q' ∧ Corresponds r q' q := by
  obtain ⟨hfresh, rfl⟩ := step?_eq_some_iff.1 hq
  exact ⟨_, step?_eq_some_iff.2 ⟨fun hmem ↦ hfresh ((h.mem_scopes_iff hx).1 hmem), rfl⟩,
    h.concat hx⟩

/-- A step of the old path can be taken by the new one. -/
theorem step_new (h : Corresponds r old new) (hx : r.get? x = some t)
    (hq : old.step? l x = some q) : ∃ q', new.step? l t = some q' ∧ Corresponds r q q' := by
  obtain ⟨hfresh, rfl⟩ := step?_eq_some_iff.1 hq
  exact ⟨_, step?_eq_some_iff.2 ⟨fun hmem ↦ hfresh ((h.mem_scopes_iff hx).2 hmem), rfl⟩,
    h.concat hx⟩

/-- The new path is the old one with its scopes renamed. -/
theorem rename_eq (h : Corresponds r old new) : old.rename r = new := by
  obtain ⟨s, steps⟩ := old
  obtain ⟨s', steps'⟩ := new
  have hsteps : steps.map (fun e ↦ (e.1, r.apply e.2)) = steps' := by
    have hall := h.steps
    simp only at hall
    induction hall with
    | nil => rfl
    | cons he _ ih =>
      rw [List.map_cons, ih ⟨h.source, by assumption⟩, he.1, Renaming.apply_eq_of_get? he.2]
  rw [rename, hsteps, Renaming.apply_eq_of_get? h.source]

end Path.Corresponds

/-! ## Harmless changes -/

/-- Nothing is found behind a change. What was removed does not matter either if nothing was found
before. -/
def EnvChange.Harmless (before now : View) (prevEmpty : Bool) (c : EnvChange) : Prop :=
  match c.kind with
  | .added => ∀ f, ¬ now.Finds c.path c.pattern f
  | .removed => prevEmpty = true ∨ ∀ f, ¬ before.Finds c.path c.pattern f
  | .external => False

namespace EnvDiff

variable {path q : Path} {p next : Pattern} {rule : DataRule QueryParams} {x : ScopeDiff}
  {kind : ChangeKind} {l : Label} {t : Scope} {edges : List (Label × Scope)}

theorem mem_edgeChanges (ht : (l, t) ∈ edges) (hp : p.step? l = some next)
    (hq : path.step? l t = some q) : ⟨kind, q, next, rule⟩ ∈ edgeChanges kind path p rule edges :=
  List.mem_filterMap.2 ⟨(l, t), ht, by simp [hp, hq]⟩

theorem mem_changesAt_added (ht : (l, t) ∈ x.added) (hp : p.step? l = some next)
    (hq : path.step? l t = some q) : ⟨.added, q, next, rule⟩ ∈ changesAt path p rule x :=
  List.mem_append_left _ (List.mem_append_right _ (mem_edgeChanges ht hp hq))

theorem mem_changesAt_removed (ht : (l, t) ∈ x.removed) (hp : p.step? l = some next)
    (hq : (Path.start x.previous).step? l t = some q) :
    ⟨.removed, q, next, rule⟩ ∈ changesAt path p rule x :=
  List.mem_append_right _ (mem_edgeChanges ht hp hq)

theorem mem_changesAt_hasDatum (hp : p.accepting = true) (hx : x.datumChanged = true)
    (hd : x.hasDatum = true) : ⟨.added, path, .epsilon, rule⟩ ∈ changesAt path p rule x := by
  simp [changesAt, datumChanges, hp, hx, hd]

theorem mem_changesAt_hadDatum (hp : p.accepting = true) (hx : x.datumChanged = true)
    (hd : x.hadDatum = true) :
    ⟨.removed, .start x.previous, .epsilon, rule⟩ ∈ changesAt path p rule x := by
  simp [changesAt, datumChanges, hp, hx, hd]

/-! ## Both directions -/

variable {d : Differ} {ed : EnvDiff} {before now : ScopeGraph} {labels : List Label}
  {accepts : Datum → Bool} {prevEmpty : Bool} {old : Path} {f : ResolvedPath}

/-- The end of a path that is accounted for is paired by the walk as it is by the differ. -/
theorem Accounts.get?_target (h : ed.Accounts d rule path p) (hd : d.Sound before now labels)
    (hpairs : ed.pairs ≤ d.pairs) {y : Scope} (hy : d.pairs.get? y = some path.target) :
    ed.pairs.get? y = some path.target := by
  cases h with
  | @intro _ _ x hx hpair _ _ =>
    rw [(hd.diffs hx).1] at hpair
    rwa [Renaming.get?_inj hy (hpairs hpair)]

section

variable (hd : d.Sound before now labels) (hpairs : ed.pairs ≤ d.pairs)
  (hharmless : ∀ c ∈ ed.changes,
    c.Harmless (before.plainView labels accepts) (now.plainView labels accepts) prevEmpty)

include hd hpairs hharmless

/-- **Whatever is found now corresponds to something found before.** -/
theorem Accounts.finds_before (h : ed.Accounts d rule path p)
    (hold : old.Corresponds ed.pairs path)
    (hf : (now.plainView labels accepts).Finds path p f) :
    ∃ f', (before.plainView labels accepts).Finds old p f' ∧
      f'.path.Corresponds ed.pairs f.path ∧ f'.datum = f.datum := by
  induction h generalizing old f with
  | @intro path p x hx hpair hhere hbehind ih =>
    obtain ⟨hcur, hacc⟩ := hd.diffs hx
    have hprev : x.previous = old.target :=
      Renaming.get?_inj hpair (hcur ▸ hold.target)
    cases hf with
    | @here _ _ dat hp hdat hok =>
      cases hchanged : x.datumChanged with
      | false =>
        have hsame := hacc.datum hchanged
        rw [hprev, hcur] at hsame
        exact ⟨⟨old, dat⟩, .here hp (hsame.trans hdat) hok, hold, rfl⟩
      | true =>
        have hhas : x.hasDatum = true := by
          rw [hacc.hasDatum, hcur]
          exact Option.isSome_iff_exists.2 ⟨dat, hdat⟩
        have hno := hharmless _ (hhere _ (mem_changesAt_hasDatum hp hchanged hhas))
        exact absurd (.here rfl hdat hok) (hno ⟨path, dat⟩)
    | @there _ q _ next l t _ hl hp ht hq hf =>
      rw [← hcur] at ht
      rcases hacc.covers_now hl ht with hmatched | hadded
      · obtain ⟨-, y, hy, hyt⟩ := hacc.matched hmatched
        have hyt : ed.pairs.get? y = some t := by
          rw [← Path.target_of_step? hq] at hyt ⊢
          exact (hbehind hmatched hp hq).get?_target hd hpairs hyt
        obtain ⟨q', hq', hcorr⟩ := hold.step_old hyt hq
        obtain ⟨f', hf', hrest⟩ := ih hmatched hp hq hcorr hf
        exact ⟨f', .there hl hp (hprev ▸ hy) hq' hf', hrest⟩
      · exact absurd hf (hharmless _ (hhere _ (mem_changesAt_added hadded hp hq)) f)

/-- **Whatever was found before corresponds to something found now.** -/
theorem Accounts.finds_now (h : ed.Accounts d rule path p) (hold : old.Corresponds ed.pairs path)
    (hempty : prevEmpty = true → ∀ f, ¬ (before.plainView labels accepts).Finds old p f)
    (hf : (before.plainView labels accepts).Finds old p f) :
    ∃ f', (now.plainView labels accepts).Finds path p f' ∧
      f.path.Corresponds ed.pairs f'.path ∧ f.datum = f'.datum := by
  induction h generalizing old f with
  | @intro path p x hx hpair hhere hbehind ih =>
    obtain ⟨hcur, hacc⟩ := hd.diffs hx
    have hprev : x.previous = old.target :=
      Renaming.get?_inj hpair (hcur ▸ hold.target)
    -- Behind a removed edge or datum nothing is found, neither before nor from the scope itself on.
    have hremoved : ∀ {q next} (f' : ResolvedPath), (⟨.removed, q, next, rule⟩ : EnvChange) ∈
        changesAt path p rule x → ¬ (before.plainView labels accepts).Finds q next f' := by
      intro q next f' hc hf'
      rcases hharmless _ (hhere _ hc) with hnone | hno
      · exact hempty hnone f hf
      · exact hno f' hf'
    cases hf with
    | @here _ _ dat hp hdat hok =>
      cases hchanged : x.datumChanged with
      | false =>
        have hsame := hacc.datum hchanged
        rw [hprev, hcur] at hsame
        exact ⟨⟨path, dat⟩, .here hp (hsame.symm.trans hdat) hok, hold, rfl⟩
      | true =>
        have hhad : x.hadDatum = true := by
          rw [hacc.hadDatum, hprev]
          exact Option.isSome_iff_exists.2 ⟨dat, hdat⟩
        refine absurd (.here rfl ?_ hok) (hremoved ⟨.start x.previous, dat⟩
          (mem_changesAt_hadDatum hp hchanged hhad))
        rw [Path.target_start, hprev]
        exact hdat
    | @there _ q _ next l y _ hl hp hy hq hf =>
      rw [← hprev] at hy
      rcases hacc.covers_before hl hy with ⟨t, hmatched, hyt⟩ | hgone
      · obtain ⟨q', hq', -⟩ := (hold.mono hpairs).step_new hyt hq
        have hyt : ed.pairs.get? y = some t := by
          rw [← Path.target_of_step? hq'] at hyt ⊢
          exact (hbehind hmatched hp hq').get?_target hd hpairs hyt
        obtain ⟨q'', hq'', hcorr⟩ := hold.step_new hyt hq
        obtain rfl := Option.some.inj (hq'.symm.trans hq'')
        obtain ⟨f', hf', hrest⟩ := ih hmatched hp hq' hcorr
          (fun hnone f' hf' ↦ hempty hnone f' (.there hl hp (hprev ▸ hy) hq hf')) hf
        have ht : t ∈ now.targets path.target l := hcur ▸ (hacc.matched hmatched).1
        exact ⟨f', .there hl hp ht hq' hf', hrest⟩
      · -- The scope itself has visited less than the path that led there.
        have hfresh : y ∉ (Path.start x.previous).scopes := by
          intro hmem
          rw [Path.scopes_start, List.mem_singleton, hprev] at hmem
          exact Path.not_mem_of_step? hq (hmem ▸ old.target_mem_scopes)
        have hstart : (Path.start x.previous).step? l y = some ⟨x.previous, [] ++ [(l, y)]⟩ :=
          Path.step?_eq_some_iff.2 ⟨hfresh, rfl⟩
        obtain ⟨f', hf'⟩ := hf.of_shorter ⟨x.previous, [] ++ [(l, y)]⟩
          ((Path.target_of_step? hstart).trans (Path.target_of_step? hq).symm) (by
            rw [Path.scopes_of_step? hstart, Path.scopes_of_step? hq]
            refine List.append_subset.2 ⟨?_, List.subset_append_right _ _⟩
            rw [Path.scopes_start, hprev]
            simpa using .inl old.target_mem_scopes)
        exact absurd hf' (hremoved f' (mem_changesAt_removed hgone hp hstart))

end

end EnvDiff

end ScopeGraphs
