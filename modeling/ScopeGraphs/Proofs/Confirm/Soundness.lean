import ScopeGraphs.Proofs.Confirm.Correspondence

/-!
# Looking at changes is sound

A unit confirms a recorded query without repeating it: it walks over the differences between its two
graphs and asks only about the changes. If the verdict is a confirmation then the answer is the
previous one with scopes renamed as the verdict says (`FixedGraphs.accepted_eq_of_confirm`).
-/

namespace ScopeGraphs

namespace FixedGraphs

variable {g : FixedGraphs} {σ : FixedState} {accepts : Datum → Bool} {prevEmpty : Bool}
  {rule : DataRule QueryParams}

/-! ## Asking about changes -/

/-- Asking about a change denies, or finds it harmless. -/
theorem runs_confirmChange (g : FixedGraphs) (prevEmpty : Bool)
    (hrule : ∀ d, rule.holds ScopeGraph.noQueries d = .ok (accepts d))
    {c : EnvChange} (hc : c.kind ≠ .external ∧ c.dataRule = rule) (σ : FixedState) :
    ∃ v σ', Runs (g.context.confirmChange prevEmpty c) σ v σ' ∧ (v = .deny ∨ v = .confirmed ∧
      c.Harmless (g.previous.plainView g.labels accepts) (g.current.plainView g.labels accepts)
        prevEmpty) := by
  obtain ⟨kind, path, p, rule'⟩ := c
  obtain ⟨hkind, rfl⟩ := hc
  cases kind with
  | added =>
    obtain ⟨env, henv, hmem⟩ := g.current.envOf_unordered g.labels hrule path p
    refine ⟨.ofEmpty env.isEmpty, { σ with calls := σ.calls ++ [.query path] }, ?_, ?_⟩
    · have hquery : Runs (g.context.query path (.unordered p rule')) σ env
          { σ with calls := σ.calls ++ [.query path] } := by
        change (pure (g.current.envOf g.labels path (.unordered p rule')) : StateM _ _).run _ = _
        rw [henv]
        rfl
      exact hquery.bind (Runs.pure _ _)
    · cases hempty : env.isEmpty with
      | false => exact .inl rfl
      | true => exact .inr ⟨rfl, fun f hf ↦ Env.isEmpty_iff.1 hempty f ((hmem f).2 hf)⟩
  | removed =>
    cases prevEmpty with
    | true => exact ⟨.confirmed, σ, Runs.pure _ _, .inr ⟨rfl, .inl rfl⟩⟩
    | false =>
      obtain ⟨env, henv, hmem⟩ := g.previous.envOf_unordered g.labels hrule path p
      refine ⟨.ofEmpty env.isEmpty, { σ with calls := σ.calls ++ [.queryPrevious path] }, ?_, ?_⟩
      · have hquery : Runs (g.context.queryPrevious path (.unordered p rule')) σ env
            { σ with calls := σ.calls ++ [.queryPrevious path] } := by
          change (pure (g.previous.envOf g.labels path (.unordered p rule')) : StateM _ _).run _ = _
          rw [henv]
          rfl
        exact hquery.bind (Runs.pure _ _)
      · cases hempty : env.isEmpty with
        | false => exact .inl rfl
        | true =>
          exact .inr ⟨rfl, .inr fun f hf ↦ Env.isEmpty_iff.1 hempty f ((hmem f).2 hf)⟩
  | external => exact absurd rfl hkind

/-- Asking about changes one after the other denies, or finds all of them harmless and keeps the
verdict so far. -/
theorem runs_confirmChanges (g : FixedGraphs) (prevEmpty : Bool)
    (hrule : ∀ d, rule.holds ScopeGraph.noQueries d = .ok (accepts d))
    (r : Renaming) (cs : List EnvChange) (hcs : ∀ c ∈ cs, c.kind ≠ .external ∧ c.dataRule = rule)
    (σ : FixedState) :
    ∃ v σ', Runs (g.context.confirmChanges prevEmpty cs (.confirm r)) σ v σ' ∧
      (v = .deny ∨ v = .confirm r ∧ ∀ c ∈ cs,
        c.Harmless (g.previous.plainView g.labels accepts) (g.current.plainView g.labels accepts)
          prevEmpty) := by
  induction cs generalizing σ with
  | nil => exact ⟨.confirm r, σ, Runs.pure _ _, .inr ⟨rfl, by simp⟩⟩
  | cons c cs ih =>
    obtain ⟨v, σ₁, hrun, hv⟩ := runs_confirmChange g prevEmpty hrule (hcs c (by simp)) σ
    rcases hv with rfl | ⟨rfl, hharmless⟩
    · exact ⟨.deny, σ₁, hrun.bind (Runs.pure _ _), .inl rfl⟩
    · obtain ⟨w, σ₂, hrun', hw⟩ := ih (fun c hc ↦ hcs c (by simp [hc])) σ₁
      refine ⟨w, σ₂, hrun.bind hrun', hw.imp_right ?_⟩
      rintro ⟨rfl, hall⟩
      refine ⟨rfl, fun c' hc' ↦ ?_⟩
      rcases List.mem_cons.1 hc' with rfl | hc'
      · exact hharmless
      · exact hall c' hc'

/-! ## The verdict -/

/-- What a confirmation is based on: a walk that accounts for all that the query could see, and
found only harmless changes. -/
structure Evidence (g : FixedGraphs) (rule : DataRule QueryParams) (accepts : Datum → Bool)
    (prevEmpty : Bool) (c y : Scope) (p : Pattern) (d : Differ) (ed : EnvDiff) : Prop where
  sound : d.Sound g.previous g.current g.labels
  pairs : ed.pairs ≤ d.pairs
  accounts : ed.Accounts d rule (.start c) p
  source : d.pairs.get? y = some c
  harmless : ∀ x ∈ ed.changes, x.Harmless (g.previous.plainView g.labels accepts)
    (g.current.plainView g.labels accepts) prevEmpty

/-- A verdict is a denial, or there is evidence for it. -/
theorem runs_confirmPath (prevEmpty : Bool) (howned : ∀ s ∈ g.current.scopes, s.owner = g.owner)
    (hrigid : g.previous.Rigid) (hσ : g.Reached σ)
    (hrule : ∀ d, rule.holds ScopeGraph.noQueries d = .ok (accepts d)) {c : Scope}
    (hc : c.owner = g.owner) {y : Scope} (hy : σ.differ.previousOf? c = some y) (p : Pattern) :
    ∃ v σ', Runs (g.context.confirmPath (.start c) p rule prevEmpty) σ v σ' ∧
      (v = .deny ∨
        ∃ ed d, v = .confirm ed.pairs ∧ g.Evidence rule accepts prevEmpty c y p d ed) := by
  have hexternal : Runs (g.context.external (.start c) p rule prevEmpty) σ none σ := by
    change Runs (if c.owner = g.owner then _ else _) _ _ _
    rw [if_pos hc]
    exact Runs.pure _ _
  have hnote : Runs (note (.envDiff (.start c))) σ ⟨⟩
      { σ with calls := σ.calls ++ [.envDiff (.start c)] } := rfl
  have hσ' : g.Reached { σ with calls := σ.calls ++ [.envDiff (.start c)] } := hσ
  obtain ⟨ed, σ₁, hwalk, hwalked⟩ := runs_envDiff hσ' (.start c) p rule
  have hknown : EnvDiff.Known g.owner σ₁.differ
      (EnvDiff.Visits g.owner σ₁.differ (.start c) p) := hwalked.known fun _ ↦ ⟨y, hy⟩
  have hlocal : ed.Local rule := hwalked.gathers.isLocal hknown hwalked.reached howned hc
  have hacc : ed.Accounts σ₁.differ rule (.start c) p :=
    hwalked.gathers.accounts hknown hwalked.reached howned hc
  obtain ⟨v, σ₂, hrun, hv⟩ := runs_confirmChanges g prevEmpty hrule ed.pairs ed.changes hlocal σ₁
  refine ⟨v, σ₂, hexternal.bind ((hnote.bind hwalk).bind hrun), hv.imp_right ?_⟩
  rintro ⟨rfl, hharmless⟩
  exact ⟨ed, σ₁.differ, rfl, Differ.Reached.sound hwalked.reached hrigid,
    hwalked.gathers.pairs_le hwalked.reached, hacc, hwalked.source hc hy, hharmless⟩

/-- With evidence, what is found now are the previous finds with scopes renamed. -/
theorem Evidence.finds_iff {c y : Scope} {p : Pattern} {d : Differ} {ed : EnvDiff}
    (h : g.Evidence rule accepts prevEmpty c y p d ed) (hrigid : g.previous.Rigid)
    (hempty : prevEmpty = true →
      ∀ f, ¬ (g.previous.plainView g.labels accepts).Finds (.start y) p f) (f : ResolvedPath) :
    (g.current.plainView g.labels accepts).Finds (.start c) p f ↔
      ∃ f', (g.previous.plainView g.labels accepts).Finds (.start y) p f' ∧
        f'.rename ed.pairs = f := by
  have hstart : (Path.start y).Corresponds ed.pairs (.start c) :=
    .start (h.accounts.get?_target h.sound h.pairs h.source)
  have hrename : ∀ {f' f : ResolvedPath}, (g.previous.plainView g.labels accepts).Finds
      (.start y) p f' → f'.path.Corresponds ed.pairs f.path → f'.datum = f.datum →
        f'.rename ed.pairs = f := by
    rintro ⟨path', d'⟩ ⟨path, d⟩ hf' hpath rfl
    have hdatum : d'.rename ed.pairs = d' :=
      hrigid (View.finds_start_iff.1 hf').datum ed.pairs
    rw [ResolvedPath.rename, hpath.rename_eq, hdatum]
  constructor
  · intro hf
    obtain ⟨f', hf', hpath, hdatum⟩ := h.accounts.finds_before h.sound h.pairs h.harmless hstart hf
    exact ⟨f', hf', hrename hf' hpath hdatum⟩
  · rintro ⟨f', hf', rfl⟩
    obtain ⟨f, hf, hpath, hdatum⟩ :=
      h.accounts.finds_now h.sound h.pairs h.harmless hstart hempty hf'
    rwa [hrename hf' hpath hdatum]

/-- **Looking at changes is sound.** Let a unit have two graphs without scopes inside previous data,
and a differ that has come about in any way. If a path that starts at a scope with a previous
counterpart is confirmed, then the query from that scope accepts what it accepted from the
counterpart, with scopes renamed as the verdict says. That the previous answer was empty may be
claimed only if it was. -/
theorem accepted_eq_of_confirm (g : FixedGraphs) (σ : FixedState) (c y : Scope) (p : Pattern)
    (rule : DataRule QueryParams) (accepts : Datum → Bool) (prevEmpty : Bool) (r : Renaming)
    (howned : ∀ s ∈ g.current.scopes, s.owner = g.owner) (hc : c.owner = g.owner)
    (hrigid : g.previous.Rigid)
    (hreached : Differ.Reached g.owner g.previous g.current g.labels σ.differ)
    (hy : σ.differ.previousOf? c = some y)
    (hrule : ∀ d, rule.holds ScopeGraph.noQueries d = .ok (accepts d))
    (hempty : prevEmpty = true → ∀ before,
      g.previous.resolve g.labels y (.unordered p rule) = .ok before → before.isEmpty = true)
    (hconfirm : ((g.context.confirm .simpleEnvironment (.start c) p rule prevEmpty).run.run σ).1 =
      .ok (.confirm r)) :
    ∃ before now, g.previous.resolve g.labels y (.unordered p rule) = .ok before ∧
      g.current.resolve g.labels c (.unordered p rule) = .ok now ∧
      now.accepted = (before.rename r).accepted := by
  obtain ⟨before, hbefore, hmem⟩ :=
    g.previous.envOf_unordered g.labels hrule (.start y) p
  obtain ⟨now, hnow, hmem'⟩ := g.current.envOf_unordered g.labels hrule (.start c) p
  refine ⟨before, now, hbefore, hnow, ?_⟩
  obtain ⟨v, σ', hrun, hv⟩ := runs_confirmPath prevEmpty howned hrigid hreached
    hrule hc hy p
  have hverdict : v = .confirm r := by
    have h : ((g.context.confirmPath (.start c) p rule prevEmpty).run.run σ).1 = .ok v := by
      rw [hrun]
    exact Except.ok.inj (h.symm.trans hconfirm)
  rcases hv with rfl | ⟨ed, d, rfl, hev⟩
  · exact absurd hverdict (by simp)
  · obtain rfl := Verdict.confirm.inj hverdict
    have hno : prevEmpty = true →
        ∀ f, ¬ (g.previous.plainView g.labels accepts).Finds (.start y) p f :=
      fun h f hf ↦ Env.isEmpty_iff.1 (hempty h before hbefore) f ((hmem f).2 hf)
    refine Std.ExtTreeSet.ext_mem fun f ↦ ?_
    rw [hmem', hev.finds_iff hrigid hno, Env.rename, Env.of, SortedSet.mem_ofList, List.mem_map]
    refine exists_congr fun f' ↦ and_congr_left fun _ ↦ ?_
    rw [Std.ExtTreeSet.mem_toList, hmem]

/-- A scope of a unit with one declaration. -/
private def scopeNamed (name : String) : Scope := ⟨⟨"u"⟩, name⟩

/-- A unit whose only declaration is in a scope that got another name. -/
private def renamedDeclaration : FixedGraphs where
  owner := ⟨"u"⟩
  labels := ["E"]
  previous := .of [⟨scopeNamed "s", "E", scopeNamed "old"⟩] [(scopeNamed "old", .int 1)]
  current := .of [⟨scopeNamed "s", "E", scopeNamed "new"⟩] [(scopeNamed "new", .int 1)]
  matching := .identity
  verdicts := ∅

/-- The declaration is confirmed, and the answer has the new name. -/
theorem accepted_eq_of_confirm_renamedDeclaration :
    let g := renamedDeclaration
    let p : Pattern := .ofAutomaton (.of [(0, "E", 1)] [1])
    let start := Renaming.identity.put (scopeNamed "s") (scopeNamed "s")
    let r := start.put (scopeNamed "old") (scopeNamed "new")
    ((g.context.confirm .simpleEnvironment (.start (scopeNamed "s")) p .any false).run.run
        (g.start start)).1 = .ok (.confirm r) ∧
      ∃ before now,
        g.previous.resolve g.labels (scopeNamed "s") (.unordered p .any) = .ok before ∧
        g.current.resolve g.labels (scopeNamed "s") (.unordered p .any) = .ok now ∧
        now.accepted = (before.rename r).accepted := by
  have howned : ∀ t ∈ renamedDeclaration.current.scopes, t.owner = ⟨"u"⟩ := by
    intro t ht
    have hlist : renamedDeclaration.current.scopes.toList = [scopeNamed "new", scopeNamed "s"] := by
      rfl
    rw [← Std.ExtTreeSet.mem_toList, hlist] at ht
    rcases List.mem_pair.1 ht with rfl | rfl <;> rfl
  have hrigid : renamedDeclaration.previous.Rigid := by
    intro t x hx
    have hlist : renamedDeclaration.previous.data.toList = [(scopeNamed "old", .int 1)] := by rfl
    have hmem : (t, x) ∈ renamedDeclaration.previous.data.toList :=
      Std.ExtTreeMap.mem_toList_iff_getElem?_eq_some.2 hx
    rw [hlist, List.mem_singleton] at hmem
    obtain ⟨rfl, rfl⟩ := Prod.mk.inj hmem
    intro q
    rfl
  refine ⟨by rfl, accepted_eq_of_confirm renamedDeclaration
    (renamedDeclaration.start (Renaming.identity.put (scopeNamed "s") (scopeNamed "s")))
    (scopeNamed "s") (scopeNamed "s") _ .any (fun _ ↦ true) false _ howned rfl hrigid (.start _)
    (by rfl) (fun _ ↦ rfl) (fun h ↦ absurd h Bool.false_ne_true) (by rfl)⟩

end FixedGraphs

end ScopeGraphs
