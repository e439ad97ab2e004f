import ScopeGraphs.Proofs.Confirm.Soundness
import ScopeGraphs.Proofs.Contents
import ScopeGraphs.Proofs.Diff.Unchanged

/-!
# Nothing changed, nothing to do again

A unit whose graph is the same as before confirms everything that is asked of it, and without a
renaming. A walk over the differences comes only to scopes of the unit, since the graph has no others;
each of them carried all its edges over, so nothing is reported, and all pairs that are returned are
of a scope with itself (`FixedGraphs.runs_walk_of_unchanged`). A scope that is not in the graph at all
is reported as new, but from there no query finds anything.
-/

namespace ScopeGraphs

/-- No query finds anything from a scope that is not in the graph. -/
theorem ScopeGraph.not_finds_of_not_mem {g : ScopeGraph} {labels : List Label}
    {accepts : Datum → Bool} {c : Scope} (hc : c ∉ g.scopes) (p : Pattern) (f : ResolvedPath) :
    ¬ (g.plainView labels accepts).Finds (.start c) p f := by
  intro hf
  rcases hf with ⟨-, hd, -⟩ | ⟨-, -, ht, -, -⟩
  · refine hc (ScopeGraph.mem_scopes.2 (.inr ?_))
    exact Std.ExtTreeMap.mem_iff_isSome_getElem?.2 (Option.isSome_iff_exists.2 ⟨_, hd⟩)
  · exact hc (ScopeGraph.mem_scopes.2 (.inl ⟨_, ScopeGraph.mem_targets.1 ht, .inl rfl⟩))

/-- A walk found nothing but pairs of scopes with themselves. -/
structure EnvDiff.FindsNothing (ed : EnvDiff) : Prop where
  pairs : ed.pairs.isIdentity = true
  changes : ed.changes = []

theorem EnvDiff.FindsNothing.absorb {ed ed' : EnvDiff} (h : ed.FindsNothing)
    (h' : ed'.FindsNothing) : (ed.absorb ed').FindsNothing where
  pairs := Renaming.isIdentity_putEach h.pairs h'.pairs
  changes := by rw [EnvDiff.absorb, h.changes, h'.changes, List.append_nil]

/-- At a scope that did not change, nothing is to be found. -/
theorem EnvDiff.findsNothing_selfDiff (g : ScopeGraph) (s : Scope) (labels : List Label) (path : Path)
    (p : Pattern) (rule : DataRule QueryParams) :
    EnvDiff.FindsNothing ⟨Renaming.identity.put s s, changesAt path p rule (g.selfDiff s labels)⟩ where
  pairs := by
    obtain ⟨q, hq⟩ := Renaming.put?_isSome (p := Renaming.identity) (.inr ⟨rfl, rfl⟩)
    rw [Renaming.put, hq]
    exact Renaming.isIdentity_of_put? Renaming.isIdentity_identity hq
  changes := by simp [changesAt, datumChanges, edgeChanges, ScopeGraph.selfDiff, ScopeDiff.identical]

namespace FixedGraphs

variable {g : FixedGraphs} {σ : FixedState} {rule : DataRule QueryParams} {path : Path} {p : Pattern}

/-! ## Walking -/

/-- Following matched edges one after the other finds nothing if nothing is found behind them. -/
theorem runs_behind_of_isUntouched {descend : Path → Pattern → FixedM EnvDiff}
    {edges : List (Label × Scope)}
    (hdescend : ∀ {σ : FixedState} {l t q} (next : Pattern),
      σ.differ.IsUntouched g.current g.labels → (l, t) ∈ edges → path.step? l t = some q →
        ∃ ed σ', Runs (descend q next) σ ed σ' ∧ σ'.differ.IsUntouched g.current g.labels ∧
          ed.FindsNothing)
    {es : List (Label × Scope)} (hes : es ⊆ edges) (hσ : σ.differ.IsUntouched g.current g.labels)
    {out : EnvDiff} (hout : out.FindsNothing) :
    ∃ ed σ', Runs (DiffContext.behind descend path p es out) σ ed σ' ∧
      σ'.differ.IsUntouched g.current g.labels ∧ ed.FindsNothing := by
  induction es generalizing σ out with
  | nil => exact ⟨out, σ, Runs.pure _ _, hσ, hout⟩
  | cons e es ih =>
    obtain ⟨he, hes⟩ := List.cons_subset.1 hes
    rw [DiffContext.behind]
    split
    · rename_i next q hnext hq
      obtain ⟨sub, σ₁, hrun, hσ₁, hsub⟩ := hdescend next hσ he hq
      obtain ⟨ed, σ₂, hrun', hσ₂, hed⟩ := ih hes hσ₁ (hout.absorb hsub)
      exact ⟨ed, σ₂, hrun.bind hrun', hσ₂, hed⟩
    · exact ih hes hσ hout

/-- Diffing a scope of the unit. -/
theorem runs_scopeDiff_of_isUntouched (hσ : σ.differ.IsUntouched g.current g.labels) (s : Scope) :
    ∃ x σ', Runs (g.scopeDiff s) σ x σ' ∧ σ'.differ.IsUntouched g.current g.labels ∧
      (x = some (g.current.selfDiff s g.labels) ∨ x = none ∧ s ∉ g.current.scopes) := by
  obtain ⟨hσ', hx⟩ := hσ.diff s
  exact ⟨_, ⟨(σ.differ.diff s g.current g.labels).2, σ.calls⟩, rfl, hσ', hx⟩

/-- **A walk over an unchanged graph finds nothing.** Only a scope that is not in the graph at all is
reported. -/
theorem runs_walk_of_isUntouched (howned : ∀ s ∈ g.current.scopes, s.owner = g.owner)
    (rule : DataRule QueryParams) (p : Pattern) (depth : Nat)
    (hσ : σ.differ.IsUntouched g.current g.labels) (howner : path.target.owner = g.owner) :
    ∃ ed σ', Runs (DiffContext.walk ⟨g.owner, g.scopeDiff⟩ rule depth path p) σ ed σ' ∧
      σ'.differ.IsUntouched g.current g.labels ∧ (ed.FindsNothing ∨
        path.target ∉ g.current.scopes ∧ ed = ⟨.identity, [⟨.added, path, p, rule⟩]⟩) := by
  induction depth generalizing σ path p with
  | zero =>
    exact ⟨.empty, σ, Runs.pure _ _, hσ, .inl ⟨Renaming.isIdentity_identity, rfl⟩⟩
  | succ depth ih =>
    rw [DiffContext.walk, if_neg (not_not_intro howner)]
    obtain ⟨x, σ₁, hrun, hσ₁, rfl | ⟨rfl, hnot⟩⟩ := runs_scopeDiff_of_isUntouched hσ path.target
    · -- Matched targets are scopes of the graph, and so of the unit.
      have hdescend {σ : FixedState} {l : Label} {t : Scope} {q : Path} (next : Pattern)
          (hσ : σ.differ.IsUntouched g.current g.labels)
          (ht : (l, t) ∈ g.current.edgesUnder path.target g.labels) (hq : path.step? l t = some q) :
          ∃ ed σ', Runs (DiffContext.walk ⟨g.owner, g.scopeDiff⟩ rule depth q next) σ ed σ' ∧
            σ'.differ.IsUntouched g.current g.labels ∧ ed.FindsNothing := by
        have hmem : t ∈ g.current.scopes :=
          ScopeGraph.mem_scopes.2 (.inl ⟨_, (ScopeGraph.mem_edgesUnder.1 ht).2, .inr rfl⟩)
        rw [← Path.target_of_step? hq] at hmem
        obtain ⟨ed, σ', hrun, hσ', hed⟩ := ih next hσ (howned _ hmem)
        exact ⟨ed, σ', hrun, hσ', hed.resolve_right fun h ↦ h.1 hmem⟩
      obtain ⟨ed, σ₂, hrun', hσ₂, hed⟩ := runs_behind_of_isUntouched hdescend
        (List.Subset.refl _) hσ₁
        (EnvDiff.findsNothing_selfDiff g.current path.target g.labels path p rule)
      exact ⟨ed, σ₂, hrun.bind hrun', hσ₂, .inl hed⟩
    · exact ⟨_, σ₁, hrun.bind (Runs.pure _ _), hσ₁, .inr ⟨hnot, rfl⟩⟩

/-! ## Confirming -/

/-- Asking about a scope that is not in the graph finds nothing. -/
theorem runs_confirmChange_of_not_mem {c : Scope} (hc : c ∉ g.current.scopes)
    {accepts : Datum → Bool} (hrule : ∀ d, rule.holds ScopeGraph.noQueries d = .ok (accepts d))
    (p : Pattern) (prevEmpty : Bool) (σ : FixedState) :
    Runs (g.context.confirmChange prevEmpty ⟨.added, .start c, p, rule⟩) σ .confirmed
      { σ with calls := σ.calls ++ [.query (.start c)] } := by
  obtain ⟨env, henv, hmem⟩ := g.current.envOf_unordered g.labels hrule (.start c) p
  have hempty : env.isEmpty = true := Env.isEmpty_iff.2 fun f hf ↦
    ScopeGraph.not_finds_of_not_mem hc p f ((hmem f).1 hf)
  have hquery : Runs (g.context.query (.start c) (.unordered p rule)) σ env
      { σ with calls := σ.calls ++ [.query (.start c)] } := by
    change (pure (g.current.envOf g.labels (.start c) (.unordered p rule)) : StateM _ _).run _ = _
    rw [henv]
    rfl
  have hverdict : Verdict.ofEmpty env.isEmpty = .confirmed := by rw [hempty]; rfl
  rw [← hverdict]
  exact hquery.bind (Runs.pure _ _)

/-- Whatever a query within the unit saw is confirmed as it was. -/
theorem runs_confirmPath_of_isUntouched (howned : ∀ s ∈ g.current.scopes, s.owner = g.owner)
    (hσ : σ.differ.IsUntouched g.current g.labels) {c : Scope} (hc : c.owner = g.owner)
    {accepts : Datum → Bool} (hrule : ∀ d, rule.holds ScopeGraph.noQueries d = .ok (accepts d))
    (p : Pattern) (prevEmpty : Bool) :
    ∃ r σ', Runs (g.context.confirmPath (.start c) p rule prevEmpty) σ (.confirm r) σ' ∧
      r.isIdentity = true ∧ σ'.differ.IsUntouched g.current g.labels := by
  have hexternal : Runs (g.context.external (.start c) p rule prevEmpty) σ none σ := by
    change Runs (if c.owner = g.owner then _ else _) _ _ _
    rw [if_pos hc]
    exact Runs.pure _ _
  have hnote : Runs (note (.envDiff (.start c))) σ ⟨⟩
      { σ with calls := σ.calls ++ [.envDiff (.start c)] } := rfl
  have hσ' : (FixedState.differ { σ with calls := σ.calls ++ [.envDiff (.start c)] }).IsUntouched
      g.current g.labels := hσ
  have htarget : (Path.start c).target.owner = g.owner := hc
  obtain ⟨ed, σ₁, hwalk, hσ₁, hed⟩ :=
    runs_walk_of_isUntouched howned rule p (g.current.scopes.size + 2) hσ' htarget
  have hpath {v : Verdict} {σ₂ : FixedState}
      (hrun : Runs (g.context.confirmChanges prevEmpty ed.changes (.confirm ed.pairs)) σ₁ v σ₂) :
      Runs (g.context.confirmPath (.start c) p rule prevEmpty) σ v σ₂ :=
    hexternal.bind ((hnote.bind hwalk).bind hrun)
  rcases hed with hed | ⟨hnot, rfl⟩
  · refine ⟨ed.pairs, σ₁, hpath ?_, hed.pairs, hσ₁⟩
    rw [hed.changes]
    exact Runs.pure _ _
  · have hchange := runs_confirmChange_of_not_mem hnot hrule p prevEmpty σ₁
    exact ⟨.identity, _, hpath (hchange.bind (Runs.pure _ _)), Renaming.isIdentity_identity, hσ₁⟩

/-- **Nothing changed means nothing to do again.** Let all scopes of a graph belong to one unit, and
let the graph be the same as before. However scopes were diffed so far, if the differ was told nothing
but that scopes are their own counterparts, then every scope of the graph is unchanged with all its
edges matched, no scope is paired with another one, and the unit confirms every query from one of its
scopes without renaming anything. -/
theorem confirm_of_unchanged (g : FixedGraphs) (hsame : g.previous = g.current)
    (howned : ∀ s ∈ g.current.scopes, s.owner = g.owner) {pairs : Renaming}
    (hpairs : pairs.isIdentity = true) {history : List Differ.Operation}
    (hhistory : ∀ o ∈ history, o.Keeps g.current g.labels) {d : Differ}
    (hd : (Differ.start g.owner g.previous pairs).performAll history = d) :
    d.pairs.isIdentity = true ∧
      (∀ s ∈ g.current.scopes, ∃ x, (d.diff s g.current g.labels).1 = some x ∧ x.current = s ∧
        x.previous = s ∧ x.isUnchanged = true ∧
        ∀ l t, (l, t) ∈ x.matched ↔ l ∈ g.labels ∧ ⟨s, l, t⟩ ∈ g.current.edges) ∧
      ∀ (c : Scope) (p : Pattern) (rule : DataRule QueryParams) (accepts : Datum → Bool)
        (prevEmpty : Bool) (calls : List ConfirmCall), c.owner = g.owner →
        (∀ d, rule.holds ScopeGraph.noQueries d = .ok (accepts d)) →
        ∃ r σ, (g.context.confirm .simpleEnvironment (.start c) p rule prevEmpty).run.run ⟨d, calls⟩ =
            (.ok (.confirm r), σ) ∧
          r.isIdentity = true ∧ σ.differ.pairs.isIdentity = true := by
  have hstart := Differ.isUntouched_start hpairs g.owner g.previous g.labels
  have huntouched := hstart.performAll (hsame ▸ hhistory)
  rw [hd, hsame] at huntouched
  refine ⟨huntouched.pairs, ?_, ?_⟩
  · intro s hs
    obtain hx | ⟨-, hnot⟩ := (huntouched.diff s).2
    · exact ⟨_, hx, rfl, rfl, rfl, fun l t ↦ ScopeGraph.mem_edgesUnder⟩
    · exact absurd hs hnot
  · intro c p rule accepts prevEmpty calls hc hrule
    have hσ : (FixedState.differ ⟨d, calls⟩).IsUntouched g.current g.labels := huntouched
    obtain ⟨r, σ, hrun, hr, hσ'⟩ :=
      runs_confirmPath_of_isUntouched howned hσ hc hrule p prevEmpty
    exact ⟨r, σ, hrun, hr, hσ'.pairs⟩

/-- A scope of a unit. -/
private def corner (name : String) : Scope := ⟨⟨"u"⟩, name⟩

/-- A unit in which two ways lead to one declaration, whose datum mentions where they start. -/
private def square : ScopeGraph :=
  .of [⟨corner "top", "E", corner "left"⟩, ⟨corner "top", "E", corner "right"⟩,
    ⟨corner "left", "E", corner "bottom"⟩, ⟨corner "right", "E", corner "bottom"⟩]
    [(corner "bottom", .scope (corner "top"))]

/-- The unit, with the same graph in both runs. -/
private def squares : FixedGraphs := ⟨⟨"u"⟩, ["E"], square, square, .differ, ∅⟩

/-- What was asked of the differ: the declaration came first, and nothing was known before. -/
private def squareHistory : List Differ.Operation :=
  [.diff (corner "bottom") square ["E"], .nextUnexplored, .diff (corner "left") square ["E"]]

/-- Both ways to the declaration are confirmed as they were, and the scope where they part is
unchanged. -/
theorem confirm_of_unchanged_square :
    let d := (Differ.start ⟨"u"⟩ square .identity).performAll squareHistory
    let p : Pattern := .ofAutomaton (.of [(0, "E", 0)] [0])
    (∀ s ∈ square.scopes, s.owner = ⟨"u"⟩) ∧
      (∃ x, (d.diff (corner "right") square ["E"]).1 = some x ∧ x.isUnchanged = true) ∧
      ∃ r σ, (squares.context.confirm .simpleEnvironment (.start (corner "top")) p .any false).run.run
          ⟨d, []⟩ = (.ok (.confirm r), σ) ∧ r.isIdentity = true := by
  have howned : ∀ s ∈ square.scopes, s.owner = ⟨"u"⟩ := by
    intro s hs
    have hlist : square.scopes.toList =
        [corner "bottom", corner "left", corner "right", corner "top"] := by rfl
    rw [← Std.ExtTreeSet.mem_toList, hlist] at hs
    simp only [List.mem_cons, List.not_mem_nil, or_false] at hs
    rcases hs with rfl | rfl | rfl | rfl <;> rfl
  have hhistory : ∀ o ∈ squareHistory, o.Keeps squares.current squares.labels := by
    rintro o ho
    simp only [squareHistory, List.mem_cons, List.not_mem_nil, or_false] at ho
    rcases ho with rfl | rfl | rfl
    · exact ⟨rfl, rfl⟩
    · exact trivial
    · exact ⟨rfl, rfl⟩
  have hright : corner "right" ∈ square.scopes := Std.ExtTreeSet.contains_iff_mem.1 (by rfl)
  obtain ⟨-, hdiff, hconfirm⟩ := confirm_of_unchanged squares rfl howned
    Renaming.isIdentity_identity hhistory rfl
  obtain ⟨x, hx, -, -, hunchanged, -⟩ := hdiff _ hright
  obtain ⟨r, σ, hrun, hr, -⟩ := hconfirm (corner "top") (.ofAutomaton (.of [(0, "E", 0)] [0])) .any
    (fun _ ↦ true) false [] rfl fun _ ↦ rfl
  exact ⟨howned, ⟨x, hx, hunchanged⟩, r, σ, hrun, hr⟩

end FixedGraphs

end ScopeGraphs
