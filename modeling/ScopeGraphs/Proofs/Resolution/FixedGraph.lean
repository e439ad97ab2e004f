import ScopeGraphs.Proofs.Resolution.Visibility
import ScopeGraphs.Resolution.Static

/-!
# Queries on a fixed graph

Resolution in a fixed graph can only fail, and under rules that only look at data it does not. Its
answer to a query accepts the visible ones among the walks that match the query.
-/

namespace ScopeGraphs

/-! ## Preferences that are strict orders -/

theorem Preference.isStrict_none : Preference.none.IsStrict :=
  ⟨fun _ ↦ rfl, fun h _ ↦ absurd h Bool.false_ne_true⟩

theorem Preference.isStrict_lexical : Preference.lexical.IsStrict where
  irrefl a := by
    rw [lexical, lt, Keyed.compare_eq_iff.2 rfl]
    rfl
  trans hab hbc := by
    simp only [lexical, lt, Ordering.isLT_iff_eq_lt] at hab hbc ⊢
    exact Std.TransCmp.lt_trans hab hbc

/-! ## Resolution succeeds -/

/-- A computation that may fail yields the result it succeeds with. -/
def Yielding.success : Yielding (Except Fault) where
  yields x a := x = .ok a
  pure _ := rfl
  bind hx hf := by
    rw [hx]
    exact hf

namespace ScopeGraph

variable {g : ScopeGraph} {labels : List Label} {q : QueryParams}
  {ctx : PredicateContext (Except Fault)} {accepts : Datum → Bool} {covers : Datum → Datum → Bool}

/-- The view of a query on a graph. -/
def view (g : ScopeGraph) (labels : List Label) (q : QueryParams) (accepts : Datum → Bool)
    (covers : Datum → Datum → Bool) : View :=
  .ofGraph g labels q.preference accepts covers q.coverRule.isAlways

theorem within_scopes :
    (g.view labels q accepts covers).Within g.scopes.toList :=
  fun _ _ _ ht ↦ Std.ExtTreeSet.mem_toList.2 (mem_scopes_of_mem_targets ht)

theorem room_lt_size (path : Path) : View.room g.scopes.toList path < g.scopes.size + 1 := by
  have hle := View.room_le g.scopes.toList path
  rw [Std.ExtTreeSet.length_toList] at hle
  omega

theorem follows_view (hacc : ∀ d, q.dataRule.holds ctx d = .ok (accepts d))
    (hcov : ∀ d₁ d₂, q.coverRule.covers ctx d₁ d₂ = .ok (covers d₁ d₂)) :
    (g.resolver labels q ctx).Follows .success (g.view labels q accepts covers)
      fun n k path _ ↦ n = k ∧ View.room g.scopes.toList path < n where
  labels := rfl
  preference := rfl
  coversAll := rfl
  accepts := hacc
  covers := hcov
  together := Yielding.mapM_id _
  not_zero := fun h ↦ absurd h.2 (Nat.not_lt_zero _)
  reads := by
    rintro n k path p ⟨rfl, hroom⟩
    refine .inl ⟨n, rfl, ⟨rfl, rfl, fun _ ↦ rfl⟩, ?_⟩
    intro l next t q _ _ ht hq
    have hlt := View.room_lt_of_step? (within_scopes _ _ t ht) hq
    exact ⟨rfl, by omega⟩

/-- Under rules that only look at data, resolution succeeds with the environment of the view. -/
theorem envOf_eq_ok (hacc : ∀ d, q.dataRule.holds ctx d = .ok (accepts d))
    (hcov : ∀ d₁ d₂, q.coverRule.covers ctx d₁ d₂ = .ok (covers d₁ d₂)) (path : Path) :
    g.envOf labels path q ctx =
      .ok ((g.view labels q accepts covers).env (g.scopes.size + 1) path q.pattern) :=
  (follows_view hacc hcov).env ⟨rfl, room_lt_size path⟩

theorem lawful_view (hpref : q.preference.IsStrict)
    (hcov : ∀ d₁ d₂, q.coverRule.covers ctx d₁ d₂ = .ok (covers d₁ d₂))
    (htrans : ∀ {a b c}, covers a b = true → covers b c = true → covers a c = true) :
    (g.view labels q accepts covers).Lawful where
  strict := hpref
  covers_trans := htrans
  covers_all hall a b := by
    have hab := hcov a b
    cases hrule : q.coverRule with
    | always =>
      rw [hrule] at hab
      exact (Except.ok.inj hab).symm
    | never | test | probe =>
      change q.coverRule.isAlways = true at hall
      rw [hrule] at hall
      exact absurd hall Bool.false_ne_true

/-! ## Queries without preferences -/

/-- The view of a query on a graph that prefers and hides nothing. -/
def plainView (g : ScopeGraph) (labels : List Label) (accepts : Datum → Bool) : View :=
  .ofGraph g labels .none accepts (fun _ _ ↦ false) false

/-- Where nothing is hidden, everything that is found is accepted. -/
theorem envOf_unordered (g : ScopeGraph) (labels : List Label) {rule : DataRule QueryParams}
    (hacc : ∀ d, rule.holds noQueries d = .ok (accepts d)) (path : Path) (p : Pattern) :
    ∃ env, g.envOf labels path (.unordered p rule) = .ok env ∧
      ∀ f, f ∈ env.accepted ↔ (g.plainView labels accepts).Finds path p f := by
  have hcov : ∀ d₁ d₂, (QueryParams.unordered p rule).coverRule.covers noQueries d₁ d₂ =
      .ok ((fun _ _ ↦ false : Datum → Datum → Bool) d₁ d₂) := fun _ _ ↦ rfl
  refine ⟨_, envOf_eq_ok hacc hcov path, fun f ↦ ?_⟩
  have hlawful : (g.view labels (.unordered p rule) accepts fun _ _ ↦ false).Lawful :=
    ⟨Preference.isStrict_none, fun h _ ↦ absurd h Bool.false_ne_true,
      fun h _ _ ↦ absurd h Bool.false_ne_true⟩
  rw [View.mem_accepted_env hlawful within_scopes (room_lt_size _)]
  constructor
  · rintro ⟨hf, -⟩
    exact hf
  · intro hf
    exact ⟨hf, fun f' _ hhides ↦ Bool.false_ne_true hhides.2⟩

/-! ## The answer to a query -/

/-- **A query accepts exactly the visible ones of the walks that match it**: those for which there
is no other match that is preferred where the two part, and whose datum covers theirs. -/
theorem mem_accepted_resolve (g : ScopeGraph) (labels : List Label) (source : Scope)
    (q : QueryParams) (accepts : Datum → Bool) (covers : Datum → Datum → Bool)
    (hpref : q.preference.IsStrict)
    (hacc : ∀ d, q.dataRule.holds noQueries d = .ok (accepts d))
    (hcov : ∀ d₁ d₂, q.coverRule.covers noQueries d₁ d₂ = .ok (covers d₁ d₂))
    (htrans : ∀ {a b c}, covers a b = true → covers b c = true → covers a c = true) :
    ∃ env, g.resolve labels source q = .ok env ∧ ∀ f, f ∈ env.accepted ↔
      g.Matches labels source q.pattern accepts f ∧
        ¬ ∃ f', g.Matches labels source q.pattern accepts f' ∧
          q.preference.Prefers f'.path.steps f.path.steps ∧ covers f.datum f'.datum = true := by
  refine ⟨_, envOf_eq_ok hacc hcov (.start source), fun f ↦ ?_⟩
  rw [View.mem_accepted_env (lawful_view hpref hcov htrans) within_scopes (room_lt_size _)]
  have hfinds : ∀ f, (g.view labels q accepts covers).Finds (.start source) q.pattern f ↔
      g.Matches labels source q.pattern accepts f := fun f ↦ View.finds_start_iff
  simp only [View.Visible, View.Hides, Set.mem_ofPred_eq, hfinds, not_exists, not_and]
  rfl

/-- Two imports and a declaration: the walk that the alphabet prefers hides the one with the same
datum, and the one with another datum stays. -/
theorem mem_accepted_resolve_diamond :
    let s : UnitId → Scope := fun u ↦ ⟨u, "s"⟩
    let g : ScopeGraph := .of [⟨s ⟨"a"⟩, "I", s ⟨"b"⟩⟩, ⟨s ⟨"a"⟩, "P", s ⟨"c"⟩⟩,
      ⟨s ⟨"b"⟩, "P", s ⟨"c"⟩⟩] [(s ⟨"b"⟩, .int 1), (s ⟨"c"⟩, .int 1), (s ⟨"a"⟩, .int 2)]
    let p : Pattern := .ofAutomaton (.of [(0, "I", 0), (0, "P", 0)] [0])
    let q : QueryParams := .mk p .lexical .any (.test "same" fun a b ↦ a = b)
    q.preference.IsStrict ∧
      (∀ d, q.dataRule.holds noQueries d = .ok true) ∧
      (∀ d₁ d₂, q.coverRule.covers noQueries d₁ d₂ = .ok (decide (d₁ = d₂))) ∧
      ∃ env, g.resolve ["I", "P"] (s ⟨"a"⟩) q = .ok env ∧ ∀ f, f ∈ env.accepted ↔
        g.Matches ["I", "P"] (s ⟨"a"⟩) q.pattern (fun _ ↦ true) f ∧
          ¬ ∃ f', g.Matches ["I", "P"] (s ⟨"a"⟩) q.pattern (fun _ ↦ true) f' ∧
            q.preference.Prefers f'.path.steps f.path.steps ∧
              decide (f.datum = f'.datum) = true := by
  intro s g p q
  refine ⟨Preference.isStrict_lexical, fun _ ↦ rfl, fun _ _ ↦ rfl, ?_⟩
  refine mem_accepted_resolve g ["I", "P"] (s ⟨"a"⟩) q (fun _ ↦ true) (fun a b ↦ decide (a = b))
    Preference.isStrict_lexical (fun _ ↦ rfl) (fun _ _ ↦ rfl) ?_
  intro a b c hab hbc
  exact decide_eq_true ((of_decide_eq_true hab).trans (of_decide_eq_true hbc))

end ScopeGraph

end ScopeGraphs
