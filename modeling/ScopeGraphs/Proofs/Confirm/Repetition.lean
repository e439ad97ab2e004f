import ScopeGraphs.Confirm.Fixed
import ScopeGraphs.Proofs.Mentions
import ScopeGraphs.Proofs.Renamings
import ScopeGraphs.Proofs.Sorted

/-!
# What asking again confirms

A unit can confirm its recorded queries by asking all of them again. It learns the renaming of
scopes on the way, one counterpart at each query, and compares every answer under what it has learnt
by then. The verdict, though, is the renaming that it knows in the end. An answer that mentions a
scope that is renamed only later is not the recorded one under that renaming
(`ConfirmContext.askAgain_not_sound`); all other answers are
(`ConfirmContext.accepted_eq_of_askAgain`).
-/

namespace ScopeGraphs

/-- Renamings that agree on everything that an answer accepts rename it alike. -/
theorem Env.accepted_rename_congr {p q : Renaming} {env : Env}
    (h : ∀ r ∈ env.accepted, ∀ s, r.Mentions s → p.apply s = q.apply s) :
    (env.rename p).accepted = (env.rename q).accepted := by
  have hmap : env.accepted.toList.map (ResolvedPath.rename p) =
      env.accepted.toList.map (ResolvedPath.rename q) :=
    List.map_congr_left fun r hr ↦ ResolvedPath.rename_congr (h r (Std.ExtTreeSet.mem_toList.1 hr))
  rw [rename, rename, of, of, hmap]

/-- The scope that a query starts from: the end of the path that it goes on. -/
abbrev QueryRecord.source (q : QueryRecord) : Scope := q.path.target

namespace ConfirmContext

variable {ctx : ConfirmContext (Except Fault)} {q : QueryRecord} {qs before after : List QueryRecord}
  {p p' : Renaming}

/-- The answer to a recorded query, asked again at the counterpart of its source, is the recorded
one under a renaming. -/
structure Repeats (ctx : ConfirmContext (Except Fault)) (q : QueryRecord) (current : Scope) (env : Env)
    (known : Renaming) : Prop where
  counterpart : ctx.counterpart q.source = .ok (some current)
  query : ctx.query (.start current) q.params = .ok env
  accepted : env.accepted = (q.env.rename known).accepted

/-- A computation that goes on after a step has taken the step. -/
theorem of_bind_eq_ok {α β : Type} {x : Except Fault α} {f : α → Except Fault β} {b : β}
    (h : x >>= f = .ok b) : ∃ a, x = .ok a ∧ f a = .ok b := by
  cases x with
  | error e => exact absurd h nofun
  | ok a => exact ⟨a, rfl, h⟩

/-- Queries are confirmed one by one: the first one under what is known with its own source, and the
others from there. -/
theorem askAgain_cons (h : ctx.askAgain (q :: qs) p = .ok (.confirm p')) :
    ∃ current env known, p.put? q.source current = some known ∧ ctx.Repeats q current env known ∧
      ctx.askAgain qs known = .ok (.confirm p') := by
  have hdenied : (pure .deny : Except Fault Verdict) ≠ .ok (.confirm p') := nofun
  rw [askAgain] at h
  obtain ⟨counterpart, hcounterpart, h⟩ := of_bind_eq_ok h
  split at h
  · exact absurd h hdenied
  · rename_i current
    split at h
    · exact absurd h hdenied
    · rename_i known hput
      obtain ⟨env, hquery, h⟩ := of_bind_eq_ok h
      split at h
      · rename_i heq
        exact ⟨current, env, known, hput, ⟨hcounterpart, hquery, heq⟩, h⟩
      · exact absurd h hdenied

/-- Pairs that are known stay known. -/
theorem le_of_askAgain (h : ctx.askAgain qs p = .ok (.confirm p')) : p ≤ p' := by
  induction qs generalizing p with
  | nil =>
    obtain rfl := Verdict.confirm.inj (Except.ok.inj h)
    exact Renaming.le_refl _
  | cons q qs ih =>
    obtain ⟨current, env, known, hput, -, hrest⟩ := askAgain_cons h
    exact Renaming.le_trans (Renaming.le_of_put? hput) (ih hrest)

/-- When a query is asked again, the renaming has the pairs that were there before and those of the
sources up to this query. -/
theorem exists_repeats (h : ctx.askAgain (before ++ q :: after) p = .ok (.confirm p')) :
    ∃ current env known, ctx.Repeats q current env known ∧ known.get? q.source = some current ∧
      known ≤ p' ∧ ∀ s new, known.get? s = some new ↔
        p.get? s = some new ∨ s ∈ (before ++ [q]).map QueryRecord.source ∧ p'.get? s = some new := by
  -- a pair that is recorded stays in the renaming until the end
  have hpair {q : QueryRecord} {current s new : Scope} {p known : Renaming}
      (hput : p.put? q.source current = some known) (hle : known ≤ p') :
      known.get? s = some new ↔ p.get? s = some new ∨ s = q.source ∧ p'.get? s = some new := by
    rw [Renaming.get?_of_put? hput]
    refine or_congr_right (and_congr_right fun hs ↦ ?_)
    rw [hs, hle (Renaming.get?_self_of_put? hput), Option.some.injEq, eq_comm]
  induction before generalizing p with
  | nil =>
    obtain ⟨current, env, known, hput, hrepeats, hrest⟩ := askAgain_cons h
    have hle : known ≤ p' := le_of_askAgain hrest
    refine ⟨current, env, known, hrepeats, Renaming.get?_self_of_put? hput, hle, fun s new ↦ ?_⟩
    rw [hpair hput hle, List.nil_append, List.map_singleton, List.mem_singleton]
  | cons q' before ih =>
    obtain ⟨current', env', known', hput, -, hrest⟩ := askAgain_cons h
    have hle : known' ≤ p' := le_of_askAgain hrest
    obtain ⟨current, env, known, hrepeats, hself, hknown, hpairs⟩ := ih hrest
    refine ⟨current, env, known, hrepeats, hself, hknown, fun s new ↦ ?_⟩
    rw [hpairs, hpair hput hle, or_assoc, List.cons_append, List.map_cons, List.mem_cons, or_and_right]

/-- **What asking again confirms.** Every recorded query has the recorded answer at the counterpart
of its source, under the part of the verdict's renaming that concerns the sources up to this query.
Under the whole renaming it has so as well if the answer mentions no other scope that is renamed. -/
theorem accepted_eq_of_askAgain
    (h : ctx.confirmAll .trivial (before ++ q :: after) = .ok (.confirm p)) :
    ∃ current env known, ctx.Repeats q current env known ∧ p.get? q.source = some current ∧
      (∀ s new, known.get? s = some new ↔
        s ∈ (before ++ [q]).map QueryRecord.source ∧ p.get? s = some new) ∧
      ((∀ r ∈ q.env.accepted, ∀ s, r.Mentions s →
          s ∈ (before ++ [q]).map QueryRecord.source ∨ p.apply s = s) →
        ctx.Repeats q current env p) := by
  obtain ⟨current, env, known, hrepeats, hself, hle, hpairs⟩ := exists_repeats h
  have hknown (s new : Scope) : known.get? s = some new ↔
      s ∈ (before ++ [q]).map QueryRecord.source ∧ p.get? s = some new := by
    rw [hpairs, or_iff_right]
    simp [Renaming.get?, Renaming.identity]
  refine ⟨current, env, known, hrepeats, hle hself, hknown, fun hmentions ↦ ?_⟩
  refine ⟨hrepeats.counterpart, hrepeats.query, hrepeats.accepted.trans ?_⟩
  refine Env.accepted_rename_congr fun r hr s hs ↦ ?_
  have hget : known.get? s = p.get? s ∨ p.apply s = s ∧ known.get? s = none := by
    by_cases hsource : s ∈ (before ++ [q]).map QueryRecord.source
    · exact .inl (Option.ext fun new ↦ (hknown s new).trans (and_iff_right hsource))
    · refine .inr ⟨(hmentions r hr s hs).resolve_left hsource, ?_⟩
      rw [Option.eq_none_iff_forall_ne_some]
      exact fun new hnew ↦ hsource ((hknown s new).1 hnew).1
  rcases hget with hget | ⟨happly, hnone⟩
  · rw [Renaming.apply, hget, ← Renaming.apply]
  · rw [happly, Renaming.apply, hnone, Option.getD_none]

/-! ### A scope that is renamed after it was found -/

private def found (name : String) : Scope := ⟨⟨"u"⟩, name⟩

/-- A scope with another one below it, and a third one with the same datum. -/
private def twins : ScopeGraph :=
  .of [⟨found "s", "E", found "t"⟩] [(found "t", .int 1), (found "t2", .int 1)]

/-- The third scope is the counterpart of the second one. -/
private def exchanging : ConfirmContext (Except Fault) where
  query path q := twins.envOf ["E"] path q
  queryPrevious path q := twins.envOf ["E"] path q
  external _ _ _ _ := pure none
  envDiff _ _ _ := pure .empty
  counterpart s := pure ([(found "s", found "s"), (found "t", found "t2")].lookup s)

/-- The answer with the scope below. -/
private def findsBelow : Env := .of [⟨⟨found "s", [("E", found "t")]⟩, .int 1⟩] []

/-- Asks for the scopes below the first one. -/
private def fromAbove : QueryRecord :=
  .mk (.start (found "s")) (.unordered (.ofAutomaton (.of [(0, "E", 1)] [1])) .any) findsBelow [] []

/-- Asks for the second scope itself. -/
private def fromItself : QueryRecord :=
  .mk (.start (found "t")) (.unordered .epsilon .any)
    (.of [⟨.start (found "t"), .int 1⟩] []) [] []

private def exchanged : Renaming :=
  (Renaming.identity.put (found "s") (found "s")).put (found "t") (found "t2")

private theorem confirmAll_exchanging :
    exchanging.confirmAll .trivial [fromAbove, fromItself] = .ok (.confirm exchanged) := by rfl

/-- The last answer mentions no scope that is renamed later. -/
theorem accepted_eq_of_askAgain_exchanged :
    exchanging.confirmAll .trivial [fromAbove, fromItself] = .ok (.confirm exchanged) ∧
      ∃ current env, exchanging.Repeats fromItself current env exchanged := by
  have hconfirm : exchanging.confirmAll .trivial ([fromAbove] ++ fromItself :: []) =
      .ok (.confirm exchanged) :=
    confirmAll_exchanging
  obtain ⟨current, env, known, -, -, -, hwhole⟩ := accepted_eq_of_askAgain hconfirm
  refine ⟨hconfirm, current, env, hwhole fun r hr s hs ↦ .inl ?_⟩
  obtain rfl := List.mem_singleton.1 (SortedSet.mem_ofList.1 hr)
  obtain rfl : s = found "t" := by
    rcases hs with hs | hs
    · exact List.mem_singleton.1 hs
    · exact absurd hs List.not_mem_nil
  decide

/-- **Asking again may confirm too much.** The first answer mentions a scope that gets its
counterpart only from the second query, so it is not the recorded one under the renaming of the
verdict. -/
theorem askAgain_not_sound :
    ¬ ∀ (ctx : ConfirmContext (Except Fault)) (qs : List QueryRecord) (p : Renaming),
      ctx.confirmAll .trivial qs = .ok (.confirm p) →
      ∀ q ∈ qs, ∃ current env, ctx.Repeats q current env p := by
  intro h
  obtain ⟨current, env, hcounterpart, hquery, haccepted⟩ :=
    h exchanging _ _ confirmAll_exchanging fromAbove List.mem_cons_self
  have hcurrent : exchanging.counterpart fromAbove.source = .ok (some (found "s")) := by rfl
  obtain rfl := Option.some.inj (Except.ok.inj (hcurrent.symm.trans hcounterpart))
  have hanswer : exchanging.query (.start (found "s")) fromAbove.params = .ok findsBelow := by rfl
  obtain rfl := Except.ok.inj (hanswer.symm.trans hquery)
  have hbefore : findsBelow.accepted.toList = [⟨⟨found "s", [("E", found "t")]⟩, .int 1⟩] := by rfl
  have hafter : (findsBelow.rename exchanged).accepted.toList =
      [⟨⟨found "s", [("E", found "t2")]⟩, .int 1⟩] := by rfl
  have hsame : findsBelow.accepted = (findsBelow.rename exchanged).accepted := haccepted
  rw [← hsame, hbefore] at hafter
  exact absurd hafter (by decide)

end ConfirmContext

end ScopeGraphs
