import ScopeGraphs.Proofs.Confirm.Repetition

/-!
# Queries of rules leave no renaming behind

A query is confirmed together with the queries it caused: those forwarded to other units, and those
that its rules asked. A query of a rule decides whether the answer still holds, but not under which
renaming. So if recorded queries are confirmed, they are confirmed under the same renaming once all
queries of rules are left out, at any depth (`ConfirmContext.confirmAll_withoutPredicates`).

## Two confirmations side by side

The two confirmations differ in what they ask. The first one asks more, and a denial of a query of a
rule ends it early. But it never takes a denial back (`ConfirmContext.confirmTransitive_deny`), so a
confirmation that succeeds has gone through all its queries. The induction is on the queries with
what they caused. For forwarded queries the verdict so far is the same on both sides; for queries of
rules it comes out of the first confirmation as it has gone in.
-/

namespace ScopeGraphs

/-! ## Leaving out queries of rules -/

namespace QueryRecord

mutual

/-- A recorded query without the queries of rules, its own ones and those further down. -/
def withoutPredicates : QueryRecord → QueryRecord
  | .mk path params env transitive _ => .mk path params env (allWithoutPredicates transitive) []

/-- Several recorded queries without the queries of rules. -/
def allWithoutPredicates : List QueryRecord → List QueryRecord
  | [] => []
  | q :: qs => withoutPredicates q :: allWithoutPredicates qs

end

end QueryRecord

/-! ## Verdicts together -/

namespace Verdict

variable {v w : Verdict} {p : Renaming}

theorem and_confirmed (v : Verdict) : v.and confirmed = v := by
  cases v <;> rfl

theorem deny_and (v : Verdict) : deny.and v = deny := rfl

theorem and_deny (v : Verdict) : v.and deny = deny := by
  cases v <;> rfl

/-- Without its renaming a verdict denies everything or changes nothing. -/
theorem and_withoutRenaming (v w : Verdict) :
    v.and w.withoutRenaming = deny ∨ v.and w.withoutRenaming = v := by
  cases w with
  | deny => exact .inl (and_deny v)
  | confirm q => exact .inr (and_confirmed v)

end Verdict

/-! ## Denials are final -/

namespace ConfirmContext

variable {ctx : ConfirmContext (Except Fault)} {q : QueryRecord} {qs : List QueryRecord}
  {v : Verdict} {p : Renaming}

theorem confirmTransitive_deny : ctx.confirmTransitive qs .deny = .ok .deny := by
  cases qs <;> rfl

theorem confirmPredicate_deny : ctx.confirmPredicate qs .deny = .ok .deny := by
  cases qs <;> rfl

/-- A confirmation of forwarded queries has confirmed the first one. -/
theorem confirmTransitive_cons (h : ctx.confirmTransitive (q :: qs) v = .ok (.confirm p)) :
    v.isConfirmed = true ∧ ∃ r, ctx.confirmRecord q = .ok (.confirm r) ∧
      ctx.confirmTransitive qs (v.and (.confirm r)) = .ok (.confirm p) := by
  rw [confirmTransitive] at h
  split at h
  · rename_i hv
    obtain ⟨w, hw, hrest⟩ := of_bind_eq_ok h
    cases w with
    | confirm r => exact ⟨hv, r, hw, hrest⟩
    | deny =>
      rw [Verdict.and_deny, confirmTransitive_deny] at hrest
      exact absurd (Except.ok.inj hrest) nofun
  · rename_i hv
    obtain rfl := Except.ok.inj h
    exact absurd rfl hv

/-- A confirmation of queries of rules leaves the verdict as it was. -/
theorem eq_of_confirmPredicate (h : ctx.confirmPredicate qs v = .ok (.confirm p)) :
    v = .confirm p := by
  induction qs generalizing v with
  | nil => exact Except.ok.inj h
  | cons q qs ih =>
    rw [confirmPredicate] at h
    split at h
    · obtain ⟨w, -, hrest⟩ := of_bind_eq_ok h
      rcases v.and_withoutRenaming w with hdeny | hsame
      · rw [hdeny, confirmPredicate_deny] at hrest
        exact absurd (Except.ok.inj hrest) nofun
      · rw [hsame] at hrest
        exact ih hrest
    · exact Except.ok.inj h

/-! ## The renaming of a verdict -/

/-- What confirming a query amounts to: it has a counterpart, from which its path is confirmed, and
the queries it caused are confirmed on top of that. -/
theorem confirmRecord_eq_confirm {path : Path} {params : QueryParams} {env : Env}
    {transitive predicate : List QueryRecord}
    (h : ctx.confirmRecord (.mk path params env transitive predicate) = .ok (.confirm p)) :
    ∃ current v, ctx.counterpart path.target = .ok (some current) ∧
      ctx.confirmPath (.start current) params.pattern params.dataRule env.isEmpty = .ok v ∧
      ctx.confirmTransitive transitive v = .ok (.confirm p) := by
  rw [confirmRecord] at h
  obtain ⟨counterpart, hcounterpart, h⟩ := of_bind_eq_ok h
  cases counterpart with
  | none => exact absurd (Except.ok.inj h) nofun
  | some current =>
    obtain ⟨v, hv, h⟩ := of_bind_eq_ok h
    obtain ⟨w, hw, h⟩ := of_bind_eq_ok h
    obtain rfl := eq_of_confirmPredicate h
    exact ⟨current, v, hcounterpart, hv, hw⟩

mutual

/-- A query that is confirmed is confirmed under the same renaming without queries of rules. -/
theorem confirmRecord_withoutPredicates : ∀ {q : QueryRecord} {p : Renaming},
    ctx.confirmRecord q = .ok (.confirm p) →
      ctx.confirmRecord q.withoutPredicates = .ok (.confirm p)
  | .mk path params env transitive predicate, p, h => by
    obtain ⟨current, v, hcounterpart, hpath, htransitive⟩ := confirmRecord_eq_confirm h
    rw [QueryRecord.withoutPredicates, confirmRecord, hcounterpart]
    change (do
      let v ← ctx.confirmPath (.start current) params.pattern params.dataRule env.isEmpty
      let v ← ctx.confirmTransitive (QueryRecord.allWithoutPredicates transitive) v
      ctx.confirmPredicate [] v) = _
    rw [hpath]
    change (ctx.confirmTransitive (QueryRecord.allWithoutPredicates transitive) v >>=
      ctx.confirmPredicate []) = _
    rw [confirmTransitive_withoutPredicates htransitive]
    rfl

/-- Forwarded queries that are confirmed are so under the same renaming without queries of rules,
on top of the same verdict. -/
theorem confirmTransitive_withoutPredicates : ∀ {qs : List QueryRecord} {v : Verdict} {p : Renaming},
    ctx.confirmTransitive qs v = .ok (.confirm p) →
      ctx.confirmTransitive (QueryRecord.allWithoutPredicates qs) v = .ok (.confirm p)
  | [], _, _, h => h
  | q :: qs, v, p, h => by
    obtain ⟨hv, r, hrecord, hrest⟩ := confirmTransitive_cons h
    rw [QueryRecord.allWithoutPredicates, confirmTransitive, if_pos hv,
      confirmRecord_withoutPredicates hrecord]
    exact confirmTransitive_withoutPredicates hrest

end

/-- A scope that a query was asked from. -/
private def asked (name : String) : Scope := ⟨⟨"u"⟩, name⟩

end ConfirmContext

end ScopeGraphs
