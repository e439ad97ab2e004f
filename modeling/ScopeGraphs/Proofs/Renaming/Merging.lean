import Mathlib.Data.Set.Insert
import ScopeGraphs.Proofs.Renamings

/-!
# Merging renamings

Pairs are recorded one after the other, and recording fails as soon as one of them does not go
with those before it. This module says what that comes to without mentioning any order: pairs can be
recorded exactly if together with those that are there they are one to one
(`Renaming.putAll?_isSome_iff`), and what comes out are then all of them
(`Renaming.putAll?_eq_some_iff`).

A renaming is determined by the set of its pairs, so the second statement turns every law of unions
into a law of merging.
-/

namespace ScopeGraphs

/-- No two pairs share one of their scopes without sharing the other. -/
def IsOneToOne (pairs : Set (Scope × Scope)) : Prop :=
  ∀ e ∈ pairs, ∀ e' ∈ pairs, e.1 = e'.1 ↔ e.2 = e'.2

namespace Renaming

variable {p q r : Renaming} {old new : Scope} {pairs pairs' : List (Scope × Scope)}

/-! ## Sets of pairs -/

/-- The pairs of a renaming as a set. -/
def pairSet (p : Renaming) : Set (Scope × Scope) := {e | p.get? e.1 = some e.2}

theorem pairSet_injective : Function.Injective pairSet := by
  intro p q h
  refine ext fun a ↦ Option.ext fun b ↦ ?_
  exact Set.ext_iff.1 h (a, b)

theorem le_iff_pairSet_subset : p ≤ q ↔ p.pairSet ⊆ q.pairSet :=
  ⟨fun h _ he ↦ h he, fun h a b hab ↦ h (a := (a, b)) hab⟩

theorem pairSet_identity : identity.pairSet = ∅ := by
  refine Set.eq_empty_of_forall_notMem fun e he ↦ ?_
  have hnone : identity.get? e.1 = none := Std.ExtTreeMap.getElem?_empty
  exact nomatch hnone.symm.trans he

theorem setOf_mem_pairs : {e | e ∈ p.pairs} = p.pairSet := Set.ext fun _ ↦ mem_pairs_iff

theorem isOneToOne_pairSet (p : Renaming) : IsOneToOne p.pairSet := by
  rintro ⟨a, b⟩ hab ⟨a', b'⟩ hab'
  constructor
  · rintro rfl
    exact Option.some.inj (hab.symm.trans hab')
  · rintro rfl
    exact get?_inj hab hab'

/-! ## One pair -/

theorem pairSet_of_put? (h : p.put? old new = some q) :
    q.pairSet = p.pairSet ∪ {(old, new)} := by
  ext ⟨a, b⟩
  rw [Set.mem_union, Set.mem_singleton_iff, Prod.mk.injEq]
  exact get?_of_put? h

/-- A pair is recorded unless one of its scopes is bound to something else. -/
theorem put?_isSome_iff : (p.put? old new).isSome = true ↔
    (∀ n, p.get? old = some n → n = new) ∧ ∀ o, p.getInverse? new = some o → o = old := by
  constructor
  · intro h
    obtain ⟨q, hq⟩ := Option.isSome_iff_exists.1 h
    have hpair := get?_self_of_put? hq
    constructor
    · intro n hn
      exact Option.some.inj ((le_of_put? hq hn).symm.trans hpair)
    · intro o ho
      exact get?_inj (le_of_put? hq (get?_eq_some_iff.2 ho)) hpair
  · rintro ⟨hold, hnew⟩
    refine Option.isSome_iff_exists.2 (put?_isSome ?_)
    cases hn : p.get? old with
    | some n => exact .inl (congrArg some (hold n hn))
    | none =>
      refine .inr ⟨rfl, Option.eq_none_iff_forall_ne_some.2 fun o ho ↦ ?_⟩
      obtain rfl := hnew o ho
      exact nomatch hn.symm.trans (get?_eq_some_iff.2 ho)

/-- A pair that is one to one with what is there is recorded. -/
theorem exists_put?_of_isOneToOne (h : IsOneToOne (p.pairSet ∪ {(old, new)})) :
    ∃ q, p.put? old new = some q := by
  refine Option.isSome_iff_exists.1 (put?_isSome_iff.2 ⟨fun n hn ↦ ?_, fun o ho ↦ ?_⟩)
  · exact (h (old, n) (.inl hn) (old, new) (.inr rfl)).1 rfl
  · exact (h (o, new) (.inl (get?_eq_some_iff.2 ho)) (old, new) (.inr rfl)).2 rfl

/-! ## Several pairs -/

theorem union_setOf_mem_cons (S : Set (Scope × Scope)) (e : Scope × Scope) :
    S ∪ {e' | e' ∈ e :: pairs} = S ∪ {e} ∪ {e' | e' ∈ pairs} := by
  rw [Set.union_assoc]
  exact congrArg (S ∪ ·) (Set.ext fun _ ↦ List.mem_cons)

/-- Whether pairs can be recorded does not depend on their order. -/
theorem putAll?_isSome_iff :
    (p.putAll? pairs).isSome = true ↔ IsOneToOne (p.pairSet ∪ {e | e ∈ pairs}) := by
  constructor
  · intro h
    obtain ⟨q, hq⟩ := Option.isSome_iff_exists.1 h
    have hpairs : q.pairSet = p.pairSet ∪ {e | e ∈ pairs} := Set.ext fun _ ↦ get?_of_putAll? hq
    exact hpairs ▸ q.isOneToOne_pairSet
  · intro h
    induction pairs generalizing p with
    | nil => rfl
    | cons e pairs ih =>
      rw [union_setOf_mem_cons] at h
      obtain ⟨q, hq⟩ : ∃ q, p.put? e.1 e.2 = some q :=
        exists_put?_of_isOneToOne fun d hd d' hd' ↦ h d (.inl hd) d' (.inl hd')
      rw [putAll?, hq, Option.bind_some]
      exact ih (pairSet_of_put? hq ▸ h)

/-- What has been recorded are the pairs that were there and the given ones. -/
theorem putAll?_eq_some_iff :
    p.putAll? pairs = some q ↔ q.pairSet = p.pairSet ∪ {e | e ∈ pairs} := by
  constructor
  · intro h
    exact Set.ext fun _ ↦ get?_of_putAll? h
  · intro h
    obtain ⟨r, hr⟩ := Option.isSome_iff_exists.1 (putAll?_isSome_iff.2 (h ▸ q.isOneToOne_pairSet))
    have hpairs : r.pairSet = q.pairSet := (Set.ext fun _ ↦ get?_of_putAll? hr).trans h.symm
    rw [hr, pairSet_injective hpairs]

theorem of?_eq_some_iff : of? pairs = some p ↔ p.pairSet = {e | e ∈ pairs} := by
  rw [of?, putAll?_eq_some_iff, pairSet_identity, Set.empty_union]

theorem of?_isSome_iff : (of? pairs).isSome = true ↔ IsOneToOne {e | e ∈ pairs} := by
  rw [of?, putAll?_isSome_iff, pairSet_identity, Set.empty_union]

/-- A renaming can be made from its own pairs. -/
theorem of?_pairs (p : Renaming) : of? p.pairs = some p :=
  of?_eq_some_iff.2 setOf_mem_pairs.symm

/-- The order and the repetition of pairs do not matter. -/
theorem of?_congr (h : ∀ e, e ∈ pairs ↔ e ∈ pairs') : of? pairs = of? pairs' := by
  refine Option.ext fun p ↦ ?_
  have hpairs : {e | e ∈ pairs} = {e | e ∈ pairs'} := Set.ext h
  rw [of?_eq_some_iff, of?_eq_some_iff, hpairs]

/-! ## Merging -/

theorem merge?_isSome_iff : (p.merge? q).isSome = true ↔ IsOneToOne (p.pairSet ∪ q.pairSet) := by
  rw [merge?, putAll?_isSome_iff, setOf_mem_pairs]

/-- What has been merged is the union. -/
theorem merge?_eq_some_iff : p.merge? q = some r ↔ r.pairSet = p.pairSet ∪ q.pairSet := by
  rw [merge?, putAll?_eq_some_iff, setOf_mem_pairs]

theorem merge?_comm (p q : Renaming) : p.merge? q = q.merge? p := by
  refine Option.ext fun r ↦ ?_
  rw [merge?_eq_some_iff, merge?_eq_some_iff, Set.union_comm]

/-- Three renamings are merged from the left exactly if the result is their union. -/
theorem merge?_bind_merge?_eq_some_iff {s : Renaming} :
    ((p.merge? q).bind fun m ↦ m.merge? r) = some s ↔
      s.pairSet = p.pairSet ∪ q.pairSet ∪ r.pairSet := by
  rw [Option.bind_eq_some_iff]
  constructor
  · rintro ⟨m, hm, hs⟩
    rw [merge?_eq_some_iff.1 hs, merge?_eq_some_iff.1 hm]
  · intro hs
    -- Both are parts of the result, so the first step cannot fail if the second succeeds.
    have hps : p ≤ s := le_iff_pairSet_subset.2 fun e he ↦ hs ▸ .inl (.inl he)
    have hqs : q ≤ s := le_iff_pairSet_subset.2 fun e he ↦ hs ▸ .inl (.inr he)
    obtain ⟨m, hm, -⟩ := merge?_of_le hps hqs
    refine ⟨m, hm, merge?_eq_some_iff.2 ?_⟩
    rw [hs, merge?_eq_some_iff.1 hm]

/-- Merging is associative, where a refused merge makes everything fail. -/
theorem merge?_assoc (p q r : Renaming) :
    ((p.merge? q).bind fun m ↦ m.merge? r) = (q.merge? r).bind fun m ↦ p.merge? m := by
  have hswap : (fun m ↦ p.merge? m) = fun m ↦ m.merge? p := funext fun m ↦ merge?_comm p m
  refine Option.ext fun s ↦ ?_
  rw [hswap, merge?_bind_merge?_eq_some_iff, merge?_bind_merge?_eq_some_iff, Set.union_assoc,
    Set.union_comm]

theorem merge?_self (p : Renaming) : p.merge? p = some p := by
  rw [merge?_eq_some_iff, Set.union_self]

theorem merge?_identity (p : Renaming) : p.merge? identity = some p := by
  rw [merge?_eq_some_iff, pairSet_identity, Set.union_empty]

theorem identity_merge? (p : Renaming) : identity.merge? p = some p := by
  rw [merge?_comm, merge?_identity]

end Renaming

end ScopeGraphs
