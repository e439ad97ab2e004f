import ScopeGraphs.Renaming

/-!
# Recording pairs in renamings

A renaming is a part of another one if that has all its pairs. Recording keeps all pairs there are,
and succeeds for a pair that is known or binds two unbound scopes. Pairs that come from one
renaming never stand in each other's way (`Renaming.le_putEach`).
-/

namespace ScopeGraphs

namespace Renaming

variable {p q r : Renaming} {old new a b : Scope}

/-- Whether the first renaming is a part of the second. -/
instance : LE Renaming := ⟨fun p q ↦ ∀ {a b}, p.get? a = some b → q.get? a = some b⟩

protected theorem le_refl (p : Renaming) : p ≤ p := fun h ↦ h

protected theorem le_trans (hpq : p ≤ q) (hqr : q ≤ r) : p ≤ r := fun h ↦ hqr (hpq h)

theorem identity_le (p : Renaming) : identity ≤ p := by
  intro a b h
  exact absurd h (by simp [get?, identity])

/-- A new scope has at most one old one. -/
theorem get?_inj (ha : p.get? a = some new) (hb : p.get? b = some new) : a = b := by
  rw [get?_eq_some_iff] at ha hb
  exact Option.some.inj (ha.symm.trans hb)

theorem apply_eq_of_get? (h : p.get? old = some new) : p.apply old = new := by rw [apply, h]; rfl

/-! ## One pair -/

/-- What is known after a pair was recorded. -/
theorem get?_of_put? (h : p.put? old new = some q) :
    q.get? a = some b ↔ p.get? a = some b ∨ a = old ∧ b = new := by
  rw [put?] at h
  split at h
  · rename_i ho hn
    obtain rfl := Option.some.inj h
    simp only [get?, insertNew, Std.ExtTreeMap.getElem?_insert, Keyed.compare_eq_iff]
    simp only [get?] at ho
    by_cases hold : old = a
    · subst hold
      simp [ho, eq_comm]
    · simp [hold, Ne.symm hold]
  · rename_i n ho
    split at h
    · rename_i hnew
      subst hnew
      obtain rfl := Option.some.inj h
      constructor
      · exact .inl
      · rintro (h | ⟨rfl, rfl⟩)
        · exact h
        · exact ho
    · exact absurd h (by simp)
  · exact absurd h (by simp)

theorem le_of_put? (h : p.put? old new = some q) : p ≤ q := fun hab ↦ (get?_of_put? h).2 (.inl hab)

theorem get?_self_of_put? (h : p.put? old new = some q) : q.get? old = some new :=
  (get?_of_put? h).2 (.inr ⟨rfl, rfl⟩)

/-- A pair is recorded if it is known already, or if neither of its scopes is bound. -/
theorem put?_isSome (h : p.get? old = some new ∨ p.get? old = none ∧ p.getInverse? new = none) :
    ∃ q, p.put? old new = some q := by
  rw [put?]
  split
  · exact ⟨_, rfl⟩
  · rename_i n ho
    rcases h with h | ⟨h, -⟩
    · rw [if_pos (Option.some.inj (ho.symm.trans h))]
      exact ⟨_, rfl⟩
    · exact absurd (ho.symm.trans h) (by simp)
  · rename_i ho hn
    rcases h with h | ⟨-, h⟩
    · exact absurd (ho.symm.trans h) (by simp)
    · exact absurd (hn.symm.trans h) (by simp)

/-- A pair of a larger renaming can be recorded in each of its parts. -/
theorem put?_of_le (hpq : p ≤ q) (h : q.get? old = some new) :
    ∃ r, p.put? old new = some r ∧ r ≤ q := by
  have hput : ∃ r, p.put? old new = some r := by
    refine put?_isSome ?_
    cases ho : p.get? old with
    | some n => exact .inl (congrArg some (Option.some.inj ((hpq ho).symm.trans h)))
    | none =>
      refine .inr ⟨rfl, ?_⟩
      cases hn : p.getInverse? new with
      | none => rfl
      | some m =>
        have hm : p.get? m = some new := get?_eq_some_iff.2 hn
        rw [get?_inj (hpq hm) h, ho] at hm
        exact absurd hm (by simp)
  obtain ⟨r, hr⟩ := hput
  refine ⟨r, hr, fun hab ↦ ?_⟩
  rcases (get?_of_put? hr).1 hab with hab | ⟨rfl, rfl⟩
  · exact hpq hab
  · exact h

/-! ## Several pairs -/

theorem mem_pairs_iff : (a, b) ∈ p.pairs ↔ p.get? a = some b :=
  Std.ExtTreeMap.mem_toList_iff_getElem?_eq_some

/-- What is known after several pairs were recorded. -/
theorem get?_of_putAll? {pairs : List (Scope × Scope)} (h : p.putAll? pairs = some q) :
    q.get? a = some b ↔ p.get? a = some b ∨ (a, b) ∈ pairs := by
  induction pairs generalizing p with
  | nil =>
    obtain rfl := Option.some.inj h
    simp
  | cons e pairs ih =>
    obtain ⟨r, hr, hq⟩ := Option.bind_eq_some_iff.1 h
    rw [ih hq, get?_of_put? hr, List.mem_cons, or_assoc, Prod.ext_iff]

/-- Pairs of a larger renaming can all be recorded in each of its parts. -/
theorem putAll?_of_le {pairs : List (Scope × Scope)} (hpr : p ≤ r)
    (hpairs : ∀ e ∈ pairs, r.get? e.1 = some e.2) : ∃ q, p.putAll? pairs = some q := by
  induction pairs generalizing p with
  | nil => exact ⟨p, rfl⟩
  | cons e pairs ih =>
    obtain ⟨he, hpairs⟩ := List.forall_mem_cons.1 hpairs
    obtain ⟨p', hput, hle⟩ := put?_of_le hpr he
    obtain ⟨q, hq⟩ := ih hle hpairs
    exact ⟨q, by rw [putAll?, hput, Option.bind_some, hq]⟩

/-- What is known after two renamings were merged. -/
theorem get?_of_merge? (h : p.merge? q = some r) :
    r.get? a = some b ↔ p.get? a = some b ∨ q.get? a = some b := by
  rw [get?_of_putAll? h, mem_pairs_iff]

/-- Two parts of one renaming can be merged. -/
theorem merge?_of_le (hpr : p ≤ r) (hqr : q ≤ r) : ∃ m, p.merge? q = some m ∧ m ≤ r := by
  have hpairs : ∀ e ∈ q.pairs, r.get? e.1 = some e.2 := fun _ he ↦ hqr (mem_pairs_iff.1 he)
  obtain ⟨m, hm⟩ := putAll?_of_le hpr hpairs
  refine ⟨m, hm, fun hab ↦ ?_⟩
  exact ((get?_of_merge? hm).1 hab).elim (fun h ↦ hpr h) fun h ↦ hqr h

/-- Two renamings that are parts of each other are equal. -/
protected theorem le_antisymm (hpq : p ≤ q) (hqp : q ≤ p) : p = q :=
  ext fun _ ↦ Option.ext fun _ ↦ ⟨fun h ↦ hpq h, fun h ↦ hqp h⟩

theorem le_put : p ≤ p.put old new := by
  rw [put]
  cases hq : p.put? old new with
  | none => exact p.le_refl
  | some q => exact le_of_put? hq

theorem self_le_putEach (p : Renaming) (pairs : List (Scope × Scope)) : p ≤ p.putEach pairs := by
  induction pairs generalizing p with
  | nil => exact p.le_refl
  | cons e pairs ih => exact Renaming.le_trans le_put (ih (p.put e.1 e.2))

/-- Nothing is recorded but the given pairs. -/
theorem get?_or_mem_of_putEach {pairs : List (Scope × Scope)}
    (h : (p.putEach pairs).get? a = some b) : p.get? a = some b ∨ (a, b) ∈ pairs := by
  induction pairs generalizing p with
  | nil => exact .inl h
  | cons e pairs ih =>
    rcases ih (p := p.put e.1 e.2) h with hab | hab
    · rw [put] at hab
      cases hq : p.put? e.1 e.2 with
      | none =>
        rw [hq] at hab
        exact .inl hab
      | some q =>
        rw [hq] at hab
        refine ((get?_of_put? hq).1 hab).imp_right fun heq ↦ ?_
        rw [heq.1, heq.2]
        exact List.mem_cons_self
    · exact .inr (List.mem_cons_of_mem _ hab)

/-- Pairs of unbound scopes are all recorded if they are one to one. -/
theorem get?_putEach {pairs : List (Scope × Scope)} (hold : ∀ e ∈ pairs, p.get? e.1 = none)
    (hnew : ∀ e ∈ pairs, p.getInverse? e.2 = none) (holds : (pairs.map Prod.fst).Nodup)
    (hnews : (pairs.map Prod.snd).Nodup) {e : Scope × Scope} (he : e ∈ pairs) :
    (p.putEach pairs).get? e.1 = some e.2 := by
  induction pairs generalizing p with
  | nil => exact absurd he List.not_mem_nil
  | cons e' pairs ih =>
    obtain ⟨hold', hold⟩ := List.forall_mem_cons.1 hold
    obtain ⟨hnew', hnew⟩ := List.forall_mem_cons.1 hnew
    rw [List.map_cons, List.nodup_cons] at holds hnews
    obtain ⟨r, hr⟩ := put?_isSome (.inr ⟨hold', hnew'⟩)
    have hput : p.put e'.1 e'.2 = r := by rw [put, hr]; rfl
    rw [putEach, List.foldl_cons, hput]
    rcases List.mem_cons.1 he with rfl | he
    · exact r.self_le_putEach pairs (get?_self_of_put? hr)
    -- The scopes that are still to be bound differ from those that have just been.
    · refine ih (fun d hd ↦ ?_) (fun d hd ↦ ?_) holds.2 hnews.2 he
      · refine Option.eq_none_iff_forall_ne_some.2 fun b hb ↦ ?_
        rcases (get?_of_put? hr).1 hb with hb | ⟨heq, -⟩
        · exact absurd ((hold d hd).symm.trans hb) nofun
        · exact holds.1 (heq ▸ List.mem_map_of_mem hd)
      · refine Option.eq_none_iff_forall_ne_some.2 fun a ha ↦ ?_
        rcases (get?_of_put? hr).1 (get?_eq_some_iff.2 ha) with ha | ⟨-, heq⟩
        · exact absurd ((hnew d hd).symm.trans (get?_eq_some_iff.1 ha)) nofun
        · exact hnews.1 (heq ▸ List.mem_map_of_mem hd)

/-- A pair that says where a scope goes anyway makes no difference. -/
theorem apply_put_apply : (p.put old (p.apply old)).apply a = p.apply a := by
  rw [put]
  cases hq : p.put? old (p.apply old) with
  | none => rfl
  | some q =>
    rw [Option.getD_some, apply, apply]
    cases hp : p.get? a with
    | some b => rw [(get?_of_put? hq).2 (.inl hp)]
    | none =>
      cases hget : q.get? a with
      | none => rfl
      | some b =>
        obtain hb | ⟨rfl, rfl⟩ := (get?_of_put? hq).1 hget
        · exact nomatch hp.symm.trans hb
        · rw [Option.getD_some, apply, hp]

/-- Neither do several of them. -/
theorem apply_putEach_zip_map (p : Renaming) (olds : List Scope) (a : Scope) :
    (p.putEach (olds.zip (olds.map p.apply))).apply a = p.apply a := by
  have hall (q : Renaming) (hq : ∀ s, q.apply s = p.apply s) :
      (q.putEach (olds.zip (olds.map p.apply))).apply a = p.apply a := by
    induction olds generalizing q with
    | nil => exact hq a
    | cons s olds ih =>
      have hput (a : Scope) : (q.put s (p.apply s)).apply a = p.apply a := by
        rw [← hq s, apply_put_apply, hq]
      exact ih _ hput
  exact hall p fun _ ↦ rfl

/-- Pairs of a larger renaming are all recorded, one after the other, in each of its parts. -/
theorem foldl_put_of_le {pairs : List (Scope × Scope)} (hpq : p ≤ q)
    (h : ∀ e ∈ pairs, q.get? e.1 = some e.2) :
    p ≤ pairs.foldl (fun r e ↦ r.put e.1 e.2) p ∧ pairs.foldl (fun r e ↦ r.put e.1 e.2) p ≤ q ∧
      ∀ e ∈ pairs, (pairs.foldl (fun r e ↦ r.put e.1 e.2) p).get? e.1 = some e.2 := by
  induction pairs generalizing p with
  | nil => exact ⟨p.le_refl, hpq, by simp⟩
  | cons e pairs ih =>
    obtain ⟨r, hr, hrq⟩ := put?_of_le hpq (h e (by simp))
    have hput : p.put e.1 e.2 = r := by rw [put, hr]; rfl
    obtain ⟨hle, hleq, hmem⟩ := ih hrq fun e' he' ↦ h e' (by simp [he'])
    rw [List.foldl_cons, hput]
    refine ⟨Renaming.le_trans (le_of_put? hr) hle, hleq, ?_⟩
    rintro e' he'
    rcases List.mem_cons.1 he' with rfl | he'
    · exact hle (get?_self_of_put? hr)
    · exact hmem e' he'

/-- **Two parts of one renaming can be put together.** -/
theorem le_putEach (hpr : p ≤ r) (hqr : q ≤ r) :
    p ≤ p.putEach q.pairs ∧ q ≤ p.putEach q.pairs ∧ p.putEach q.pairs ≤ r := by
  have hpairs : ∀ e ∈ q.pairs, r.get? e.1 = some e.2 := fun e he ↦ hqr (mem_pairs_iff.1 he)
  obtain ⟨hle, hler, hmem⟩ := foldl_put_of_le hpr hpairs
  exact ⟨hle, fun hab ↦ hmem (_, _) (mem_pairs_iff.2 hab), hler⟩

/-- What is renamed by two parts of one renaming put together is renamed by one of them. -/
theorem get?_putEach_pairs_iff (hpr : p ≤ r) (hqr : q ≤ r) :
    (p.putEach q.pairs).get? a = some b ↔ p.get? a = some b ∨ q.get? a = some b := by
  obtain ⟨hp, hq, -⟩ := le_putEach hpr hqr
  refine ⟨fun hab ↦ ?_, fun hab ↦ hab.elim (fun h ↦ hp h) fun h ↦ hq h⟩
  exact (get?_or_mem_of_putEach hab).imp_right mem_pairs_iff.1

/-- Two parts of one renaming have the same effect on a scope exactly if both rename it, or neither
of them, or the scope keeps its name anyway. -/
theorem apply_eq_apply_iff (hpr : p ≤ r) (hqr : q ≤ r) :
    p.apply a = q.apply a ↔ (p.get? a).isSome = (q.get? a).isSome ∨ r.apply a = a := by
  have hone {p : Renaming} (hpr : p ≤ r) {b : Scope} (hp : p.get? a = some b) : r.apply a = b :=
    apply_eq_of_get? (hpr hp)
  cases hp : p.get? a with
  | some b =>
    cases hq : q.get? a with
    | some c =>
      rw [apply_eq_of_get? hp, apply_eq_of_get? hq, ← hone hpr hp, ← hone hqr hq]
      simp
    | none =>
      rw [apply_eq_of_get? hp, apply, hq, hone hpr hp]
      simp
  | none =>
    cases hq : q.get? a with
    | some c =>
      rw [apply_eq_of_get? hq, apply, hp, hone hqr hq]
      simp [eq_comm]
    | none => simp [apply, hp, hq]

end Renaming

end ScopeGraphs
