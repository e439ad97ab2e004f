import Mathlib.Tactic.Push
import ScopeGraphs.Proofs.Resolution.Environments
import ScopeGraphs.Resolution.Resolver

/-!
# Resolution without effects

A `View` is what a resolution reads when nothing is resolved elsewhere, nothing has to be awaited
and no rule fails. The resolver of a view runs in the identity monad, so its environments are plain
values; the lemmas of this module say what each of its functions accepts.
-/

namespace ScopeGraphs

universe u

/-- What a resolution reads from a graph that is at hand as a whole, under rules that only look at
data. -/
structure View where
  /-- The labels a query may follow. -/
  labels : List Label
  /-- The preference between slots. -/
  preference : Preference
  /-- The targets of the edges of a scope under a label. -/
  targets : Scope → Label → List Scope
  /-- The datum of a scope. -/
  datum? : Scope → Option Datum
  /-- Whether the query accepts a datum. -/
  accepts : Datum → Bool
  /-- Whether the first datum is covered by the second. -/
  covers : Datum → Datum → Bool
  /-- Whether every datum is declared to be covered by every other one. -/
  coversAll : Bool

namespace View

/-- The resolver that reads a view. -/
def resolver (v : View) : Resolver Id where
  labels := v.labels
  preference := v.preference
  elsewhere _ _ := none
  targets := v.targets
  datum? := v.datum?
  accepts := v.accepts
  covers := v.covers
  coversAll := v.coversAll
  together _ es := es

/-- The environment through one slot of a view. -/
def ofSlot (v : View) (descend : Path → Pattern → Env) (path : Path) (p : Pattern) (a : Slot) :
    Env :=
  (v.resolver.ofSlot descend path p a).run

/-- The environment through several slots of a view. -/
def layered (v : View) (descend : Path → Pattern → Env) (path : Path) (p : Pattern) (n : Nat)
    (slots : List Slot) : Env :=
  (v.resolver.layered descend path p n slots).run

/-- The environment of a path in a view. -/
def env (v : View) (depth : Nat) (path : Path) (p : Pattern) : Env :=
  (v.resolver.env depth path p).run

theorem env_succ (v : View) (depth : Nat) (path : Path) (p : Pattern) :
    v.env (depth + 1) path p =
      v.layered (v.env depth) path p (Resolver.slots v.labels p).length
        (Resolver.slots v.labels p) :=
  rfl

variable {v : View} {descend : Path → Pattern → Env} {path : Path} {p : Pattern}
  {f r : ResolvedPath}

/-! ## Shadowing -/

theorem isShadowed_iff {covers : Datum → Datum → Bool} {ws : List ResolvedPath} :
    (Resolver.isShadowed (m := Id) covers r ws).run = true ↔
      ∃ w ∈ ws, covers r.datum w.datum = true := by
  induction ws with
  | nil =>
    constructor
    · intro h
      exact absurd h Bool.false_ne_true
    · rintro ⟨w, hw, -⟩
      exact absurd hw List.not_mem_nil
  | cons w ws ih =>
    have hstep : (Resolver.isShadowed (m := Id) covers r (w :: ws)).run =
        if covers r.datum w.datum = true then true
        else (Resolver.isShadowed (m := Id) covers r ws).run := by
      rw [Resolver.isShadowed]
      change Id.run (if covers r.datum w.datum = true then pure true else _) = _
      split <;> rfl
    rw [hstep]
    cases h : covers r.datum w.datum <;> simp [h, ih]

theorem addCandidates_cons {covers : Datum → Datum → Bool} {ws rs : List ResolvedPath} {e : Env} :
    (Resolver.addCandidates (m := Id) covers ws (r :: rs) e).run =
      if (Resolver.isShadowed (m := Id) covers r ws).run = true then
        (Resolver.addCandidates (m := Id) covers ws rs (if r ∈ ws then e else e.reject r)).run
      else (Resolver.addCandidates (m := Id) covers ws rs (e.accept r)).run := by
  rw [Resolver.addCandidates]
  change Id.run (if (Resolver.isShadowed (m := Id) covers r ws).run = true then _ else _) = _
  split <;> rfl

/-- Candidates that no winner covers are accepted, whatever else happens to the others. -/
theorem mem_accepted_addCandidates {covers : Datum → Datum → Bool} {ws rs : List ResolvedPath}
    {e : Env} :
    f ∈ (Resolver.addCandidates (m := Id) covers ws rs e).run.accepted ↔
      f ∈ e.accepted ∨ f ∈ rs ∧ ∀ w ∈ ws, covers f.datum w.datum = false := by
  induction rs generalizing e with
  | nil => simp [Resolver.addCandidates]
  | cons r rs ih =>
    rw [addCandidates_cons]
    by_cases hr : ∃ w ∈ ws, covers r.datum w.datum = true
    · rw [if_pos (isShadowed_iff.2 hr), ih]
      -- A covered candidate is rejected, or is a winner itself; either way nothing is accepted.
      obtain ⟨w, hw, hcov⟩ := hr
      have hacc : (if r ∈ ws then e else e.reject r).accepted = e.accepted := by split <;> rfl
      rw [hacc, List.mem_cons]
      constructor
      · rintro (h | ⟨h, hno⟩)
        · exact .inl h
        · exact .inr ⟨.inr h, hno⟩
      · rintro (h | ⟨rfl | h, hno⟩)
        · exact .inl h
        · exact absurd (hno w hw) (by simp [hcov])
        · exact .inr ⟨h, hno⟩
    · rw [if_neg (fun h ↦ hr (isShadowed_iff.1 h)), ih, Env.mem_accepted_accept, List.mem_cons]
      have hno : ∀ w ∈ ws, covers r.datum w.datum = false := fun w hw ↦
        Bool.eq_false_iff.2 fun h ↦ hr ⟨w, hw, h⟩
      constructor
      · rintro ((rfl | h) | ⟨h, hno⟩)
        · exact .inr ⟨.inl rfl, hno⟩
        · exact .inl h
        · exact .inr ⟨.inr h, hno⟩
      · rintro (h | ⟨rfl | h, hno⟩)
        · exact .inl (.inr h)
        · exact .inl (.inl rfl)
        · exact .inr ⟨h, hno⟩

/-- Shadowing keeps what is preferred, and of the candidates what the preferred do not cover. -/
theorem mem_accepted_shadow {covers : Datum → Datum → Bool} {preferred candidates : Env} :
    f ∈ (Resolver.shadow (m := Id) covers preferred candidates).run.accepted ↔
      f ∈ preferred.accepted ∨
        f ∈ candidates.accepted ∧ ∀ w ∈ preferred.accepted, covers f.datum w.datum = false := by
  rw [Resolver.shadow, mem_accepted_addCandidates, Env.accepted_foldl_reject]
  simp

/-- Rejected are the candidates that a winner covers, unless they are winners themselves. -/
theorem mem_rejected_addCandidates {covers : Datum → Datum → Bool} {ws rs : List ResolvedPath}
    {e : Env} :
    f ∈ (Resolver.addCandidates (m := Id) covers ws rs e).run.rejected ↔
      f ∈ e.rejected ∨ f ∈ rs ∧ f ∉ ws ∧ ∃ w ∈ ws, covers f.datum w.datum = true := by
  induction rs generalizing e with
  | nil => simp [Resolver.addCandidates]
  | cons r rs ih =>
    rw [addCandidates_cons, List.mem_cons]
    by_cases hr : ∃ w ∈ ws, covers r.datum w.datum = true
    · rw [if_pos (isShadowed_iff.2 hr), ih]
      by_cases hmem : r ∈ ws
      · rw [if_pos hmem]
        constructor
        · rintro (h | ⟨h, hno⟩)
          · exact .inl h
          · exact .inr ⟨.inr h, hno⟩
        · rintro (h | ⟨rfl | h, hno⟩)
          · exact .inl h
          · exact absurd hmem hno.1
          · exact .inr ⟨h, hno⟩
      · rw [if_neg hmem, Env.mem_rejected_reject]
        constructor
        · rintro ((rfl | h) | ⟨h, hno⟩)
          · exact .inr ⟨.inl rfl, hmem, hr⟩
          · exact .inl h
          · exact .inr ⟨.inr h, hno⟩
        · rintro (h | ⟨rfl | h, hno⟩)
          · exact .inl (.inr h)
          · exact .inl (.inl rfl)
          · exact .inr ⟨h, hno⟩
    · rw [if_neg (fun h ↦ hr (isShadowed_iff.1 h)), ih, Env.rejected_accept]
      constructor
      · rintro (h | ⟨h, hno⟩)
        · exact .inl h
        · exact .inr ⟨.inr h, hno⟩
      · rintro (h | ⟨rfl | h, hno⟩)
        · exact .inl h
        · exact absurd hno.2 hr
        · exact .inr ⟨h, hno⟩

/-- Shadowing rejects what was rejected before, and of the candidates what the preferred cover. -/
theorem mem_rejected_shadow {covers : Datum → Datum → Bool} {preferred candidates : Env} :
    f ∈ (Resolver.shadow (m := Id) covers preferred candidates).run.rejected ↔
      f ∈ preferred.rejected ∨ f ∈ candidates.rejected ∨
        f ∈ candidates.accepted ∧ f ∉ preferred.accepted ∧
          ∃ w ∈ preferred.accepted, covers f.datum w.datum = true := by
  rw [Resolver.shadow, mem_rejected_addCandidates, Env.mem_rejected_foldl_reject]
  simp [or_left_comm, or_assoc]

/-! ## Slots -/

theorem mem_slots_datum {labels : List Label} : Slot.datum ∈ Resolver.slots labels p ↔
    p.accepting = true := by
  simp [Resolver.slots]

theorem mem_slots_edge {labels : List Label} {l : Label} :
    Slot.edge l ∈ Resolver.slots labels p ↔ l ∈ labels ∧ (p.step? l).isSome = true := by
  simp [Resolver.slots]

theorem ofSlot_datum : v.ofSlot descend path p .datum = match v.datum? path.target with
    | none => .empty
    | some d => if v.accepts d = true then .single ⟨path, d⟩ else .empty := by
  change Id.run (match v.datum? path.target with | none => _ | some d => _) = _
  cases v.datum? path.target with
  | none => rfl
  | some d =>
    change Id.run (if v.accepts d = true then _ else _) = _
    dsimp only
    split <;> rfl

theorem ofSlot_edge_of_none {l : Label} (hp : p.step? l = none) :
    v.ofSlot descend path p (.edge l) = .empty := by
  rw [ofSlot, Resolver.ofSlot, Resolver.ofEdges, hp]
  rfl

theorem ofSlot_edge_of_some {l : Label} {next : Pattern} (hp : p.step? l = some next) :
    v.ofSlot descend path p (.edge l) =
      .unions (((v.targets path.target l).filterMap (path.step? l)).map
        fun q ↦ descend q next) := by
  rw [ofSlot, Resolver.ofSlot, Resolver.ofEdges, hp]
  rfl

/-- The path itself is found if the datum at its end is accepted. -/
theorem mem_accepted_ofSlot_datum : f ∈ (v.ofSlot descend path p .datum).accepted ↔
    ∃ d, v.datum? path.target = some d ∧ v.accepts d = true ∧ f = ⟨path, d⟩ := by
  rw [ofSlot_datum]
  cases hd : v.datum? path.target with
  | none => simp
  | some d => cases hacc : v.accepts d <;> simp [hacc]

/-- Through a label is found what each of the extended paths finds. -/
theorem mem_accepted_ofSlot_edge {l : Label} :
    f ∈ (v.ofSlot descend path p (.edge l)).accepted ↔
      ∃ next, p.step? l = some next ∧ ∃ t ∈ v.targets path.target l, ∃ q,
        path.step? l t = some q ∧ f ∈ (descend q next).accepted := by
  cases hp : p.step? l with
  | none => simp [ofSlot_edge_of_none hp]
  | some next =>
    rw [ofSlot_edge_of_some hp, Env.mem_accepted_unions]
    simp only [List.mem_map, List.mem_filterMap, Option.some.injEq]
    constructor
    · rintro ⟨e, ⟨q, ⟨t, ht, hq⟩, rfl⟩, hf⟩
      exact ⟨next, rfl, t, ht, q, hq, hf⟩
    · rintro ⟨_, rfl, t, ht, q, hq, hf⟩
      exact ⟨_, ⟨q, ⟨t, ht, hq⟩, rfl⟩, hf⟩

theorem not_mem_rejected_ofSlot_datum : f ∉ (v.ofSlot descend path p .datum).rejected := by
  rw [ofSlot_datum]
  cases hd : v.datum? path.target with
  | none => simp
  | some d => cases hacc : v.accepts d <;> simp [hacc]

/-- Through a label is rejected what one of the extended paths rejects. -/
theorem mem_rejected_ofSlot_edge {l : Label} :
    f ∈ (v.ofSlot descend path p (.edge l)).rejected ↔
      ∃ next, p.step? l = some next ∧ ∃ t ∈ v.targets path.target l, ∃ q,
        path.step? l t = some q ∧ f ∈ (descend q next).rejected := by
  cases hp : p.step? l with
  | none => simp [ofSlot_edge_of_none hp]
  | some next =>
    rw [ofSlot_edge_of_some hp, Env.mem_rejected_unions]
    simp only [List.mem_map, List.mem_filterMap, Option.some.injEq]
    constructor
    · rintro ⟨e, ⟨q, ⟨t, ht, hq⟩, rfl⟩, hf⟩
      exact ⟨next, rfl, t, ht, q, hq, hf⟩
    · rintro ⟨_, rfl, t, ht, q, hq, hf⟩
      exact ⟨_, ⟨q, ⟨t, ht, hq⟩, rfl⟩, hf⟩

/-! ## Layers -/

theorem layered_succ {n : Nat} {slots : List Slot} :
    v.layered descend path p (n + 1) slots =
      .unions ((v.preference.maximal slots).map fun a ↦
        if (!(v.layered descend path p n (v.preference.below slots a)).isEmpty &&
          v.coversAll) = true then v.layered descend path p n (v.preference.below slots a)
        else (Resolver.shadow (m := Id) v.covers
          (v.layered descend path p n (v.preference.below slots a))
          (v.ofSlot descend path p a)).run) := by
  have hstep : v.layered descend path p (n + 1) slots =
      .unions ((v.preference.maximal slots).map fun a ↦ Id.run <|
        if (!(v.layered descend path p n (v.preference.below slots a)).isEmpty &&
          v.coversAll) = true then pure (v.layered descend path p n (v.preference.below slots a))
        else Resolver.shadow (m := Id) v.covers
          (v.layered descend path p n (v.preference.below slots a)) (v.ofSlot descend path p a)) :=
    rfl
  rw [hstep]
  refine congrArg Env.unions (List.map_congr_left fun a _ ↦ ?_)
  split <;> rfl

/-- What a list of slots finds: each maximal slot contributes what is found below it, and of its
own finds those that are not covered by what is found below it. -/
theorem mem_accepted_layered_succ {n : Nat} {slots : List Slot}
    (hall : v.coversAll = true → ∀ d₁ d₂, v.covers d₁ d₂ = true) :
    f ∈ (v.layered descend path p (n + 1) slots).accepted ↔
      ∃ a ∈ v.preference.maximal slots,
        f ∈ (v.layered descend path p n (v.preference.below slots a)).accepted ∨
          f ∈ (v.ofSlot descend path p a).accepted ∧
            ∀ w ∈ (v.layered descend path p n (v.preference.below slots a)).accepted,
              v.covers f.datum w.datum = false := by
  rw [layered_succ, Env.mem_accepted_unions]
  simp only [List.mem_map, exists_exists_and_eq_and]
  refine exists_congr fun a ↦ and_congr_right fun _ ↦ ?_
  generalize v.layered descend path p n (v.preference.below slots a) = below
  split
  · rename_i hcut
    -- The short cut: everything is covered as soon as one path is preferred.
    rw [Bool.and_eq_true, Bool.not_eq_true', Bool.eq_false_iff, ne_eq, Env.isEmpty_iff] at hcut
    obtain ⟨hsome, hcov⟩ := hcut
    push Not at hsome
    obtain ⟨w, hw⟩ := hsome
    constructor
    · exact .inl
    · rintro (h | ⟨-, hno⟩)
      · exact h
      · exact absurd (hno w hw) (by simp [hall hcov])
  · exact mem_accepted_shadow

/-- What a list of slots rejects, unless everything is declared to be covered: for each maximal slot
what is rejected below it or through it, and of its own finds those that are covered by what is
found below it. -/
theorem mem_rejected_layered_succ {n : Nat} {slots : List Slot} (hnot : v.coversAll = false) :
    f ∈ (v.layered descend path p (n + 1) slots).rejected ↔
      ∃ a ∈ v.preference.maximal slots,
        f ∈ (v.layered descend path p n (v.preference.below slots a)).rejected ∨
          f ∈ (v.ofSlot descend path p a).rejected ∨
            f ∈ (v.ofSlot descend path p a).accepted ∧
              f ∉ (v.layered descend path p n (v.preference.below slots a)).accepted ∧
                ∃ w ∈ (v.layered descend path p n (v.preference.below slots a)).accepted,
                  v.covers f.datum w.datum = true := by
  rw [layered_succ, Env.mem_rejected_unions]
  simp only [List.mem_map, exists_exists_and_eq_and]
  refine exists_congr fun a ↦ and_congr_right fun _ ↦ ?_
  rw [if_neg (by simp [hnot])]
  exact mem_rejected_shadow

end View

end ScopeGraphs
