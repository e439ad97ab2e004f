import ScopeGraphs.Proofs.Resolution.Recursion

/-!
# The short cut of a resolution

Where every datum is covered by every other one, whatever is found below a slot hides everything
that is found through it. A resolver that is told so (`Resolver.coversAll`) does not resolve such a
slot at all. This module compares it with the resolver that only has a rule which happens to be
always true.

The comparison holds for any resolver, whatever its graph answers and whatever is resolved
elsewhere, and for any relation as a preference. Resolutions are compared by `Abridges`: if the one
without the short cut succeeds, so does the other, with the same accepted paths and no further
rejected ones. The emptiness of an environment depends on what it accepts only, so both take the
same way at every slot but for what the short cut leaves out.
-/

namespace ScopeGraphs

/-! ## Environments that reject less -/

namespace Env

/-- The first environment accepts what the second does, and rejects nothing that it does not. -/
structure Abridges (e₂ e₁ : Env) : Prop where
  accepted : e₂.accepted = e₁.accepted
  rejected : ∀ f ∈ e₂.rejected, f ∈ e₁.rejected

namespace Abridges

variable {e₁ e₂ own₁ own₂ : Env}

protected theorem refl (e : Env) : e.Abridges e := ⟨rfl, fun _ ↦ id⟩

theorem isEmpty_eq (h : e₂.Abridges e₁) : e₂.isEmpty = e₁.isEmpty :=
  congrArg Std.ExtTreeSet.isEmpty h.accepted

theorem unions {es₁ es₂ : List Env} (h : List.Forall₂ Abridges es₂ es₁) :
    (Env.unions es₂).Abridges (Env.unions es₁) := by
  constructor
  · refine Std.ExtTreeSet.ext_mem fun f ↦ ?_
    rw [mem_accepted_unions, mem_accepted_unions]
    induction h with
    | nil => rfl
    | cons head _ ih => simp only [List.mem_cons, exists_eq_or_imp, head.accepted, ih]
  · intro f
    rw [mem_rejected_unions, mem_rejected_unions]
    induction h with
    | nil => exact id
    | cons head _ ih =>
      simp only [List.mem_cons, exists_eq_or_imp]
      exact Or.imp (head.rejected f) ih

/-- Where everything is covered, a preferred environment that accepts something abridges all that
is left of the candidates after it. -/
theorem shadow_of_not_isEmpty (h : e₂.Abridges e₁) (hsome : e₁.isEmpty = false) (own : Env) :
    e₂.Abridges (Resolver.shadow (m := Id) (fun _ _ ↦ true) e₁ own).run := by
  obtain ⟨w, hw⟩ : ∃ w, w ∈ e₁.accepted := by
    rw [Bool.eq_false_iff, ne_eq, isEmpty_iff] at hsome
    simpa using hsome
  constructor
  · rw [h.accepted]
    refine Std.ExtTreeSet.ext_mem fun f ↦ ?_
    rw [View.mem_accepted_shadow]
    exact ⟨.inl, fun hf ↦ hf.elim id fun hf ↦ absurd (hf.2 w hw) (by simp)⟩
  · intro f hf
    exact View.mem_rejected_shadow.2 (.inl (h.rejected f hf))

theorem shadow (h : e₂.Abridges e₁) (hown : own₂.Abridges own₁) :
    (Resolver.shadow (m := Id) (fun _ _ ↦ true) e₂ own₂).run.Abridges
      (Resolver.shadow (m := Id) (fun _ _ ↦ true) e₁ own₁).run := by
  constructor
  · refine Std.ExtTreeSet.ext_mem fun f ↦ ?_
    rw [View.mem_accepted_shadow, View.mem_accepted_shadow, h.accepted, hown.accepted]
  · intro f
    rw [View.mem_rejected_shadow, View.mem_rejected_shadow, h.accepted, hown.accepted]
    exact Or.imp (h.rejected f) (Or.imp_left (hown.rejected f))

end Abridges

end Env

/-! ## Computations that succeed where another does -/

/-- If the second computation succeeds, so does the first, and the results are related. -/
def Recovers {α β : Type} (R : α → β → Prop) (x : Except Fault α) (y : Except Fault β) : Prop :=
  ∀ b, y = .ok b → ∃ a, x = .ok a ∧ R a b

namespace Recovers

variable {α β γ δ : Type} {R : α → β → Prop} {S : γ → δ → Prop}

protected theorem refl {R : α → α → Prop} (hR : ∀ a, R a a) (x : Except Fault α) :
    Recovers R x x :=
  fun a h ↦ ⟨a, h, hR a⟩

protected theorem ok {a : α} {b : β} (h : R a b) : Recovers R (.ok a) (.ok b) := by
  rintro _ ⟨⟩
  exact ⟨a, rfl, h⟩

protected theorem bind {x : Except Fault α} {y : Except Fault β} {k : α → Except Fault γ}
    {k' : β → Except Fault δ} (h : Recovers R x y)
    (hk : ∀ a b, R a b → Recovers S (k a) (k' b)) : Recovers S (x >>= k) (y >>= k') := by
  intro d hd
  cases hy : y with
  | error fault =>
    rw [hy] at hd
    cases hd
  | ok b =>
    obtain ⟨a, hx, hab⟩ := h b hy
    rw [hy] at hd
    rw [hx]
    exact hk a b hab d hd

/-- Computations that are run one after the other. -/
theorem mapM_id {ι : Type} {xs : List ι} {x : ι → Except Fault α} {y : ι → Except Fault β}
    (h : ∀ i ∈ xs, Recovers R (x i) (y i)) :
    Recovers (List.Forall₂ R) ((xs.map x).mapM id) ((xs.map y).mapM id) := by
  induction xs with
  | nil => exact .ok .nil
  | cons i xs ih =>
    rw [List.map_cons, List.map_cons, List.mapM_cons, List.mapM_cons]
    refine .bind (h i List.mem_cons_self) fun a b hab ↦ ?_
    refine .bind (ih fun j hj ↦ h j (List.mem_cons_of_mem _ hj)) fun as bs hall ↦ ?_
    exact .ok (.cons hab hall)

/-- Resolutions that are run one after the other, and what they find together. -/
theorem unions {ι : Type} {xs : List ι} {x y : ι → Except Fault Env}
    (h : ∀ i ∈ xs, Recovers Env.Abridges (x i) (y i)) :
    Recovers Env.Abridges ((xs.map x).mapM id >>= fun parts ↦ pure (.unions parts))
      ((xs.map y).mapM id >>= fun parts ↦ pure (.unions parts)) :=
  (mapM_id h).bind fun _ _ hall ↦ .ok (.unions hall)

end Recovers

/-! ## Resolvers with and without the short cut -/

namespace Resolver

open Filter

variable (r : Resolver (Except Fault))

/-- The resolver under the rule that every datum is covered by every other one, which it is told or
has to find out. -/
def coveringAll (told : Bool) : Resolver (Except Fault) :=
  { r with
    covers := fun _ _ ↦ pure true
    coversAll := told
    together := fun _ es ↦ es.mapM id }

/-- Resolving a path comes to an end, and it succeeds with an environment however much depth it is
given beyond some bound. -/
structure Returns (path : Path) (p : Pattern) (e : Env) : Prop where
  acc : Acc (fun c' c ↦ r.Calls c c') (.env path p)
  eventually : ∀ᶠ depth in atTop, r.env depth path p = .ok e

variable {r} {descend descend' : Path → Pattern → Except Fault Env} {path : Path} {p : Pattern}

theorem shadow_coveringAll (told : Bool) (preferred candidates : Env) :
    shadow (r.coveringAll told).covers preferred candidates =
      .ok (shadow (m := Id) (fun _ _ ↦ true) preferred candidates).run :=
  yields_shadow (Y := .success) (fun _ _ ↦ rfl) preferred candidates

theorem recovers_ofSlot
    (h : ∀ q next, Recovers Env.Abridges (descend' q next) (descend q next)) (a : Slot) :
    Recovers Env.Abridges ((r.coveringAll true).ofSlot descend' path p a)
      ((r.coveringAll false).ofSlot descend path p a) := by
  cases a with
  | datum => exact .refl .refl _
  | edge l =>
    rw [ofSlot, ofSlot, ofEdges, ofEdges]
    cases p.step? l with
    | none => exact .refl .refl _
    | some next =>
      refine .bind (.refl (R := Eq) (fun _ ↦ rfl) _) ?_
      rintro targets _ rfl
      exact .unions fun q _ ↦ h q next

/-- The short cut at one slot: if something is found below it, the slot itself is left out. -/
theorem recovers_slot {below below' own own' : Except Fault Env}
    (hbelow : Recovers Env.Abridges below' below) (hown : Recovers Env.Abridges own' own) :
    Recovers Env.Abridges
      (do
        let preferred ← below'
        if !preferred.isEmpty && (r.coveringAll true).coversAll then pure preferred
        else
          let own ← own'
          shadow (r.coveringAll true).covers preferred own)
      (do
        let preferred ← below
        if !preferred.isEmpty && (r.coveringAll false).coversAll then pure preferred
        else
          let own ← own
          shadow (r.coveringAll false).covers preferred own) := by
  refine hbelow.bind fun e₂ e₁ habr ↦ ?_
  have htold : (r.coveringAll true).coversAll = true := rfl
  have hfind : (r.coveringAll false).coversAll = false := rfl
  simp only [htold, hfind, Bool.and_true, Bool.and_false, Bool.false_eq_true, if_false,
    shadow_coveringAll, habr.isEmpty_eq]
  cases hsome : e₁.isEmpty with
  | false =>
    -- The slot is left out on one side; on the other one it cannot add to what is accepted.
    intro e he
    cases hres : own with
    | error fault =>
      rw [hres] at he
      cases he
    | ok own =>
      rw [hres] at he
      obtain rfl := Except.ok.inj he
      exact ⟨e₂, rfl, habr.shadow_of_not_isEmpty hsome own⟩
  | true => exact hown.bind fun own₂ own₁ hown ↦ .ok (habr.shadow hown)

theorem recovers_layered
    (h : ∀ q next, Recovers Env.Abridges (descend' q next) (descend q next)) (n : Nat)
    (slots : List Slot) :
    Recovers Env.Abridges ((r.coveringAll true).layered descend' path p n slots)
      ((r.coveringAll false).layered descend path p n slots) := by
  induction n generalizing slots with
  | zero => exact .refl .refl _
  | succ n ih =>
    rw [layered, layered]
    exact .unions fun a _ ↦ recovers_slot (ih _) (recovers_ofSlot h a)

theorem recovers_env (depth : Nat) (path : Path) (p : Pattern) :
    Recovers Env.Abridges ((r.coveringAll true).env depth path p)
      ((r.coveringAll false).env depth path p) := by
  induction depth generalizing path p with
  | zero => exact .refl .refl _
  | succ depth ih =>
    rw [env, env]
    refine .bind (.refl (R := Eq) (fun _ ↦ rfl) _) ?_
    rintro found _ rfl
    cases found with
    | some found => exact .refl .refl _
    | none => exact recovers_layered ih _ _

/-- Whether a resolver is told does not matter to the calls it may make. -/
theorem calls_of_coveringAll {told told' : Bool} {c c' : Call}
    (h : (r.coveringAll told).Calls c c') : (r.coveringAll told').Calls c c' := by
  cases h with
  | here h => exact .here h
  | below h => exact .below h
  | extend h he => exact .extend h he

/-- **The short cut is sound.** If a resolution under a rule that is always true comes to an end
with an environment, then so does the one that is told about the rule, and it accepts the same paths
and rejects no further ones. -/
theorem returns_of_told (r : Resolver (Except Fault)) (path : Path) (p : Pattern) (e₁ : Env)
    (h : (r.coveringAll false).Returns path p e₁) :
    ∃ e₂, (r.coveringAll true).Returns path p e₂ ∧ e₂.accepted = e₁.accepted ∧
      ∀ f ∈ e₂.rejected, f ∈ e₁.rejected := by
  have hacc : Acc (fun c' c ↦ (r.coveringAll true).Calls c c') (.env path p) :=
    Subrelation.accessible calls_of_coveringAll h.acc
  obtain ⟨x, hx⟩ := exists_eventually_value (fun _ _ ↦ rfl) hacc
  obtain ⟨depth, hslow, hfast⟩ := (h.eventually.and hx).exists
  obtain ⟨e₂, he₂, habr⟩ := recovers_env depth path p e₁ hslow
  obtain rfl : x = .ok e₂ := hfast.symm.trans he₂
  exact ⟨e₂, ⟨hacc, hx⟩, habr.accepted, habr.rejected⟩

/-- In a fixed graph, resolving a path comes to an end with the environment of the path. -/
theorem returns_of_envOf {g : ScopeGraph} {labels : List Label} {q : QueryParams}
    {ctx : PredicateContext (Except Fault)} {e : Env} (h : g.envOf labels path q ctx = .ok e) :
    (g.resolver labels q ctx).Returns path q.pattern e := by
  refine ⟨ScopeGraph.acc_calls g labels q ctx _, eventually_atTop.2 ⟨g.scopes.size + 1, ?_⟩⟩
  intro depth hdepth
  have hneed := ScopeGraph.need_le (g := g) (.env path q.pattern)
  exact (ScopeGraph.value_eq_of_need_le (hneed.trans hdepth) hneed).trans h

/-- A scope with a declaration and a parent that has another one. -/
private def twoDeclarations : ScopeGraph :=
  .of [⟨⟨⟨"u"⟩, "inner"⟩, "E", ⟨⟨"u"⟩, "d1"⟩⟩, ⟨⟨⟨"u"⟩, "inner"⟩, "P", ⟨⟨"u"⟩, "outer"⟩⟩,
    ⟨⟨⟨"u"⟩, "outer"⟩, "E", ⟨⟨"u"⟩, "d2"⟩⟩] [(⟨⟨"u"⟩, "d1"⟩, .int 1), (⟨⟨"u"⟩, "d2"⟩, .int 2)]

/-- Declarations before parents, under a rule that is always true. -/
private def innerFirst : QueryParams :=
  .mk (.ofAutomaton (.of [(0, "P", 0), (0, "E", 1)] [1])) (.ofPairs [(.edge "E", .edge "P")]) .any
    (.test "covered" fun _ _ ↦ true)

/-- The inner declaration is accepted and the outer one is rejected; the short cut never finds it. -/
theorem returns_of_told_twoDeclarations :
    let r := twoDeclarations.resolver ["E", "P"] innerFirst ScopeGraph.noQueries
    let path : Path := .start ⟨⟨"u"⟩, "inner"⟩
    let e₁ : Env := .of [⟨⟨⟨⟨"u"⟩, "inner"⟩, [("E", ⟨⟨"u"⟩, "d1"⟩)]⟩, .int 1⟩]
      [⟨⟨⟨⟨"u"⟩, "inner"⟩, [("P", ⟨⟨"u"⟩, "outer"⟩), ("E", ⟨⟨"u"⟩, "d2"⟩)]⟩, .int 2⟩]
    (r.coveringAll false).Returns path innerFirst.pattern e₁ ∧
      ∃ e₂, (r.coveringAll true).Returns path innerFirst.pattern e₂ ∧
        e₂.accepted = e₁.accepted ∧ ∀ f ∈ e₂.rejected, f ∈ e₁.rejected := by
  intro r path e₁
  have hslow : (r.coveringAll false).Returns path innerFirst.pattern e₁ :=
    have h : twoDeclarations.envOf ["E", "P"] path innerFirst = .ok e₁ := by decide +kernel
    returns_of_envOf h
  exact ⟨hslow, returns_of_told r path innerFirst.pattern e₁ hslow⟩

end Resolver

end ScopeGraphs
