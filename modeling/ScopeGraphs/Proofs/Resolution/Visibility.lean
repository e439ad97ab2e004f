import ScopeGraphs.Proofs.Resolution.Preferred
import ScopeGraphs.Proofs.Resolution.Walks
import ScopeGraphs.Proofs.Resolution.Yielding

/-!
# Visible paths

Resolution shadows layer by layer: what is found below a slot hides finds of that slot, and
environments that are already shadowed are shadowed again. This module proves that the outcome can
be said in one sentence. A find is *hidden* by another one that is preferred where the two part and
whose datum covers its own, and an environment accepts exactly the finds that no other find hides
(`View.mem_accepted_env`).

If the preference is a strict order and covering is transitive, then hiding is a strict order. That
is why it does not matter that resolution only looks at finds that are still accepted: below every
find that hides another there is a minimal one, which hides it as well and is never hidden itself.
-/

namespace ScopeGraphs

namespace View

variable {v : View}

/-- Whether the first find hides the second: it is preferred where their paths part, and its datum
covers the other one. -/
def Hides (v : View) (f' f : ResolvedPath) : Prop :=
  v.preference.Prefers f'.path.steps f.path.steps ∧ v.covers f.datum f'.datum = true

/-- The rules of a query make sense together: the preference is a strict order, covering is
transitive, and if everything is declared to be covered then everything is. -/
structure Lawful (v : View) : Prop where
  strict : v.preference.IsStrict
  covers_trans : ∀ {a b c}, v.covers a b = true → v.covers b c = true → v.covers a c = true
  covers_all : v.coversAll = true → ∀ a b, v.covers a b = true

/-- Those of several finds that none of them hides. -/
def Visible (v : View) (S : Set ResolvedPath) : Set ResolvedPath :=
  {f | f ∈ S ∧ ∀ f' ∈ S, ¬ v.Hides f' f}

/-! ## Hiding is a strict order -/

theorem Lawful.isStrictOrder_hides (h : v.Lawful) : IsStrictOrder ResolvedPath v.Hides where
  irrefl _ hf := h.strict.not_prefers_self _ hf.1
  trans _ _ _ h₁ h₂ := ⟨h.strict.prefers_trans h₁.1 h₂.1, h.covers_trans h₂.2 h₁.2⟩

/-- What hides a find is visible or hidden by something visible. -/
theorem Lawful.exists_visible (h : v.Lawful) {S : Set ResolvedPath} (hS : S.Finite)
    {f : ResolvedPath} (hf : f ∈ S) : ∃ f' ∈ v.Visible S, f' = f ∨ v.Hides f' f := by
  have := h.isStrictOrder_hides
  obtain ⟨f', hf', hmin, hle⟩ := exists_minimal_of_finite (R := v.Hides) hS hf
  exact ⟨f', ⟨hf', hmin⟩, hle⟩

/-! ## Finds through different slots -/

variable {path : Path} {p : Pattern} {f f' : ResolvedPath} {a b : Slot}

/-- A find leaves its path by the slot it was found through. -/
theorem FindsBy.steps_eq (h : v.FindsBy path p a f) :
    ∃ rest, f.path.steps = path.steps ++ rest ∧ nextSlot rest 0 = a := by
  cases h with
  | datum => exact ⟨[], by simp, rfl⟩
  | edge _ _ hq hf =>
    obtain ⟨rest, hrest⟩ := hf.steps_eq
    rw [Path.steps_of_step? hq, List.append_assoc] at hrest
    exact ⟨_, hrest, rfl⟩

/-- Finds through different slots are compared by these slots. -/
theorem FindsBy.prefers_iff_of_ne (hf' : v.FindsBy path p b f') (hf : v.FindsBy path p a f)
    (hne : b ≠ a) :
    v.preference.Prefers f'.path.steps f.path.steps ↔ v.preference.lt b a = true := by
  obtain ⟨bs, hbs, rfl⟩ := hf'.steps_eq
  obtain ⟨as, has, rfl⟩ := hf.steps_eq
  rw [hbs, has, Preference.prefers_append, Preference.prefers_of_ne]
  intro heq
  refine hne ?_
  cases as <;> cases bs <;> simp_all

/-- Of two finds through one label, none is preferred unless they take the same edge. -/
theorem not_prefers_of_ne_target (h : v.preference.IsStrict) {q q' : Path} {l : Label}
    {t t' : Scope} {next : Pattern} (hq : path.step? l t = some q) (hq' : path.step? l t' = some q')
    (hf : v.Finds q next f) (hf' : v.Finds q' next f') (hne : t' ≠ t) :
    ¬ v.preference.Prefers f'.path.steps f.path.steps := by
  obtain ⟨rest, hrest⟩ := hf.steps_eq
  obtain ⟨rest', hrest'⟩ := hf'.steps_eq
  rw [hrest, hrest', Path.steps_of_step? hq, Path.steps_of_step? hq', List.append_assoc,
    List.append_assoc, Preference.prefers_append, Preference.prefers_of_ne]
  · simp [h.irrefl]
  · simpa using hne

/-! ## Slot by slot -/

section

variable {descend : Path → Pattern → Env}

/-- Through one slot is accepted what is visible among the finds through that slot. -/
theorem mem_accepted_ofSlot (h : v.Lawful)
    (ih : ∀ {l next t q}, t ∈ v.targets path.target l → path.step? l t = some q →
      ∀ f, f ∈ (descend q next).accepted ↔ f ∈ v.Visible {f | v.Finds q next f}) :
    f ∈ (v.ofSlot descend path p a).accepted ↔ f ∈ v.Visible {f | v.FindsBy path p a f} := by
  cases a with
  | datum =>
    rw [mem_accepted_ofSlot_datum]
    constructor
    · rintro ⟨d, hd, hacc, rfl⟩
      refine ⟨.datum hd hacc, ?_⟩
      rintro f' hf' ⟨hpref, -⟩
      cases hf'
      exact h.strict.not_prefers_self _ hpref
    · rintro ⟨hf, -⟩
      cases hf with
      | datum hd hacc => exact ⟨_, hd, hacc, rfl⟩
  | edge l =>
    rw [mem_accepted_ofSlot_edge]
    constructor
    · rintro ⟨next, hp, t, ht, q, hq, hf⟩
      obtain ⟨hf, hno⟩ := (ih ht hq f).1 hf
      refine ⟨.edge hp ht hq hf, ?_⟩
      rintro f' hf' hhides
      cases hf' with
      | @edge q' next' _ t' _ hp' ht' hq' hf' =>
        obtain rfl : next = next' := Option.some.inj (hp.symm.trans hp')
        by_cases htt : t' = t
        · subst htt
          obtain rfl : q = q' := Option.some.inj (hq.symm.trans hq')
          exact hno f' hf' hhides
        · exact not_prefers_of_ne_target h.strict hq hq' hf hf' htt hhides.1
    · rintro ⟨hf, hno⟩
      cases hf with
      | @edge q next _ t _ hp ht hq hf =>
        refine ⟨next, hp, t, ht, q, hq, (ih ht hq f).2 ⟨hf, fun f' hf' ↦ ?_⟩⟩
        exact hno f' (.edge hp ht hq hf')

/-! ## Layer by layer -/

/-- What is found through one of several slots. -/
def FindsThrough (v : View) (path : Path) (p : Pattern) (slots : List Slot) : Set ResolvedPath :=
  {f | ∃ a ∈ slots, v.FindsBy path p a f}

/-- Above every slot of a list there is a maximal one. -/
theorem exists_maximal (h : v.preference.IsStrict) {slots : List Slot} (hb : b ∈ slots) :
    ∃ a ∈ v.preference.maximal slots, a = b ∨ v.preference.lt b a = true := by
  have : IsStrictOrder Slot fun x y ↦ v.preference.lt y x = true :=
    { irrefl := fun x hx ↦ Bool.false_ne_true ((h.irrefl x).symm.trans hx)
      trans := fun _ _ _ h₁ h₂ ↦ h.trans h₂ h₁ }
  obtain ⟨a, ha, hmax, hle⟩ := exists_minimal_of_finite
    (R := fun x y ↦ v.preference.lt y x = true) (List.finite_toSet slots) hb
  refine ⟨a, List.mem_filter.2 ⟨ha, ?_⟩, hle⟩
  simpa using hmax

theorem length_below_lt (h : v.preference.IsStrict) {slots : List Slot} (ha : a ∈ slots) :
    (v.preference.below slots a).length < slots.length := by
  rw [Preference.below, List.length_filter_lt_length_iff_exists]
  exact ⟨a, ha, by simp [h.irrefl]⟩

theorem mem_below_iff {slots : List Slot} :
    b ∈ v.preference.below slots a ↔ b ∈ slots ∧ v.preference.lt b a = true := List.mem_filter

/-- A find that is visible below a slot is visible as a whole: whatever hides it is found through a
slot that is below as well. -/
theorem Lawful.visible_of_below (h : v.Lawful) {slots : List Slot}
    (hf : f ∈ v.Visible (v.FindsThrough path p (v.preference.below slots a))) :
    f ∈ v.Visible (v.FindsThrough path p slots) := by
  obtain ⟨⟨b, hb, hfb⟩, hno⟩ := hf
  obtain ⟨hb, hba⟩ := mem_below_iff.1 hb
  refine ⟨⟨b, hb, hfb⟩, ?_⟩
  rintro f' ⟨b', hb', hfb'⟩ hhides
  refine hno f' ⟨b', mem_below_iff.2 ⟨hb', ?_⟩, hfb'⟩ hhides
  by_cases hbb : b' = b
  · rw [hbb]
    exact hba
  · exact h.strict.trans ((hfb'.prefers_iff_of_ne hfb hbb).1 hhides.1) hba

/-- A find of a slot is visible as a whole if it is visible among the finds of that slot and nothing
visible below the slot covers it. -/
theorem Lawful.visible_of_slot (h : v.Lawful) {slots : List Slot} (ha : a ∈ slots)
    (hfin : (v.FindsThrough path p (v.preference.below slots a)).Finite)
    (hf : f ∈ v.Visible {f | v.FindsBy path p a f})
    (hno : ∀ w ∈ v.Visible (v.FindsThrough path p (v.preference.below slots a)),
      v.covers f.datum w.datum = false) :
    f ∈ v.Visible (v.FindsThrough path p slots) := by
  obtain ⟨hfa, hvis⟩ := hf
  refine ⟨⟨a, ha, hfa⟩, ?_⟩
  rintro f' ⟨b, hb, hfb⟩ hhides
  by_cases hba : b = a
  · subst hba
    exact hvis f' hfb hhides
  · have hlt := (hfb.prefers_iff_of_ne hfa hba).1 hhides.1
    obtain ⟨w, hw, hwf'⟩ := h.exists_visible hfin (f := f') ⟨b, mem_below_iff.2 ⟨hb, hlt⟩, hfb⟩
    have hcov : v.covers f.datum w.datum = true := by
      rcases hwf' with rfl | hwf'
      · exact hhides.2
      · exact h.covers_trans hhides.2 hwf'.2
    rw [hno w hw] at hcov
    exact Bool.false_ne_true hcov

/-- Through several slots is accepted what is visible among the finds through all of them. -/
theorem mem_accepted_layered (h : v.Lawful) {n : Nat} {slots : List Slot} (hn : slots.length ≤ n)
    (hfin : (v.FindsThrough path p slots).Finite)
    (hslot : ∀ a f, f ∈ (v.ofSlot descend path p a).accepted ↔
      f ∈ v.Visible {f | v.FindsBy path p a f}) :
    f ∈ (v.layered descend path p n slots).accepted ↔
      f ∈ v.Visible (v.FindsThrough path p slots) := by
  induction n generalizing slots f with
  | zero =>
    obtain rfl : slots = [] := List.length_eq_zero_iff.1 (by omega)
    constructor
    · intro hf
      exact absurd hf Env.not_mem_accepted_empty
    · rintro ⟨⟨a, ha, -⟩, -⟩
      exact absurd ha List.not_mem_nil
  | succ n ih =>
    have hsub : ∀ a, v.FindsThrough path p (v.preference.below slots a) ⊆
        v.FindsThrough path p slots := by
      rintro a f ⟨b, hb, hf⟩
      exact ⟨b, (mem_below_iff.1 hb).1, hf⟩
    have hbelow : ∀ a ∈ slots, ∀ f, f ∈ (v.layered descend path p n
        (v.preference.below slots a)).accepted ↔
          f ∈ v.Visible (v.FindsThrough path p (v.preference.below slots a)) := by
      intro a ha f
      have hlen := length_below_lt h.strict ha
      exact ih (by omega) (hfin.subset (hsub a))
    rw [mem_accepted_layered_succ h.covers_all]
    constructor
    · rintro ⟨a, ha, hf⟩
      have ha := List.mem_of_mem_filter ha
      rcases hf with hf | ⟨hf, hno⟩
      · exact h.visible_of_below ((hbelow a ha f).1 hf)
      · refine h.visible_of_slot ha (hfin.subset (hsub a)) ((hslot a f).1 hf) fun w hw ↦ ?_
        exact hno w ((hbelow a ha w).2 hw)
    · rintro ⟨⟨b, hb, hfb⟩, hno⟩
      -- The maximal slots answer for all others: the slot of the find is one, or there is one above.
      obtain ⟨a, ha, hba⟩ := exists_maximal h.strict hb
      have ha' := List.mem_of_mem_filter ha
      refine ⟨a, ha, ?_⟩
      rcases hba with rfl | hba
      · refine .inr ⟨(hslot a f).2 ⟨hfb, fun f' hf' ↦ hno f' ⟨a, hb, hf'⟩⟩, fun w hw ↦ ?_⟩
        obtain ⟨⟨b, hb, hwb⟩, -⟩ := (hbelow a ha' w).1 hw
        obtain ⟨hb, hlt⟩ := mem_below_iff.1 hb
        have hne : b ≠ a := by
          rintro rfl
          exact Bool.false_ne_true ((h.strict.irrefl b).symm.trans hlt)
        refine Bool.eq_false_iff.2 fun hcov ↦ hno w ⟨b, hb, hwb⟩ ⟨?_, hcov⟩
        exact (hwb.prefers_iff_of_ne hfb hne).2 hlt
      · refine .inl ((hbelow a ha' f).2 ⟨⟨b, mem_below_iff.2 ⟨hb, hba⟩, hfb⟩, fun f' hf' ↦ ?_⟩)
        exact hno f' (hsub a hf')

end

/-! ## The environment of a path -/

/-- **An environment accepts exactly the visible finds.** -/
theorem mem_accepted_env (h : v.Lawful) {U : List Scope} (hU : v.Within U) {n : Nat}
    (hn : room U path < n) :
    f ∈ (v.env n path p).accepted ↔ f ∈ v.Visible {f | v.Finds path p f} := by
  induction n generalizing path p f with
  | zero => omega
  | succ n ih =>
    have hfinds : {f | v.Finds path p f} = v.FindsThrough path p (Resolver.slots v.labels p) :=
      Set.ext fun f ↦ finds_iff_findsBy
    rw [env_succ, hfinds]
    refine mem_accepted_layered h le_rfl (hfinds ▸ finite_finds hU path p) fun a f ↦ ?_
    refine mem_accepted_ofSlot h fun ht hq f ↦ ih ?_
    have hroom := room_lt_of_step? (hU _ _ _ ht) hq
    omega

end View

end ScopeGraphs
