import ScopeGraphs.Proofs.Resolution.FixedGraph

/-!
# Accepted and rejected paths

An environment passes a verdict on what a query finds: it accepts a find or rejects it. This module
proves that unless everything is declared to be covered, the verdicts account for all finds and are
consistent (`ScopeGraph.resolve_accounts`). Covering may be any relation here. It need not be
transitive, so the verdict on a find is in general not determined by the visible finds alone.

## Why verdicts do not contradict each other

The slots of a path are resolved layer by layer, and the slots below a maximal one are resolved
again for every maximal slot above them. What is found through a slot is compared with the finds
through the slots below it and with nothing else, and these are the same in every list the slot is
met in (`Preference.below_below`). So every slot gets the same verdicts wherever it is resolved
(`View.mem_accepted_through`, `View.mem_rejected_through`), and no slot is left out because above
each one there is a maximal one.
-/

namespace ScopeGraphs

/-! ## Slots below slots -/

theorem Preference.below_below {o : Preference} (h : o.IsStrict) {slots : List Slot} {a b : Slot}
    (hba : o.lt b a = true) : o.below (o.below slots a) b = o.below slots b := by
  rw [below, below, below, List.filter_filter]
  refine List.filter_congr fun c _ ↦ ?_
  cases hcb : o.lt c b with
  | false => rfl
  | true => simp [h.trans hcb hba]

/-- The verdicts of an environment account for some finds: it accepts or rejects each of them and
nothing else, and nothing is both accepted and rejected. -/
structure Env.Accounts (e : Env) (S : Set ResolvedPath) : Prop where
  disjoint : ∀ f ∈ e.accepted, f ∉ e.rejected
  exhaustive : ∀ f, e.Judges f ↔ f ∈ S

namespace View

variable {v : View} {descend : Path → Pattern → Env} {path : Path} {p : Pattern}
  {f : ResolvedPath} {slots : List Slot}

/-- What holds of a list of slots because of a maximal slot, or because it holds below one, holds
because of some slot and those below that one. -/
theorem exists_slot_of_layers (h : v.preference.IsStrict) (holds : List Slot → Prop)
    (because : List Slot → Slot → Prop)
    (hlayer : ∀ slots, holds slots ↔ ∃ a ∈ v.preference.maximal slots,
      holds (v.preference.below slots a) ∨ because (v.preference.below slots a) a) :
    holds slots ↔ ∃ b ∈ slots, because (v.preference.below slots b) b := by
  induction hn : slots.length using Nat.strong_induction_on generalizing slots with
  | _ n ih =>
    have hbelow : ∀ a ∈ slots, holds (v.preference.below slots a) ↔
        ∃ b ∈ v.preference.below slots a, because (v.preference.below slots b) b := by
      intro a ha
      rw [ih _ (hn ▸ length_below_lt h ha) rfl]
      refine exists_congr fun b ↦ and_congr_right fun hb ↦ ?_
      rw [Preference.below_below h (mem_below_iff.1 hb).2]
    rw [hlayer]
    constructor
    · rintro ⟨a, ha, hbecause⟩
      have ha := List.mem_of_mem_filter ha
      rcases hbecause with hbecause | hbecause
      · obtain ⟨b, hb, hbecause⟩ := (hbelow a ha).1 hbecause
        exact ⟨b, (mem_below_iff.1 hb).1, hbecause⟩
      · exact ⟨a, ha, hbecause⟩
    · rintro ⟨b, hb, hbecause⟩
      -- The maximal slot above speaks for this one, wherever it is resolved besides.
      obtain ⟨a, ha, rfl | hba⟩ := exists_maximal h hb
      · exact ⟨a, ha, .inr hbecause⟩
      · refine ⟨a, ha, .inl ?_⟩
        exact (hbelow a (List.mem_of_mem_filter ha)).2 ⟨b, mem_below_iff.2 ⟨hb, hba⟩, hbecause⟩

/-! ## Verdicts are on finds -/

/-- A verdict through several slots is on a path that one of them has a verdict on by itself. -/
theorem judges_layered {n : Nat} (h : (v.layered descend path p n slots).Judges f) :
    ∃ a ∈ slots, (v.ofSlot descend path p a).Judges f := by
  induction n generalizing slots with
  | zero => exact absurd h Env.not_judges_empty
  | succ n ih =>
    rw [layered_succ, Env.judges_unions] at h
    obtain ⟨e, he, h⟩ := h
    obtain ⟨a, ha, rfl⟩ := List.mem_map.1 he
    have hbelow : (v.layered descend path p n (v.preference.below slots a)).Judges f →
        ∃ a ∈ slots, (v.ofSlot descend path p a).Judges f := by
      intro hjudges
      obtain ⟨b, hb, hjudges⟩ := ih hjudges
      exact ⟨b, (mem_below_iff.1 hb).1, hjudges⟩
    have hslot : (v.ofSlot descend path p a).Judges f →
        ∃ a ∈ slots, (v.ofSlot descend path p a).Judges f :=
      fun hjudges ↦ ⟨a, List.mem_of_mem_filter ha, hjudges⟩
    split at h
    · exact hbelow h
    · rw [Env.Judges, mem_accepted_shadow, mem_rejected_shadow] at h
      rcases h with (h | h) | h | h | h
      · exact hbelow (.inl h)
      · exact hslot (.inl h.1)
      · exact hbelow (.inr h)
      · exact hslot (.inr h)
      · exact hslot (.inl h.1)

theorem judges_ofSlot_edge {l : Label} : (v.ofSlot descend path p (.edge l)).Judges f ↔
    ∃ next, p.step? l = some next ∧ ∃ t ∈ v.targets path.target l, ∃ q,
      path.step? l t = some q ∧ (descend q next).Judges f := by
  rw [Env.Judges, mem_accepted_ofSlot_edge, mem_rejected_ofSlot_edge]
  simp only [Env.Judges, ← exists_or, ← and_or_left]

/-- An environment has verdicts on finds only, however deep it was looked for them. -/
theorem Finds.of_judges {n : Nat} (h : (v.env n path p).Judges f) : v.Finds path p f := by
  induction n generalizing path p with
  | zero => exact absurd h Env.not_judges_empty
  | succ n ih =>
    rw [env_succ] at h
    obtain ⟨a, ha, h⟩ := judges_layered h
    rw [finds_iff_findsBy]
    refine ⟨a, ha, ?_⟩
    cases a with
    | datum =>
      obtain ⟨d, hd, hacc, rfl⟩ :=
        mem_accepted_ofSlot_datum.1 (h.resolve_right not_mem_rejected_ofSlot_datum)
      exact .datum hd hacc
    | edge l =>
      obtain ⟨next, hp, t, ht, q, hq, h⟩ := judges_ofSlot_edge.1 h
      exact .edge hp ht hq (ih h)

/-! ## Enough layers -/

/-- Further layers change nothing once there are as many as slots. -/
theorem layered_congr (h : v.preference.IsStrict) {n m : Nat} (hn : slots.length ≤ n)
    (hm : slots.length ≤ m) :
    v.layered descend path p n slots = v.layered descend path p m slots := by
  induction n generalizing m slots with
  | zero =>
    obtain rfl : slots = [] := List.length_eq_zero_iff.1 (by omega)
    cases m with
    | zero => rfl
    | succ m =>
      rw [layered_succ]
      rfl
  | succ n ih =>
    cases m with
    | zero =>
      obtain rfl : slots = [] := List.length_eq_zero_iff.1 (by omega)
      rw [layered_succ]
      rfl
    | succ m =>
      rw [layered_succ, layered_succ]
      refine congrArg Env.unions (List.map_congr_left fun a ha ↦ ?_)
      have hlen := length_below_lt h (List.mem_of_mem_filter ha)
      rw [ih (m := m) (by omega) (by omega)]

/-- The environment through several slots, with as many layers as there can be. -/
def through (v : View) (descend : Path → Pattern → Env) (path : Path) (p : Pattern)
    (slots : List Slot) : Env :=
  v.layered descend path p slots.length slots

theorem through_eq (h : v.preference.IsStrict) {n : Nat} (hn : slots.length ≤ n) :
    v.through descend path p slots = v.layered descend path p n slots :=
  layered_congr h le_rfl hn

/-! ## The verdicts on the finds of a slot -/

/-- Through several slots is accepted what one of them accepts by itself, unless it is covered by
what is accepted below that slot. -/
theorem mem_accepted_through (h : v.preference.IsStrict) (hnot : v.coversAll = false) :
    f ∈ (v.through descend path p slots).accepted ↔
      ∃ b ∈ slots, f ∈ (v.ofSlot descend path p b).accepted ∧
        ∀ w ∈ (v.through descend path p (v.preference.below slots b)).accepted,
          v.covers f.datum w.datum = false := by
  refine exists_slot_of_layers h (fun slots ↦ f ∈ (v.through descend path p slots).accepted)
    (fun below b ↦ f ∈ (v.ofSlot descend path p b).accepted ∧
      ∀ w ∈ (v.through descend path p below).accepted, v.covers f.datum w.datum = false) ?_
  intro slots
  rw [through_eq h (Nat.le_succ slots.length), mem_accepted_layered_succ (by simp [hnot])]
  refine exists_congr fun a ↦ and_congr_right fun ha ↦ ?_
  rw [through_eq h (length_below_lt h (List.mem_of_mem_filter ha)).le]

/-- Through several slots is rejected what one of them rejects by itself, and what it accepts by
itself but is covered by what is accepted below it. -/
theorem mem_rejected_through (h : v.preference.IsStrict) (hnot : v.coversAll = false) :
    f ∈ (v.through descend path p slots).rejected ↔
      ∃ b ∈ slots, f ∈ (v.ofSlot descend path p b).rejected ∨
        f ∈ (v.ofSlot descend path p b).accepted ∧
          f ∉ (v.through descend path p (v.preference.below slots b)).accepted ∧
            ∃ w ∈ (v.through descend path p (v.preference.below slots b)).accepted,
              v.covers f.datum w.datum = true := by
  refine exists_slot_of_layers h (fun slots ↦ f ∈ (v.through descend path p slots).rejected)
    (fun below b ↦ f ∈ (v.ofSlot descend path p b).rejected ∨
      f ∈ (v.ofSlot descend path p b).accepted ∧
        f ∉ (v.through descend path p below).accepted ∧
          ∃ w ∈ (v.through descend path p below).accepted, v.covers f.datum w.datum = true) ?_
  intro slots
  rw [through_eq h (Nat.le_succ slots.length), mem_rejected_layered_succ hnot]
  refine exists_congr fun a ↦ and_congr_right fun ha ↦ ?_
  rw [through_eq h (length_below_lt h (List.mem_of_mem_filter ha)).le]

/-! ## The verdicts account for the finds -/

/-- A find is found through one slot only. -/
theorem FindsBy.slot_unique {a b : Slot} (ha : v.FindsBy path p a f) (hb : v.FindsBy path p b f) :
    a = b := by
  obtain ⟨rest, hrest, rfl⟩ := ha.steps_eq
  obtain ⟨rest', hrest', rfl⟩ := hb.steps_eq
  rw [List.append_cancel_left (hrest.symm.trans hrest')]

/-- The verdicts of several slots account for their finds if those of each slot do. -/
theorem accounts_through (h : v.preference.IsStrict) (hnot : v.coversAll = false)
    (hslot : ∀ a, (v.ofSlot descend path p a).Accounts {f | v.FindsBy path p a f}) :
    (v.through descend path p slots).Accounts (v.FindsThrough path p slots) := by
  have hfinds : ∀ {a f}, (v.ofSlot descend path p a).Judges f ↔ v.FindsBy path p a f :=
    (hslot _).exhaustive _
  constructor
  · intro f hacc hrej
    obtain ⟨a, -, ha, hno⟩ := (mem_accepted_through h hnot).1 hacc
    obtain ⟨b, -, hb⟩ := (mem_rejected_through h hnot).1 hrej
    have hab : a = b := by
      refine (hfinds.1 (.inl ha)).slot_unique (hfinds.1 ?_)
      rcases hb with hb | hb
      · exact .inr hb
      · exact .inl hb.1
    subst hab
    rcases hb with hb | ⟨-, -, w, hw, hcov⟩
    · exact (hslot a).disjoint f ha hb
    · exact Bool.false_ne_true ((hno w hw).symm.trans hcov)
  · intro f
    constructor
    · rintro (hf | hf)
      · obtain ⟨a, ha, hf, -⟩ := (mem_accepted_through h hnot).1 hf
        exact ⟨a, ha, hfinds.1 (.inl hf)⟩
      · obtain ⟨b, hb, hf | hf⟩ := (mem_rejected_through h hnot).1 hf
        · exact ⟨b, hb, hfinds.1 (.inr hf)⟩
        · exact ⟨b, hb, hfinds.1 (.inl hf.1)⟩
    · rintro ⟨b, hb, hf⟩
      rw [Env.Judges, mem_accepted_through h hnot, mem_rejected_through h hnot]
      rcases hfinds.2 hf with hacc | hrej
      · by_cases hcov : ∀ w ∈ (v.through descend path p (v.preference.below slots b)).accepted,
            v.covers f.datum w.datum = false
        · exact .inl ⟨b, hb, hacc, hcov⟩
        · push Not at hcov
          refine .inr ⟨b, hb, .inr ⟨hacc, ?_, ?_⟩⟩
          · -- What is accepted below is found through other slots.
            intro hw
            obtain ⟨c, hc, hfc, -⟩ := (mem_accepted_through h hnot).1 hw
            obtain rfl := (hfinds.1 (.inl hfc)).slot_unique hf
            exact Bool.false_ne_true ((h.irrefl c).symm.trans (mem_below_iff.1 hc).2)
          · obtain ⟨w, hw, hcov⟩ := hcov
            exact ⟨w, hw, by simpa using hcov⟩
      · exact .inr ⟨b, hb, .inl hrej⟩

/-- The verdicts of a slot account for its finds if those of the extended paths do. -/
theorem accounts_ofSlot {a : Slot}
    (ih : ∀ {l next t q}, t ∈ v.targets path.target l → path.step? l t = some q →
      (descend q next).Accounts {f | v.Finds q next f}) :
    (v.ofSlot descend path p a).Accounts {f | v.FindsBy path p a f} := by
  cases a with
  | datum =>
    refine ⟨fun f _ ↦ not_mem_rejected_ofSlot_datum, fun f ↦ ?_⟩
    rw [Env.Judges, mem_accepted_ofSlot_datum, or_iff_left not_mem_rejected_ofSlot_datum]
    constructor
    · rintro ⟨d, hd, hacc, rfl⟩
      exact .datum hd hacc
    · rintro ⟨⟩
      exact ⟨_, ‹_›, ‹_›, rfl⟩
  | edge l =>
    constructor
    · intro f hacc hrej
      obtain ⟨next, hp, t, ht, q, hq, hf⟩ := mem_accepted_ofSlot_edge.1 hacc
      obtain ⟨next', hp', t', ht', q', hq', hf'⟩ := mem_rejected_ofSlot_edge.1 hrej
      obtain rfl := Option.some.inj (hp.symm.trans hp')
      -- The step after the path tells which of its extensions the find continues.
      obtain ⟨rest, hrest⟩ := (((ih ht hq).exhaustive f).1 (.inl hf)).steps_eq
      obtain ⟨rest', hrest'⟩ := (((ih ht' hq').exhaustive f).1 (.inr hf')).steps_eq
      rw [Path.steps_of_step? hq, List.append_assoc] at hrest
      rw [Path.steps_of_step? hq', List.append_assoc] at hrest'
      have hstep := List.append_cancel_left (hrest.symm.trans hrest')
      obtain rfl : t = t' := congrArg Prod.snd (List.cons.inj hstep).1
      obtain rfl := Option.some.inj (hq.symm.trans hq')
      exact (ih ht hq).disjoint f hf hf'
    · intro f
      rw [judges_ofSlot_edge]
      constructor
      · rintro ⟨next, hp, t, ht, q, hq, hf⟩
        exact .edge hp ht hq (((ih ht hq).exhaustive f).1 hf)
      · rintro ⟨⟩
        rename_i q next t hp ht hq hf
        exact ⟨next, hp, t, ht, q, hq, ((ih ht hq).exhaustive f).2 hf⟩

/-- The verdicts of an environment account for everything that is found from its path. -/
theorem accounts_env (h : v.preference.IsStrict) (hnot : v.coversAll = false) {U : List Scope}
    (hU : v.Within U) {n : Nat} (hn : room U path < n) :
    (v.env n path p).Accounts {f | v.Finds path p f} := by
  induction n generalizing path p with
  | zero => omega
  | succ n ih =>
    have hfinds : {f | v.Finds path p f} = v.FindsThrough path p (Resolver.slots v.labels p) :=
      Set.ext fun f ↦ finds_iff_findsBy
    rw [env_succ, hfinds]
    refine accounts_through h hnot fun a ↦ accounts_ofSlot fun ht hq ↦ ih ?_
    have hroom := room_lt_of_step? (hU _ _ _ ht) hq
    omega

end View

/-! ## The verdicts of a query -/

namespace ScopeGraph

/-- **The verdicts of a query account for all walks that match it**: unless its rule declares that
everything is covered, a query accepts or rejects each of these walks, never both, and nothing else.
What covers what does not matter for that. -/
theorem resolve_accounts (g : ScopeGraph) (labels : List Label) (source : Scope) (q : QueryParams)
    (accepts : Datum → Bool) (covers : Datum → Datum → Bool) (hpref : q.preference.IsStrict)
    (hacc : ∀ d, q.dataRule.holds noQueries d = .ok (accepts d))
    (hcov : ∀ d₁ d₂, q.coverRule.covers noQueries d₁ d₂ = .ok (covers d₁ d₂))
    (hnot : q.coverRule.isAlways = false) :
    ∃ env, g.resolve labels source q = .ok env ∧
      (∀ f ∈ env.accepted, f ∉ env.rejected) ∧
      ∀ f, f ∈ env.accepted ∨ f ∈ env.rejected ↔
        g.Matches labels source q.pattern accepts f := by
  have haccounts : ((g.view labels q accepts covers).env (g.scopes.size + 1) (.start source)
      q.pattern).Accounts {f | (g.view labels q accepts covers).Finds (.start source) q.pattern f} :=
    View.accounts_env hpref hnot within_scopes (room_lt_size _)
  refine ⟨_, envOf_eq_ok hacc hcov (.start source), haccounts.disjoint, fun f ↦ ?_⟩
  exact (haccounts.exhaustive f).trans View.finds_start_iff

/-- Covering need not be transitive: of three declarations on a chain each covers the next one, and
the third is rejected because of the second although that one is rejected itself. -/
theorem resolve_accounts_chain :
    let s : String → Scope := fun name ↦ ⟨⟨"root"⟩, name⟩
    let g : ScopeGraph := .of [⟨s "a", "P", s "b"⟩, ⟨s "b", "P", s "c"⟩]
      [(s "a", .int 1), (s "b", .int 2), (s "c", .int 3)]
    let q : QueryParams := .mk (.ofAutomaton (.of [(0, "P", 0)] [0])) .lexical .any
      (.test "next" fun a b ↦ a = .int 2 ∧ b = .int 1 ∨ a = .int 3 ∧ b = .int 2)
    q.preference.IsStrict ∧ (∀ d, q.dataRule.holds noQueries d = .ok true) ∧
      (∀ a b, q.coverRule.covers noQueries a b =
        .ok (decide (a = .int 2 ∧ b = .int 1 ∨ a = .int 3 ∧ b = .int 2))) ∧
      q.coverRule.isAlways = false ∧
      ∃ env, g.resolve ["P"] (s "a") q = .ok env ∧
        (∀ f ∈ env.accepted, f ∉ env.rejected) ∧
        ∀ f, f ∈ env.accepted ∨ f ∈ env.rejected ↔
          g.Matches ["P"] (s "a") q.pattern (fun _ ↦ true) f := by
  intro s g q
  refine ⟨Preference.isStrict_lexical, fun _ ↦ rfl, fun _ _ ↦ rfl, rfl, ?_⟩
  exact resolve_accounts g ["P"] (s "a") q (fun _ ↦ true)
    (fun a b ↦ decide (a = .int 2 ∧ b = .int 1 ∨ a = .int 3 ∧ b = .int 2))
    Preference.isStrict_lexical (fun _ ↦ rfl) (fun _ _ ↦ rfl) rfl

end ScopeGraph

end ScopeGraphs
