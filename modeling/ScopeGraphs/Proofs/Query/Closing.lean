import Mathlib.Algebra.Group.Nat.Defs
import Mathlib.Data.List.Nodup
import Mathlib.Logic.Relation
import ScopeGraphs.Proofs.Sorted
import ScopeGraphs.Query.Preference

/-!
# The closure of a preference

A preference that is given by pairs is closed in rounds: each round composes every two pairs of the
set as it was before the round, and the rounds go on until one of them has nothing to add
(`Preference.Settles`). The closure that is computed stops after as many rounds as there are pairs.

A round does not go through one more link, it halves chains (`Preference.Linked.halve`): what a
chain of at most `2 ^ n` links leads to is there after `n` rounds. Since every chain can be cut
down to one that uses no pair twice, as many rounds as there are pairs are more than enough, the
last of them has nothing to add, and both ways of closing give the same set. That pairs may be
repeated, lead from a slot to itself or form a cycle makes no difference to this.
-/

namespace ScopeGraphs

/-- A set with some more elements. -/
def SortedSet.addAll {α : Type} [Keyed α] (s : SortedSet α) (xs : List α) : SortedSet α :=
  xs.foldl (fun s x ↦ s.insert x) s

namespace Preference

variable {less closed : SortedSet (Slot × Slot)} {p : Slot × Slot} {a b c : Slot}

/-! ## Rounds -/

/-- The pairs of a set together with what any two of them compose to. -/
def round (less : SortedSet (Slot × Slot)) : SortedSet (Slot × Slot) :=
  less.addAll (compositions less)

/-- What a set of pairs becomes in rounds that go on until there is nothing to add. -/
inductive Settles : SortedSet (Slot × Slot) → SortedSet (Slot × Slot) → Prop
  | done {less : SortedSet (Slot × Slot)} : compositions less = [] → Settles less less
  | round {less closed : SortedSet (Slot × Slot)} :
      compositions less ≠ [] → Settles (round less) closed → Settles less closed

theorem mem_compositions : p ∈ compositions less ↔
    (∃ m, (p.1, m) ∈ less ∧ (m, p.2) ∈ less) ∧ p ∉ less := by
  obtain ⟨a, b⟩ := p
  rw [compositions]
  simp only [List.mem_flatMap, List.mem_filterMap, Std.ExtTreeSet.mem_toList,
    Option.ite_none_right_eq_some, Option.some.injEq, Std.ExtTreeSet.contains_iff_mem]
  constructor
  · rintro ⟨⟨a, m⟩, ham, ⟨m', b⟩, hmb, ⟨hm, hnew⟩, hp⟩
    cases hm
    cases hp
    exact ⟨⟨m, ham, hmb⟩, hnew⟩
  · rintro ⟨⟨m, ham, hmb⟩, hnew⟩
    exact ⟨(a, m), ham, (m, b), hmb, ⟨rfl, hnew⟩, rfl⟩

theorem mem_round : p ∈ round less ↔ p ∈ less ∨ ∃ m, (p.1, m) ∈ less ∧ (m, p.2) ∈ less := by
  rw [round, SortedSet.addAll, SortedSet.mem_foldl_insert, mem_compositions, or_comm, or_and_left,
    and_iff_left (Classical.em _)]

/-- There is nothing to add to a set exactly if it is transitive. -/
theorem compositions_eq_nil_iff : compositions less = [] ↔
    ∀ a b c, (a, b) ∈ less → (b, c) ∈ less → (a, c) ∈ less := by
  rw [List.eq_nil_iff_forall_not_mem]
  simp only [mem_compositions, not_and, not_not, Prod.forall]
  exact ⟨fun h a b c hab hbc ↦ h a c ⟨b, hab, hbc⟩, fun h a c ⟨b, hab, hbc⟩ ↦ h a b c hab hbc⟩

theorem round_eq_self (h : compositions less = []) : round less = less := by
  rw [round, h, SortedSet.addAll, List.foldl_nil]

theorem closeRounds_of_compositions_eq_nil (h : compositions less = []) (n : Nat) :
    closeRounds n less = less := by
  cases n with
  | zero => rfl
  | succ n => rw [closeRounds, h]

theorem closeRounds_succ (n : Nat) : closeRounds (n + 1) less = closeRounds n (round less) := by
  by_cases h : compositions less = []
  · rw [round_eq_self h, closeRounds_of_compositions_eq_nil h, closeRounds_of_compositions_eq_nil h]
  · rw [closeRounds]
    split
    · contradiction
    · rfl

/-! ## Without a bound -/

/-- Rounds that have come to an end with nothing to add are all there are. -/
theorem settles_closeRounds {n : Nat} (h : compositions (closeRounds n less) = []) :
    Settles less (closeRounds n less) := by
  induction n generalizing less with
  | zero => exact .done h
  | succ n ih =>
    by_cases hdone : compositions less = []
    · rw [closeRounds_of_compositions_eq_nil hdone]
      exact .done hdone
    · rw [closeRounds_succ] at h ⊢
      exact .round hdone (ih h)

theorem Settles.unique {closed' : SortedSet (Slot × Slot)} (h : Settles less closed)
    (h' : Settles less closed') : closed = closed' := by
  induction h with
  | done hdone =>
    cases h' with
    | done => rfl
    | round hmore => exact absurd hdone hmore
  | round hmore _ ih =>
    cases h' with
    | done hdone => exact absurd hdone hmore
    | round _ h' => exact ih h'

/-! ## Chains -/

/-- A list of pairs leads from one slot to another: each pair starts where the one before ends. -/
def Linked (a : Slot) : List (Slot × Slot) → Slot → Prop
  | [], b => a = b
  | p :: links, b => p.1 = a ∧ Linked p.2 links b

theorem Linked.append_iff {links links' : List (Slot × Slot)} :
    Linked a (links ++ links') b ↔ ∃ m, Linked a links m ∧ Linked m links' b := by
  induction links generalizing a with
  | nil => simp [Linked]
  | cons p links ih => simp [Linked, ih, and_assoc]

/-- A chain with a pair that occurs again can do without what is in between. -/
theorem Linked.exists_nodup {links : List (Slot × Slot)} (h : Linked a links b) :
    ∃ links', Linked a links' b ∧ links'.Nodup ∧ (∀ p ∈ links', p ∈ links) ∧
      (links' = [] → links = []) := by
  induction links generalizing a with
  | nil => exact ⟨[], h, .nil, nofun, fun _ ↦ rfl⟩
  | cons p links ih =>
    obtain ⟨rfl, hlinks⟩ := h
    obtain ⟨links', h', hnodup, hsub, -⟩ := ih hlinks
    by_cases hp : p ∈ links'
    · obtain ⟨before, after, rfl⟩ := List.append_of_mem hp
      obtain ⟨m, -, rfl, hafter⟩ := Linked.append_iff.1 h'
      refine ⟨p :: after, ⟨rfl, hafter⟩, hnodup.of_append_right, fun q hq ↦ ?_, nofun⟩
      rcases List.mem_cons.1 hq with rfl | hq
      · exact List.mem_cons_self
      · exact List.mem_cons_of_mem _ (hsub q (by simp [hq]))
    · refine ⟨p :: links', ⟨rfl, h'⟩, List.nodup_cons.2 ⟨hp, hnodup⟩, fun q hq ↦ ?_, nofun⟩
      exact (List.mem_cons.1 hq).elim (fun heq ↦ heq ▸ List.mem_cons_self)
        fun hq ↦ List.mem_cons_of_mem _ (hsub q hq)

/-- After a round half of the links are enough, since any two that follow each other have become
one. -/
theorem Linked.halve : ∀ {a : Slot} {links : List (Slot × Slot)}, Linked a links b →
    (∀ p ∈ links, p ∈ less) → ∃ links', Linked a links' b ∧ (∀ p ∈ links', p ∈ round less) ∧
      links'.length = (links.length + 1) / 2
  | _, [], h, _ => ⟨[], h, nofun, rfl⟩
  | _, [p], h, hless => ⟨[p], h, fun q hq ↦ mem_round.2 (.inl (hless q hq)), by simp⟩
  | _, p :: q :: links, h, hless => by
    obtain ⟨rfl, hpq, hlinks⟩ := h
    obtain ⟨links', h', hround, hlength⟩ :=
      hlinks.halve fun r hr ↦ hless r (List.mem_cons_of_mem _ (List.mem_cons_of_mem _ hr))
    have hp : (p.1, p.2) ∈ less := hless p List.mem_cons_self
    have hq : (p.2, q.2) ∈ less := hpq ▸ hless q (List.mem_cons_of_mem _ List.mem_cons_self)
    refine ⟨(p.1, q.2) :: links', ⟨rfl, h'⟩, fun r hr ↦ ?_, ?_⟩
    · rcases List.mem_cons.1 hr with rfl | hr
      · exact mem_round.2 (.inr ⟨p.2, hp, hq⟩)
      · exact hround r hr
    · rw [List.length_cons, hlength, List.length_cons, List.length_cons]
      omega

/-- What a chain of at most `2 ^ n` links leads to is there after `n` rounds. -/
theorem mem_closeRounds_of_linked {n : Nat} {links : List (Slot × Slot)} (h : Linked a links b)
    (hless : ∀ p ∈ links, p ∈ less) (hne : links ≠ []) (hlength : links.length ≤ 2 ^ n) :
    (a, b) ∈ closeRounds n less := by
  induction n generalizing less links with
  | zero =>
    obtain ⟨p, rfl⟩ := List.length_eq_one_iff.1
      (Nat.le_antisymm hlength (List.length_pos_iff.2 hne))
    obtain ⟨rfl, rfl⟩ := h
    exact hless p List.mem_cons_self
  | succ n ih =>
    obtain ⟨links', h', hround, hhalf⟩ := h.halve hless
    have hpos : 0 < links.length := List.length_pos_iff.2 hne
    rw [closeRounds_succ]
    refine ih h' hround (List.length_pos_iff.1 ?_) ?_
    · omega
    · rw [Nat.pow_succ] at hlength
      omega

/-! ## Soundness and completeness -/

/-- There is a chain of given pairs, of at least one, from one slot to another. -/
def Chained (given : List (Slot × Slot)) : Slot → Slot → Prop :=
  Relation.TransGen fun a b ↦ (a, b) ∈ given

theorem Chained.exists_linked {given : List (Slot × Slot)} (h : Chained given a b) :
    ∃ links, Linked a links b ∧ (∀ p ∈ links, p ∈ given) ∧ links ≠ [] := by
  induction h with
  | single hab => exact ⟨[(_, _)], ⟨rfl, rfl⟩, by simpa using hab, by simp⟩
  | tail _ hbc ih =>
    obtain ⟨links, hlinks, hsub, -⟩ := ih
    refine ⟨links ++ [(_, _)], Linked.append_iff.2 ⟨_, hlinks, rfl, rfl⟩, fun p hp ↦ ?_, by simp⟩
    rcases List.mem_append.1 hp with hp | hp
    · exact hsub p hp
    · rwa [List.mem_singleton.1 hp]

/-- Rounds never go beyond a transitive relation. -/
theorem closeRounds_sound {r : Slot → Slot → Prop} (htrans : ∀ {a b c}, r a b → r b c → r a c)
    {n : Nat} (hless : ∀ a b, (a, b) ∈ less → r a b) :
    ∀ a b, (a, b) ∈ closeRounds n less → r a b := by
  induction n generalizing less with
  | zero => exact hless
  | succ n ih =>
    rw [closeRounds_succ]
    refine ih fun a b hab ↦ ?_
    rcases mem_round.1 hab with hab | ⟨m, ham, hmb⟩
    · exact hless a b hab
    · exact htrans (hless a m ham) (hless m b hmb)

theorem mem_closure_iff {given : List (Slot × Slot)} :
    (a, b) ∈ closure given ↔ Chained given a b := by
  constructor
  · refine closeRounds_sound (r := Chained given) Relation.TransGen.trans (fun a b hab ↦ ?_) a b
    exact .single (SortedSet.mem_ofList.1 hab)
  · intro h
    obtain ⟨links, hlinks, hsub, hne⟩ := h.exists_linked
    obtain ⟨links', hlinks', hnodup, hsub', hnil⟩ := hlinks.exists_nodup
    have hgiven (p : Slot × Slot) (hp : p ∈ links') : p ∈ given := hsub p (hsub' p hp)
    refine mem_closeRounds_of_linked hlinks' (fun p hp ↦ SortedSet.mem_ofList.2 (hgiven p hp))
      (mt hnil hne) ?_
    exact Nat.le_trans (hnodup.subperm hgiven).length_le (Nat.le_of_lt Nat.lt_two_pow_self)

theorem compositions_closure (given : List (Slot × Slot)) : compositions (closure given) = [] := by
  rw [compositions_eq_nil_iff]
  intro a b c hab hbc
  rw [mem_closure_iff] at hab hbc ⊢
  exact hab.trans hbc

/-- **Explicit preferences are closed under transitivity.** Whatever pairs are given, rounds of
compositions come to an end where there is nothing to add, and what they end with is what is
computed. One slot is preferred over another exactly if a chain of given pairs, of at least one,
leads from it to the other. So the preference is transitive, and it is irreflexive exactly if the
given pairs have no cycle. -/
theorem ofPairs_isTransitiveClosure (given : List (Slot × Slot)) :
    (∀ closed, Settles (SortedSet.ofList given) closed ↔ closed = closure given) ∧
    (∀ a b, (ofPairs given).lt a b = true ↔ Chained given a b) ∧
    (∀ a b c, (ofPairs given).lt a b = true → (ofPairs given).lt b c = true →
      (ofPairs given).lt a c = true) ∧
    ((∀ a, (ofPairs given).lt a a = false) ↔ ∀ a, ¬ Chained given a a) := by
  have hsettles : Settles (SortedSet.ofList given) (closure given) :=
    settles_closeRounds (compositions_closure given)
  have hlt (a b : Slot) : (ofPairs given).lt a b = true ↔ Chained given a b := by
    rw [ofPairs, lt, Std.ExtTreeSet.contains_iff_mem, mem_closure_iff]
  refine ⟨fun closed ↦ ⟨fun h ↦ h.unique hsettles, ?_⟩, hlt, fun a b c hab hbc ↦ ?_, ?_⟩
  · rintro rfl
    exact hsettles
  · rw [hlt] at hab hbc ⊢
    exact hab.trans hbc
  · simp only [← hlt, Bool.not_eq_true]

end Preference

end ScopeGraphs
