import Mathlib.Order.WellFoundedSet
import ScopeGraphs.Graph.Path
import ScopeGraphs.Query.Preference

/-!
# Preferences between paths

A preference between slots carries over to paths: of two paths the one is preferred whose next slot
is preferred where they part. `Path.meet` is the number of steps two paths have in common, and
`Path.slotAt` the slot a path leaves by after some of its steps. If the preference between slots is
a strict order then so is the one between paths, whatever their sources are.
-/

namespace ScopeGraphs

/-! ## Strict orders on finite sets -/

/-- In a finite set, below every element of a strict order there is a minimal one. -/
theorem exists_minimal_of_finite {α : Type*} {R : α → α → Prop} [IsStrictOrder α R] {S : Set α}
    (hS : S.Finite) {x : α} (hx : x ∈ S) :
    ∃ y ∈ S, (∀ z ∈ S, ¬ R z y) ∧ (y = x ∨ R y x) := by
  refine (hS.wellFoundedOn (r := R)).induction (P := fun x ↦
    ∃ y ∈ S, (∀ z ∈ S, ¬ R z y) ∧ (y = x ∨ R y x)) hx fun x hx ih ↦ ?_
  by_cases hmin : ∀ z ∈ S, ¬ R z x
  · exact ⟨x, hx, hmin, .inl rfl⟩
  · push Not at hmin
    obtain ⟨z, hz, hzx⟩ := hmin
    obtain ⟨y, hy, hymin, hyz⟩ := ih z hz hzx
    refine ⟨y, hy, hymin, .inr ?_⟩
    rcases hyz with rfl | hyz
    · exact hzx
    · exact IsTrans.trans _ _ _ hyz hzx

/-! ## Where paths part -/

/-- The length of the longest common prefix of two lists. -/
def commonLength {α : Type*} [DecidableEq α] : List α → List α → Nat
  | a :: as, b :: bs => if a = b then commonLength as bs + 1 else 0
  | _, _ => 0

theorem commonLength_append {α : Type*} [DecidableEq α] (pre as bs : List α) :
    commonLength (pre ++ as) (pre ++ bs) = pre.length + commonLength as bs := by
  induction pre with
  | nil => simp
  | cons a pre ih =>
    rw [List.cons_append, List.cons_append, commonLength, if_pos rfl, ih, List.length_cons]
    omega

/-- The slot by which a walk with the given steps goes on after some of them: the label of the next
step, or the datum if there is none. -/
def nextSlot (steps : List (Label × Scope)) (n : Nat) : Slot :=
  match steps[n]? with
  | some e => .edge e.1
  | none => .datum

@[simp] theorem nextSlot_nil (n : Nat) : nextSlot [] n = .datum := rfl

@[simp] theorem nextSlot_cons_zero (e : Label × Scope) (es : List (Label × Scope)) :
    nextSlot (e :: es) 0 = .edge e.1 := rfl

@[simp] theorem nextSlot_cons_succ (e : Label × Scope) (es : List (Label × Scope)) (n : Nat) :
    nextSlot (e :: es) (n + 1) = nextSlot es n := rfl

theorem nextSlot_append (pre es : List (Label × Scope)) (n : Nat) :
    nextSlot (pre ++ es) (pre.length + n) = nextSlot es n := by
  rw [nextSlot, nextSlot, List.getElem?_append_right (by omega), Nat.add_sub_cancel_left]

namespace Preference

variable {o : Preference} {as bs cs : List (Label × Scope)}

/-- The preference is a strict order on slots. -/
structure IsStrict (o : Preference) : Prop where
  irrefl : ∀ a, o.lt a a = false
  trans : ∀ {a b c}, o.lt a b = true → o.lt b c = true → o.lt a c = true

/-- Whether a walk with the first steps is preferred over one with the second: where they part, it
goes on by a slot that is preferred. -/
def Prefers (o : Preference) (as bs : List (Label × Scope)) : Prop :=
  o.lt (nextSlot as (commonLength as bs)) (nextSlot bs (commonLength as bs)) = true

/-- Common first steps do not matter. -/
theorem prefers_append (pre as bs : List (Label × Scope)) :
    o.Prefers (pre ++ as) (pre ++ bs) ↔ o.Prefers as bs := by
  rw [Prefers, Prefers, commonLength_append, nextSlot_append, nextSlot_append]

theorem prefers_cons_self (e : Label × Scope) (as bs : List (Label × Scope)) :
    o.Prefers (e :: as) (e :: bs) ↔ o.Prefers as bs :=
  prefers_append [e] as bs

/-- Walks that part at once are compared by their first slots. -/
theorem prefers_of_ne (h : as.head? ≠ bs.head?) :
    o.Prefers as bs ↔ o.lt (nextSlot as 0) (nextSlot bs 0) = true := by
  have hzero : commonLength as bs = 0 := by
    cases as with
    | nil => rfl
    | cons a as =>
      cases bs with
      | nil => rfl
      | cons b bs => rw [commonLength, if_neg fun hab ↦ h (congrArg some hab)]
  rw [Prefers, hzero]

theorem IsStrict.not_prefers_self (h : o.IsStrict) (as : List (Label × Scope)) :
    ¬ o.Prefers as as := by
  rw [Prefers, h.irrefl]
  exact Bool.false_ne_true

/-- Walks whose first slots are in the right order part at once. -/
private theorem IsStrict.prefers_of_lt (h : o.IsStrict)
    (hlt : o.lt (nextSlot as 0) (nextSlot bs 0) = true) : o.Prefers as bs := by
  refine (prefers_of_ne fun heq ↦ ?_).2 hlt
  have hslot : nextSlot as 0 = nextSlot bs 0 := by
    cases as <;> cases bs <;> simp_all
  rw [hslot, h.irrefl] at hlt
  exact Bool.false_ne_true hlt

/-- Either the first steps are the same, or the first slots are in the right order. -/
private theorem IsStrict.prefers_cases (h : o.IsStrict) (hp : o.Prefers as bs) :
    (∃ e as' bs', as = e :: as' ∧ bs = e :: bs' ∧ o.Prefers as' bs') ∨
      o.lt (nextSlot as 0) (nextSlot bs 0) = true := by
  by_cases hne : as.head? = bs.head?
  · cases as with
    | nil =>
      cases bs with
      | nil => exact absurd hp (h.not_prefers_self [])
      | cons b bs => simp at hne
    | cons a as =>
      cases bs with
      | nil => simp at hne
      | cons b bs =>
        obtain rfl : a = b := by simpa using hne
        exact .inl ⟨a, as, bs, rfl, rfl, (prefers_cons_self a as bs).1 hp⟩
  · exact .inr ((prefers_of_ne hne).1 hp)

theorem IsStrict.prefers_trans (h : o.IsStrict) (hab : o.Prefers as bs) (hbc : o.Prefers bs cs) :
    o.Prefers as cs := by
  induction bs generalizing as cs with
  | nil =>
    rcases h.prefers_cases hab with ⟨_, _, _, _, hnil, _⟩ | hab
    · exact absurd hnil (by simp)
    · rcases h.prefers_cases hbc with ⟨_, _, _, hnil, _, _⟩ | hbc
      · exact absurd hnil (by simp)
      · exact h.prefers_of_lt (h.trans hab hbc)
  | cons b bs ih =>
    rcases h.prefers_cases hab with ⟨e, as', bs', rfl, heq, hab⟩ | hab
    · obtain ⟨rfl, rfl⟩ := List.cons.inj heq
      rcases h.prefers_cases hbc with ⟨e, _, cs', heq, rfl, hbc⟩ | hbc
      · obtain ⟨rfl, rfl⟩ := List.cons.inj heq
        exact (prefers_cons_self b as' cs').2 (ih hab hbc)
      · -- The first two walks share a step, so the first parts from the third as the second does.
        exact h.prefers_of_lt hbc
    · rcases h.prefers_cases hbc with ⟨e, bs', cs', heq, rfl, _⟩ | hbc
      · obtain ⟨rfl, rfl⟩ := List.cons.inj heq
        exact h.prefers_of_lt hab
      · exact h.prefers_of_lt (h.trans hab hbc)

end Preference

end ScopeGraphs
