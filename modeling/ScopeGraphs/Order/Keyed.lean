import Std.Data.ExtTreeMap
import Std.Data.ExtTreeSet

/-!
# Order by keys

Everything this library sorts is ordered in one way: a value has a *key*, a word of integers, and
values compare as their keys do, letter by letter, a proper prefix first. Keys are prefix-free
(`Keyed.key_append_inj`), so the key of a composite value is the concatenation of the keys of its
parts, and the order of pairs, lists and texts comes out lexicographic.

One proof then serves every type: `Keyed.compare` is a total order in which only equal values
compare as equal. On top of it stand the sorted containers `SortedMap` and `SortedSet`, which are
extensional: two of them are equal as soon as they have the same entries.
-/

namespace ScopeGraphs

universe u v

/-! ## Words -/

/-- Lexicographic comparison of words; a proper prefix comes first. -/
def compareWords : List Int → List Int → Ordering
  | [], [] => .eq
  | [], _ :: _ => .lt
  | _ :: _, [] => .gt
  | a :: as, b :: bs => if a < b then .lt else if b < a then .gt else compareWords as bs

theorem compareWords_self (w : List Int) : compareWords w w = .eq := by
  induction w with
  | nil => rfl
  | cons a w ih => simp [compareWords, ih]

theorem compareWords_swap (v w : List Int) : compareWords v w = (compareWords w v).swap := by
  induction v generalizing w with
  | nil => cases w <;> rfl
  | cons a v ih =>
    cases w with
    | nil => rfl
    | cons b w =>
      simp only [compareWords]
      rcases Int.lt_trichotomy a b with h | h | h
      · simp [h, Int.lt_asymm h]
      · simp [h, ih w]
      · simp [h, Int.lt_asymm h]

theorem eq_of_compareWords {v w : List Int} (h : compareWords v w = .eq) : v = w := by
  induction v generalizing w with
  | nil => cases w <;> simp_all [compareWords]
  | cons a v ih =>
    cases w with
    | nil => simp [compareWords] at h
    | cons b w =>
      simp only [compareWords] at h
      split at h
      · simp at h
      · split at h
        · simp at h
        · rw [ih h, show a = b by omega]

theorem compareWords_trans {t v w : List Int} (h₁ : compareWords t v ≠ .gt)
    (h₂ : compareWords v w ≠ .gt) : compareWords t w ≠ .gt := by
  induction t generalizing v w with
  | nil => cases w <;> simp [compareWords]
  | cons a t ih =>
    cases v with
    | nil => simp [compareWords] at h₁
    | cons b v =>
      cases w with
      | nil => simp [compareWords] at h₂
      | cons c w =>
        simp only [compareWords] at h₁ h₂ ⊢
        by_cases hab : a < b
        · by_cases hbc : b < c
          · simp [Int.lt_trans hab hbc]
          · by_cases hcb : c < b
            · simp [hbc, hcb] at h₂
            · simp [show a < c by omega]
        · by_cases hba : b < a
          · simp [hab, hba] at h₁
          · by_cases hbc : b < c
            · simp [show a < c by omega]
            · by_cases hcb : c < b
              · simp [hbc, hcb] at h₂
              · simp only [hab, hba, hbc, hcb, if_false] at h₁ h₂
                simpa [show ¬ a < c by omega, show ¬ c < a by omega] using ih h₁ h₂

/-! ## Keyed types -/

/-- A type whose values are ordered by prefix-free keys. -/
class Keyed (α : Type u) where
  /-- The word that stands for a value in comparisons. -/
  key : α → List Int
  /-- A word starts with the key of at most one value. -/
  key_append_inj : ∀ {a b : α} {r s : List Int}, key a ++ r = key b ++ s → a = b ∧ r = s

namespace Keyed

variable {α : Type u} [Keyed α]

theorem key_inj {a b : α} (h : key a = key b) : a = b :=
  (key_append_inj (r := []) (s := []) (by rw [h])).1

/-- Comparison by key. -/
protected def compare (a b : α) : Ordering := compareWords (key a) (key b)

instance : Std.OrientedCmp (Keyed.compare : α → α → Ordering) where
  eq_swap := compareWords_swap _ _

instance : Std.TransCmp (Keyed.compare : α → α → Ordering) where
  isLE_trans h₁ h₂ := by
    rw [Ordering.isLE_iff_ne_gt] at *
    exact compareWords_trans h₁ h₂

instance : Std.LawfulEqCmp (Keyed.compare : α → α → Ordering) where
  compare_self := compareWords_self _
  eq_of_compare h := key_inj (eq_of_compareWords h)

@[simp] theorem compare_eq_iff {a b : α} : Keyed.compare a b = .eq ↔ a = b :=
  ⟨fun h ↦ key_inj (eq_of_compareWords h), fun h ↦ h ▸ compareWords_self _⟩

/-- Equality is decided on keys. -/
@[reducible] def decEq (a b : α) : Decidable (a = b) :=
  if h : key a = key b then .isTrue (key_inj h) else .isFalse fun e ↦ h (e ▸ rfl)

/-- A type that maps injectively to a keyed one borrows its key. -/
@[reducible] def ofInjective {β : Type v} (f : β → α) (hf : ∀ {a b}, f a = f b → a = b) :
    Keyed β where
  key b := key (f b)
  key_append_inj h := (key_append_inj h).imp_left hf

end Keyed

/-! ## Keys of the basic types -/

instance : Keyed Int where
  key i := [i]
  key_append_inj h := by simpa using h

instance : Keyed Nat where
  key n := [(n : Int)]
  key_append_inj h := by simpa [Int.ofNat_inj] using h

instance : Keyed Bool where
  key b := [if b then 1 else 0]
  key_append_inj {a b} _ _ h := by cases a <;> cases b <;> simp_all

private theorem letters_append_inj {v w : List Char} {r s : List Int}
    (h : v.map (fun c ↦ (c.toNat : Int)) ++ -1 :: r = w.map (fun c ↦ (c.toNat : Int)) ++ -1 :: s) :
    v = w ∧ r = s := by
  induction v generalizing w with
  | nil =>
    cases w with
    | nil => simpa using h
    | cons d w => simp only [List.map_nil, List.nil_append, List.map_cons, List.cons_append,
        List.cons.injEq] at h; omega
  | cons c v ih =>
    cases w with
    | nil => simp only [List.map_nil, List.nil_append, List.map_cons, List.cons_append,
        List.cons.injEq] at h; omega
    | cons d w =>
      simp only [List.map_cons, List.cons_append, List.cons.injEq] at h
      obtain ⟨hvw, hrs⟩ := ih h.2
      have hcd : c = d := Char.toNat_inj.1 (by omega)
      exact ⟨by rw [hvw, hcd], hrs⟩

/-- Texts compare by code points: the end of a text comes before every character. -/
instance : Keyed String where
  key s := s.toList.map (fun c ↦ (c.toNat : Int)) ++ [-1]
  key_append_inj h := by
    simp only [List.append_assoc, List.cons_append, List.nil_append] at h
    exact (letters_append_inj h).imp_left String.toList_inj.1

instance {α : Type u} {β : Type v} [Keyed α] [Keyed β] : Keyed (α × β) where
  key p := Keyed.key p.1 ++ Keyed.key p.2
  key_append_inj {p q} _ _ h := by
    simp only [List.append_assoc] at h
    obtain ⟨h₁, h⟩ := Keyed.key_append_inj h
    obtain ⟨h₂, h⟩ := Keyed.key_append_inj h
    exact ⟨Prod.ext h₁ h₂, h⟩

instance {α : Type u} [Keyed α] : Keyed (Option α) where
  key
    | none => [0]
    | some a => 1 :: Keyed.key a
  key_append_inj {a b} _ _ h := by
    cases a <;> cases b
    · simpa using h
    · simp at h
    · simp at h
    · obtain ⟨rfl, rfl⟩ := Keyed.key_append_inj (List.cons.inj h).2
      exact ⟨rfl, rfl⟩

/-- The key of a list: each element after a marker, then an end that sorts below the marker. -/
def listKey {α : Type u} (key : α → List Int) : List α → List Int
  | [] => [-1]
  | a :: as => 0 :: (key a ++ listKey key as)

instance {α : Type u} [Keyed α] : Keyed (List α) where
  key := listKey Keyed.key
  key_append_inj {a b} r s h := by
    induction a generalizing b with
    | nil => cases b <;> simp_all [listKey]
    | cons x a ih =>
      cases b with
      | nil => simp [listKey] at h
      | cons y b =>
        simp only [listKey, List.cons_append, List.append_assoc, List.cons.injEq, true_and] at h
        obtain ⟨hxy, htail⟩ := Keyed.key_append_inj h
        obtain ⟨hab, hrs⟩ := ih htail
        exact ⟨by rw [hxy, hab], hrs⟩

/-! ## Sorted containers -/

/-- A finite map, listed in the order of its keys. -/
abbrev SortedMap (α : Type u) (β : Type v) [Keyed α] :=
  Std.ExtTreeMap α β (Keyed.compare : α → α → Ordering)

/-- A finite set, listed in order. -/
abbrev SortedSet (α : Type u) [Keyed α] :=
  Std.ExtTreeSet α (Keyed.compare : α → α → Ordering)

/-- The map with the given entries; of two entries with one key the later one counts. -/
def SortedMap.ofList {α : Type u} {β : Type v} [Keyed α] (entries : List (α × β)) :
    SortedMap α β :=
  Std.ExtTreeMap.ofList entries Keyed.compare

/-- The set of the given elements. -/
def SortedSet.ofList {α : Type u} [Keyed α] (elements : List α) : SortedSet α :=
  Std.ExtTreeSet.ofList elements Keyed.compare

end ScopeGraphs
