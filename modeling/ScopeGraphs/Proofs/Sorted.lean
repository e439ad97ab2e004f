import Mathlib.Data.List.Perm.Subperm
import ScopeGraphs.Order.Keyed

/-!
# Membership in sorted containers

The library builds its sorted containers by inserting the elements of a list one after the other,
or with `SortedSet.ofList`. The lemmas here say what is in such a container, so that no later proof
has to go through the insertions.
-/

namespace ScopeGraphs

universe u v

namespace SortedSet

variable {α : Type u} [Keyed α]

@[simp] theorem mem_insert_iff {s : SortedSet α} {a b : α} : b ∈ s.insert a ↔ b = a ∨ b ∈ s := by
  rw [Std.ExtTreeSet.mem_insert, Keyed.compare_eq_iff, eq_comm]

@[simp] theorem mem_erase_iff {s : SortedSet α} {a b : α} : b ∈ s.erase a ↔ b ≠ a ∧ b ∈ s := by
  rw [Std.ExtTreeSet.mem_erase, Ne, Keyed.compare_eq_iff, eq_comm]

/-- Inserting the elements of a list one by one adds exactly these. -/
@[simp] theorem mem_foldl_insert {as : List α} {s : SortedSet α} {b : α} :
    b ∈ as.foldl (fun t a ↦ t.insert a) s ↔ b ∈ as ∨ b ∈ s := by
  induction as generalizing s with
  | nil => simp
  | cons a as ih =>
    rw [List.foldl_cons, ih, mem_insert_iff, List.mem_cons, or_left_comm, or_assoc]

@[simp] theorem mem_ofList {as : List α} {b : α} : b ∈ ofList as ↔ b ∈ as := by
  rw [ofList, Std.ExtTreeSet.ofList_eq_foldl, mem_foldl_insert]
  simp

theorem isEmpty_iff_forall {s : SortedSet α} : s.isEmpty = true ↔ ∀ a, a ∉ s := by
  rw [Std.ExtTreeSet.isEmpty_iff]
  constructor
  · rintro rfl a
    exact Std.ExtTreeSet.not_mem_empty
  · intro h
    exact Std.ExtTreeSet.ext_mem fun a ↦ by simp [h a]

theorem nodup_of_pairwise_lt {as : List α} (h : as.Pairwise fun a b ↦ Keyed.compare a b = .lt) :
    as.Nodup :=
  h.imp fun hlt heq ↦ by
    rw [Keyed.compare_eq_iff.2 heq] at hlt
    exact absurd hlt (by simp)

/-- Only one list has its elements in order without repetition, so such lists are equal as soon as
they have the same elements. -/
theorem eq_of_pairwise_lt {as bs : List α} (has : as.Pairwise fun a b ↦ Keyed.compare a b = .lt)
    (hbs : bs.Pairwise fun a b ↦ Keyed.compare a b = .lt) (h : ∀ a, a ∈ as ↔ a ∈ bs) : as = bs := by
  refine List.Perm.eq_of_pairwise ?_ has hbs ?_
  · intro a b _ _ hab hba
    exact absurd hba (Std.OrientedCmp.not_lt_of_lt hab)
  · exact (List.perm_ext_iff_of_nodup (nodup_of_pairwise_lt has) (nodup_of_pairwise_lt hbs)).2 h

/-- A sorted set is listed in one order only, so what is picked from two sets is the same list as
soon as they have the picked elements in common. -/
theorem filter_toList_congr {s t : SortedSet α} {p : α → Bool}
    (h : ∀ a, p a = true → (a ∈ s ↔ a ∈ t)) : s.toList.filter p = t.toList.filter p := by
  refine eq_of_pairwise_lt (Std.ExtTreeSet.ordered_toList.filter _)
    (Std.ExtTreeSet.ordered_toList.filter _) ?_
  intro a
  rw [List.mem_filter, List.mem_filter, Std.ExtTreeSet.mem_toList, Std.ExtTreeSet.mem_toList]
  exact and_congr_left (h a)

theorem nodup_toList (s : SortedSet α) : s.toList.Nodup :=
  nodup_of_pairwise_lt Std.ExtTreeSet.ordered_toList

/-- A set whose elements are all in a list is no larger than the list. -/
theorem size_le_length {s : SortedSet α} {as : List α} (h : ∀ a ∈ s, a ∈ as) :
    s.size ≤ as.length := by
  rw [← Std.ExtTreeSet.length_toList]
  refine (s.nodup_toList.subperm ?_).length_le
  intro a ha
  exact h a (Std.ExtTreeSet.mem_toList.1 ha)

/-- A list without repetition that has the elements of a set is as long as the set is large. -/
theorem size_eq_length {s : SortedSet α} {as : List α} (has : as.Nodup) (h : ∀ a, a ∈ s ↔ a ∈ as) :
    s.size = as.length := by
  rw [← Std.ExtTreeSet.length_toList]
  refine ((List.perm_ext_iff_of_nodup s.nodup_toList has).2 fun a ↦ ?_).length_eq
  rw [Std.ExtTreeSet.mem_toList, h]

/-- A set has all elements of a larger one as soon as it is as large. -/
theorem mem_of_size_le {s t : SortedSet α} (h : ∀ a ∈ s, a ∈ t) (hsize : t.size ≤ s.size) {a : α}
    (ha : a ∈ t) : a ∈ s := by
  have hsub : s.toList.Subperm t.toList := s.nodup_toList.subperm fun b hb ↦
    Std.ExtTreeSet.mem_toList.2 (h b (Std.ExtTreeSet.mem_toList.1 hb))
  have hperm : s.toList.Perm t.toList := hsub.perm_of_length_le <| by
    rwa [Std.ExtTreeSet.length_toList, Std.ExtTreeSet.length_toList]
  exact Std.ExtTreeSet.mem_toList.1 (hperm.mem_iff.2 (Std.ExtTreeSet.mem_toList.2 ha))

end SortedSet

namespace SortedMap

variable {α : Type u} {β : Type v} [Keyed α]

theorem getElem?_insert_eq (m : SortedMap α β) (a k : α) (b : β) [Decidable (a = k)] :
    (m.insert a b)[k]? = if a = k then some b else m[k]? := by
  rw [Std.ExtTreeMap.getElem?_insert]
  simp only [Keyed.compare_eq_iff]

theorem getElem?_erase_eq (m : SortedMap α β) (a k : α) [Decidable (a = k)] :
    (m.erase a)[k]? = if a = k then none else m[k]? := by
  rw [Std.ExtTreeMap.getElem?_erase]
  simp only [Keyed.compare_eq_iff]

/-- What is found after an insertion has been inserted, or was there under another key. -/
theorem getElem?_insert_eq_some_iff {m : SortedMap α β} {a k : α} {b v : β} :
    (m.insert a b)[k]? = some v ↔ a = k ∧ b = v ∨ a ≠ k ∧ m[k]? = some v := by
  let _ : DecidableEq α := Keyed.decEq
  rw [getElem?_insert_eq]
  split
  · rename_i heq
    rw [Option.some.injEq, and_iff_right heq, or_iff_left fun h ↦ h.1 heq]
  · rename_i hne
    rw [and_iff_right hne, or_iff_right fun h ↦ hne h.1]

/-- What is found after something has been erased was there under another key. -/
theorem getElem?_erase_eq_some_iff {m : SortedMap α β} {a k : α} {v : β} :
    (m.erase a)[k]? = some v ↔ a ≠ k ∧ m[k]? = some v := by
  let _ : DecidableEq α := Keyed.decEq
  rw [getElem?_erase_eq]
  split
  · rename_i heq
    exact ⟨nofun, fun h ↦ absurd heq h.1⟩
  · rename_i hne
    exact (and_iff_right hne).symm

theorem size_insert_of_eq_none {m : SortedMap α β} {k : α} (h : m[k]? = none) (b : β) :
    (m.insert k b).size = m.size + 1 := by
  rw [Std.ExtTreeMap.size_insert, Std.ExtTreeMap.contains_eq_isSome_getElem?, h]
  rfl

theorem size_erase_of_eq_some {m : SortedMap α β} {k : α} {b : β} (h : m[k]? = some b) :
    (m.erase k).size + 1 = m.size := by
  have hcontains : m.contains k = true := by
    rw [Std.ExtTreeMap.contains_eq_isSome_getElem?, h, Option.isSome_some]
  have hpos : m.size ≠ 0 := fun hzero ↦ by
    rw [Std.ExtTreeMap.eq_empty_iff_size_eq_zero.2 hzero, Std.ExtTreeMap.getElem?_empty] at h
    cases h
  rw [Std.ExtTreeMap.size_erase, if_pos hcontains]
  omega

/-- Inserting entries one by one puts them in front of what was there. -/
theorem getElem?_foldl_insert (entries : List (α × β)) (m : SortedMap α β) (k : α) :
    (entries.foldl (fun m e ↦ m.insert e.1 e.2) m)[k]? = (ofList entries)[k]?.or m[k]? := by
  let _ : DecidableEq α := Keyed.decEq
  rw [ofList, Std.ExtTreeMap.ofList_eq_insertMany_empty,
    ← Std.ExtTreeMap.insertMany_list_eq_foldl, Std.ExtTreeMap.getElem?_insertMany_list,
    Std.ExtTreeMap.getElem?_insertMany_list]
  simp

/-- The first entry counts only if no later one has its key. -/
theorem getElem?_ofList_cons (e : α × β) (entries : List (α × β)) (k : α) [Decidable (e.1 = k)] :
    (ofList (e :: entries))[k]? =
      (ofList entries)[k]?.or (if e.1 = k then some e.2 else none) := by
  have hempty (entries : List (α × β)) : (ofList entries)[k]? =
      (entries.foldl (fun m e ↦ m.insert e.1 e.2) (∅ : SortedMap α β))[k]? := by
    rw [getElem?_foldl_insert, Std.ExtTreeMap.getElem?_empty, Option.or_none]
  rw [hempty, List.foldl_cons, getElem?_foldl_insert, getElem?_insert_eq,
    Std.ExtTreeMap.getElem?_empty]

/-- Entries that are left out do not matter to keys that are not. -/
theorem getElem?_ofList_filter (entries : List (α × β)) (p : α → Bool) (k : α) :
    (ofList (entries.filter fun e ↦ p e.1))[k]? = if p k then (ofList entries)[k]? else none := by
  let _ : DecidableEq α := Keyed.decEq
  induction entries with
  | nil => split <;> rfl
  | cons e entries ih =>
    have hcons : (e :: entries).filter (fun e ↦ p e.1) =
        if p e.1 then e :: entries.filter fun e ↦ p e.1 else entries.filter fun e ↦ p e.1 :=
      List.filter_cons
    rw [hcons, getElem?_ofList_cons]
    by_cases hk : e.1 = k
    · rw [hk]
      split
      · rename_i hp
        rw [getElem?_ofList_cons, ih, if_pos hp, hk]
      · rename_i hp
        rw [ih, if_neg hp]
    · rw [if_neg hk, Option.or_none, ← ih]
      split
      · rw [getElem?_ofList_cons, if_neg hk, Option.or_none]
      · rfl

theorem ofList_toList (m : SortedMap α β) : ofList m.toList = m := by
  let _ : DecidableEq α := Keyed.decEq
  refine Std.ExtTreeMap.ext_getElem? fun k ↦ ?_
  cases h : m[k]? with
  | some b =>
    exact Std.ExtTreeMap.getElem?_ofList_of_mem Std.ReflCmp.compare_self
      Std.ExtTreeMap.distinct_keys_toList (Std.ExtTreeMap.mem_toList_iff_getElem?_eq_some.2 h)
  | none =>
    refine Std.ExtTreeMap.getElem?_ofList_of_contains_eq_false ?_
    rw [List.contains_eq_mem, Std.ExtTreeMap.map_fst_toList_eq_keys, decide_eq_false_iff_not,
      Std.ExtTreeMap.mem_keys, Std.ExtTreeMap.mem_iff_isSome_getElem?, h]
    simp

/-- Entries under changed keys are found under the changed key, if the change keeps the keys
apart from each other and from the key they are looked for with. -/
theorem getElem?_ofList_map {γ : Type v} (m : SortedMap α β) (f : α → α) (g : β → γ) {k : α}
    (h : ∀ e ∈ m.toList, f e.1 = f k → e.1 = k) :
    (ofList (m.toList.map fun e ↦ (f e.1, g e.2)))[f k]? = m[k]?.map g := by
  let _ : DecidableEq α := Keyed.decEq
  have hlist : ∀ entries : List (α × β), (∀ e ∈ entries, f e.1 = f k → e.1 = k) →
      (ofList (entries.map fun e ↦ (f e.1, g e.2)))[f k]? = (ofList entries)[k]?.map g := by
    intro entries hentries
    induction entries with
    | nil => rfl
    | cons e entries ih =>
      have htail := ih fun e' he' ↦ hentries e' (List.mem_cons_of_mem _ he')
      rw [List.map_cons, getElem?_ofList_cons, getElem?_ofList_cons, htail, Option.map_or]
      by_cases hk : e.1 = k
      · rw [if_pos hk, if_pos (congrArg f hk), Option.map_some]
      · rw [if_neg hk, if_neg fun heq ↦ hk (hentries e List.mem_cons_self heq), Option.map_none]
  rw [hlist m.toList h, ofList_toList]

end SortedMap

end ScopeGraphs
