import Mathlib.Data.List.Count
import ScopeGraphs.Proofs.Sorted
import ScopeGraphs.Wait.Token

/-!
# Bags of tokens

A `TokenBag` lists tokens with the number of their occurrences. Some questions are answered by what
is listed (`any`, and with it `contains` and `isOpen`; `isEmpty`), others by the numbers (`count`,
`entries`, `size`). This module says of both what a change does to them.

The two kinds of answers agree because no token is listed that is not there (`TokenBag.IsProper`):
a token is listed when its first occurrence is added, and taken off the list with the last one.
-/

namespace ScopeGraphs

namespace Token

variable {t : Token} {s : Scope} {slot : Slot}

theorem keepsOpen_eq_true_iff : t.keepsOpen s slot = true ↔
    t = .initScope s ∨ t = .closeScope s ∨ t = .closeSlot s slot := by
  cases t <;> simp [keepsOpen]

theorem isClosure_of_keepsOpen (h : t.keepsOpen s slot = true) : t.isClosure = true := by
  rcases keepsOpen_eq_true_iff.1 h with rfl | rfl | rfl <;> rfl

end Token

namespace TokenBag

variable {b b' : TokenBag} {t t' : Token} {u u' : UnitId} {p : Token → Bool}

/-! ## What is listed -/

theorem any_eq_true_iff : b.any p = true ↔ ∃ e ∈ b.counts, p e.1 = true := by
  rw [any, List.any_eq_true]
  simp only [Std.ExtTreeMap.mem_keys]

@[simp] theorem any_empty : empty.any p = false := rfl

@[simp] theorem any_add : (b.add t u).any p = (p t || b.any p) := by
  rw [Bool.eq_iff_iff, Bool.or_eq_true, any_eq_true_iff, any_eq_true_iff]
  constructor
  · rintro ⟨e, he, hp⟩
    rcases Std.ExtTreeMap.mem_insert.1 he with heq | he
    · obtain rfl := Keyed.compare_eq_iff.1 heq
      exact .inl hp
    · exact .inr ⟨e, he, hp⟩
  · rintro (hp | ⟨e, he, hp⟩)
    · exact ⟨(t, u), Std.ExtTreeMap.mem_insert_self, hp⟩
    · exact ⟨e, Std.ExtTreeMap.mem_insert.2 (.inr he), hp⟩

theorem remove?_eq_some_iff : b.remove? t u = some b' ↔ ∃ n, b.counts[(t, u)]? = some n ∧
    b' = ⟨if 1 < n then b.counts.insert (t, u) (n - 1) else b.counts.erase (t, u)⟩ := by
  rw [remove?]
  cases b.counts[(t, u)]? with
  | none => simp
  | some n => simp [eq_comm]

/-- What can be removed is what is listed. -/
theorem remove?_isSome_iff : (b.remove? t u).isSome = true ↔ (t, u) ∈ b.counts := by
  rw [remove?, Std.ExtTreeMap.mem_iff_isSome_getElem?]
  cases b.counts[(t, u)]? <;> rfl

theorem mem_of_remove? (h : b.remove? t u = some b') : (t, u) ∈ b.counts :=
  remove?_isSome_iff.1 (Option.isSome_of_eq_some h)

/-- The list after a token was removed. -/
theorem getElem?_of_remove? (h : b.remove? t u = some b') (e : Token × UnitId) :
    b'.counts[e]? =
      if (t, u) = e then (if 1 < b.count t u then some (b.count t u - 1) else none)
      else b.counts[e]? := by
  obtain ⟨n, hn, rfl⟩ := remove?_eq_some_iff.1 h
  rw [count, hn, Option.getD_some]
  by_cases hmore : 1 < n
  · rw [if_pos hmore, if_pos hmore, SortedMap.getElem?_insert_eq]
  · rw [if_neg hmore, if_neg hmore, SortedMap.getElem?_erase_eq]

/-- What is left after a token was granted, apart from further occurrences of the token itself. -/
theorem mem_counts_of_remove? (h : b.remove? t u = some b') {e : Token × UnitId}
    (hne : e ≠ (t, u)) : e ∈ b'.counts ↔ e ∈ b.counts := by
  rw [Std.ExtTreeMap.mem_iff_isSome_getElem?, Std.ExtTreeMap.mem_iff_isSome_getElem?,
    getElem?_of_remove? h, if_neg hne.symm]

theorem any_of_remove? (h : b.remove? t u = some b') (hany : b'.any p = true) : b.any p = true := by
  rw [any_eq_true_iff] at hany ⊢
  obtain ⟨e, he, hp⟩ := hany
  by_cases heq : e = (t, u)
  · exact ⟨e, heq ▸ mem_of_remove? h, hp⟩
  · exact ⟨e, (mem_counts_of_remove? h heq).1 he, hp⟩

/-- Granting a token has no influence on conditions that it does not satisfy. -/
theorem any_remove?_of_not (h : b.remove? t u = some b') (hp : p t = false) :
    b'.any p = b.any p := by
  rw [Bool.eq_iff_iff]
  refine ⟨any_of_remove? h, fun hany ↦ ?_⟩
  rw [any_eq_true_iff] at hany ⊢
  obtain ⟨e, he, hpe⟩ := hany
  have hne : e ≠ (t, u) := by
    rintro rfl
    exact absurd hpe (by simp [hp])
  exact ⟨e, (mem_counts_of_remove? h hne).2 he, hpe⟩

/-- A token in the bag that keeps a slot open does so, whoever is to grant it. -/
theorem isOpen_of_contains {s : Scope} {slot : Slot} (hmem : b.contains t = true)
    (hkeeps : t.keepsOpen s slot = true) : b.isOpen s slot = true := by
  obtain ⟨e, he, htoken⟩ := any_eq_true_iff.1 hmem
  obtain rfl := of_decide_eq_true htoken
  exact any_eq_true_iff.2 ⟨e, he, hkeeps⟩

/-! ## How often it is there -/

@[simp] theorem count_empty : empty.count t u = 0 := rfl

theorem mem_counts_of_count_pos (h : 0 < b.count t u) : (t, u) ∈ b.counts := by
  rw [Std.ExtTreeMap.mem_iff_isSome_getElem?]
  rw [count] at h
  cases hget : b.counts[(t, u)]? with
  | some n => rfl
  | none => simp [hget] at h

theorem count_eq_zero_of_remove? (h : b.remove? t u = none) : b.count t u = 0 := by
  by_contra hcount
  have hlisted := remove?_isSome_iff.2 (mem_counts_of_count_pos (Nat.pos_of_ne_zero hcount))
  rw [h] at hlisted
  cases hlisted

theorem count_add : (b.add t u).count t' u' =
    (if (t, u) = (t', u') then 1 else 0) + b.count t' u' := by
  rw [count, add, SortedMap.getElem?_insert_eq]
  split
  · rename_i heq
    obtain ⟨rfl, rfl⟩ := Prod.mk.inj heq
    exact Nat.add_comm _ _
  · exact (Nat.zero_add _).symm

theorem count_of_remove? (h : b.remove? t u = some b') : b'.count t' u' =
    b.count t' u' - if (t, u) = (t', u') then 1 else 0 := by
  rw [count, getElem?_of_remove? h]
  split
  · rename_i heq
    obtain ⟨rfl, rfl⟩ := Prod.mk.inj heq
    split
    · rfl
    · rename_i hlast
      rw [Option.getD_none]
      omega
  · rfl

theorem isOpen_of_count {s : Scope} {slot : Slot} (hcount : 0 < b.count t u)
    (hkeeps : t.keepsOpen s slot = true) : b.isOpen s slot = true :=
  any_eq_true_iff.2 ⟨(t, u), mem_counts_of_count_pos hcount, hkeeps⟩

/-! ## Occurrence by occurrence -/

private theorem count_flatMap_replicate_of_notMem {l : List ((Token × UnitId) × Nat)}
    {k : Token × UnitId} (hk : k ∉ l.map Prod.fst) :
    (l.flatMap fun e ↦ List.replicate e.2 e.1).count k = 0 := by
  rw [List.count_eq_zero, List.mem_flatMap]
  rintro ⟨e, he, hmem⟩
  exact hk (List.mem_map.2 ⟨e, he, (List.eq_of_mem_replicate hmem).symm⟩)

private theorem count_flatMap_replicate {l : List ((Token × UnitId) × Nat)}
    (hl : (l.map Prod.fst).Nodup) {e : (Token × UnitId) × Nat} (he : e ∈ l) :
    (l.flatMap fun e ↦ List.replicate e.2 e.1).count e.1 = e.2 := by
  induction l with
  | nil => exact absurd he List.not_mem_nil
  | cons d l ih =>
    rw [List.map_cons, List.nodup_cons] at hl
    rw [List.flatMap_cons, List.count_append, List.count_replicate]
    obtain rfl | he := List.mem_cons.1 he
    · rw [count_flatMap_replicate_of_notMem hl.1, if_pos (beq_self_eq_true _), Nat.add_zero]
    · have hne : (d.1 == e.1) = false :=
        beq_eq_false_iff_ne.2 fun heq ↦ hl.1 (heq ▸ List.mem_map_of_mem he)
      rw [ih hl.2 he, hne, if_neg Bool.false_ne_true, Nat.zero_add]

/-- Every occurrence of a token is listed once. -/
theorem count_entries : b.entries.count (t, u) = b.count t u := by
  rw [count, entries]
  cases hget : b.counts[(t, u)]? with
  | some n =>
    have hnodup : (b.counts.toList.map Prod.fst).Nodup := by
      rw [Std.ExtTreeMap.map_fst_toList_eq_keys]
      exact Std.ExtTreeMap.nodup_keys
    exact count_flatMap_replicate hnodup (Std.ExtTreeMap.mem_toList_iff_getElem?_eq_some.2 hget)
  | none =>
    have hnot : (t, u) ∉ b.counts.toList.map Prod.fst := by
      rw [Std.ExtTreeMap.map_fst_toList_eq_keys, Std.ExtTreeMap.mem_keys,
        Std.ExtTreeMap.mem_iff_isSome_getElem?, hget]
      exact Bool.false_ne_true
    exact count_flatMap_replicate_of_notMem hnot

theorem length_entries (b : TokenBag) : b.entries.length = b.size := by
  simp only [entries, List.length_flatMap, List.length_replicate]
  exact List.foldr_map

theorem perm_entries_add : (b.add t u).entries.Perm ((t, u) :: b.entries) := by
  refine List.perm_iff_count.2 fun e ↦ ?_
  rw [count_entries, count_add, List.count_cons, count_entries, Nat.add_comm]
  simp only [beq_iff_eq]

/-! ## Bags without idle entries -/

/-- Every token that is listed is there. -/
structure IsProper (b : TokenBag) : Prop where
  pos : ∀ {t u}, (t, u) ∈ b.counts → 0 < b.count t u

namespace IsProper

theorem add (h : b.IsProper) (t : Token) (u : UnitId) : (b.add t u).IsProper := by
  refine ⟨fun {t' u'} hmem ↦ ?_⟩
  rw [count_add]
  split
  · omega
  · rename_i hne
    rw [Nat.zero_add]
    exact h.pos ((Std.ExtTreeMap.mem_insert.1 hmem).resolve_left fun heq ↦
      hne (Keyed.compare_eq_iff.1 heq))

theorem remove? (h : b.IsProper) (hb : b.remove? t u = some b') : b'.IsProper := by
  refine ⟨fun {t' u'} hmem ↦ ?_⟩
  rw [count_of_remove? hb]
  split
  · -- The last occurrence is taken off the list.
    rename_i heq
    rw [Std.ExtTreeMap.mem_iff_isSome_getElem?, getElem?_of_remove? hb, if_pos heq] at hmem
    obtain ⟨rfl, rfl⟩ := Prod.mk.inj heq
    split at hmem
    · omega
    · cases hmem
  · rename_i hne
    exact h.pos ((mem_counts_of_remove? hb (Ne.symm hne)).1 hmem)

theorem perm_cons_entries (h : b.IsProper) (hb : b.remove? t u = some b') :
    b.entries.Perm ((t, u) :: b'.entries) := by
  refine List.perm_iff_count.2 fun (t', u') ↦ ?_
  have hpos := h.pos (mem_of_remove? hb)
  rw [count_entries, List.count_cons, count_entries, count_of_remove? hb]
  simp only [beq_iff_eq]
  split
  · rename_i heq
    obtain ⟨rfl, rfl⟩ := Prod.mk.inj heq
    omega
  · rfl

theorem mem_entries_iff (h : b.IsProper) {e : Token × UnitId} : e ∈ b.entries ↔ e ∈ b.counts := by
  rw [← List.count_pos_iff, count_entries]
  exact ⟨mem_counts_of_count_pos, h.pos⟩

theorem any_eq_true_iff (h : b.IsProper) : b.any p = true ↔ ∃ e ∈ b.entries, p e.1 = true := by
  simp only [TokenBag.any_eq_true_iff, h.mem_entries_iff]

theorem isEmpty_iff (h : b.IsProper) : b.isEmpty = true ↔ b.size = 0 := by
  rw [isEmpty, Std.ExtTreeMap.isEmpty_iff, ← length_entries, List.length_eq_zero_iff,
    List.eq_nil_iff_forall_not_mem]
  simp only [h.mem_entries_iff]
  constructor
  · intro hnone e
    rw [hnone]
    exact Std.ExtTreeMap.not_mem_empty
  · intro hnone
    refine Std.ExtTreeMap.ext_getElem? fun e ↦ ?_
    rw [Std.ExtTreeMap.getElem?_empty]
    exact Std.ExtTreeMap.getElem?_eq_none (hnone e)

/-- In a proper bag without closure tokens no slot is open. -/
theorem isOpen_eq_false (h : b.IsProper) (hnone : ∀ t u, t.isClosure = true → b.count t u = 0)
    (s : Scope) (slot : Slot) : b.isOpen s slot = false := by
  rw [Bool.eq_false_iff, isOpen, Ne, TokenBag.any_eq_true_iff]
  rintro ⟨⟨t, u⟩, hmem, hopen⟩
  exact absurd (hnone t u (Token.isClosure_of_keepsOpen hopen)) (Nat.ne_of_gt (h.pos hmem))

end IsProper

theorem isProper_empty : empty.IsProper := ⟨fun h ↦ absurd h Std.ExtTreeMap.not_mem_empty⟩

end TokenBag

end ScopeGraphs
