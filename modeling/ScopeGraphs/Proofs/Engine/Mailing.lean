import Mathlib.Data.Multiset.Filter
import ScopeGraphs.Engine.Mailboxes
import ScopeGraphs.Proofs.Sorted

/-!
# What is in the mailboxes

Mailboxes keep the messages of every unit in order and let units take turns. Where the order does
not matter they are a multiset: sending adds to it, and as long as there is anything in it one
element is taken out.
-/

namespace ScopeGraphs

namespace Mailboxes

variable {μ : Type} {b : Mailboxes μ} {ms : Multiset (UnitId × μ)}

/-- The messages to a unit among others. -/
def addressed (u : UnitId) (ms : Multiset (UnitId × μ)) : Multiset μ :=
  (ms.filter fun e ↦ e.1 = u).map Prod.snd

theorem addressed_cons (u : UnitId) (e : UnitId × μ) (ms : Multiset (UnitId × μ)) :
    addressed u (e ::ₘ ms) = if e.1 = u then e.2 ::ₘ addressed u ms else addressed u ms := by
  rw [addressed, Multiset.filter_cons, Multiset.map_add]
  split <;> simp [addressed]

theorem mem_addressed {u : UnitId} {m : μ} : m ∈ addressed u ms ↔ (u, m) ∈ ms := by
  rw [addressed, Multiset.mem_map]
  constructor
  · rintro ⟨⟨v, m'⟩, he, rfl⟩
    obtain ⟨he, heq⟩ := Multiset.mem_filter.1 he
    exact heq ▸ he
  · intro hm
    exact ⟨(u, m), Multiset.mem_filter.2 ⟨hm, rfl⟩, rfl⟩

/-! ## The line of units -/

theorem box_enqueue (u : UnitId) (m : μ) (v : UnitId) :
    (b.enqueue u m).box v = if u = v then b.box u ++ [m] else b.box v := by
  rw [Mailboxes.box, enqueue, SortedMap.getElem?_insert_eq]
  split <;> rfl

theorem box_taken (u : UnitId) (rest : List UnitId) (messages : List μ) (v : UnitId) :
    (b.taken u rest messages).box v = if u = v then messages else b.box v := by
  rw [Mailboxes.box, taken, SortedMap.getElem?_insert_eq]
  split <;> rfl

/-- The units with messages stand in line, each of them once. -/
structure InLine (b : Mailboxes μ) : Prop where
  runnable : ∀ u, u ∈ b.runnable ↔ b.box u ≠ []
  scheduled : ∀ u, u ∈ b.scheduled ↔ b.box u ≠ []
  nodup : b.runnable.Nodup

theorem inLine_of_empty (hboxes : b.boxes = ∅) (hrunnable : b.runnable = [])
    (hscheduled : b.scheduled = ∅) : b.InLine := by
  have hbox (u : UnitId) : b.box u = [] := by
    rw [Mailboxes.box, hboxes, Std.ExtTreeMap.getElem?_empty]
    rfl
  refine ⟨fun u ↦ ?_, fun u ↦ ?_, hrunnable ▸ List.nodup_nil⟩
  · rw [hrunnable, hbox]
    simp
  · rw [hscheduled, hbox]
    simp

namespace InLine

theorem mem_scheduled_iff (h : b.InLine) (u : UnitId) : u ∈ b.scheduled ↔ u ∈ b.runnable :=
  (h.scheduled u).trans (h.runnable u).symm

theorem enqueue (h : b.InLine) (u : UnitId) (m : μ) : (b.enqueue u m).InLine := by
  have hcontains : b.scheduled.contains u = true ↔ u ∈ b.runnable := h.mem_scheduled_iff u
  have hmem (v : UnitId) : v ∈ (b.enqueue u m).runnable ↔ u = v ∨ v ∈ b.runnable := by
    rw [Mailboxes.enqueue]
    dsimp only
    split
    · rename_i hu
      exact ⟨.inr, fun hv ↦ hv.elim (· ▸ hcontains.1 hu) id⟩
    · rw [List.mem_append, List.mem_singleton, or_comm, eq_comm]
  have hbox (v : UnitId) : (b.enqueue u m).box v ≠ [] ↔ u = v ∨ b.box v ≠ [] := by
    rw [box_enqueue]
    split
    · rename_i heq
      simp [heq]
    · rename_i hne
      exact (or_iff_right hne).symm
  refine ⟨fun v ↦ ?_, fun v ↦ ?_, ?_⟩
  · rw [hmem, hbox, h.runnable]
  · rw [hbox, ← h.scheduled, Mailboxes.enqueue, SortedSet.mem_insert_iff, eq_comm]
  · rw [Mailboxes.enqueue]
    dsimp only
    split
    · exact h.nodup
    · rename_i hu
      rw [List.nodup_append]
      refine ⟨h.nodup, List.nodup_singleton u, fun v hv w hw heq ↦ hu (hcontains.2 ?_)⟩
      rwa [← List.mem_singleton.1 hw, ← heq]

/-- Only the mailbox of the first in line changes; with messages left, its unit lines up again. -/
theorem taken (h : b.InLine) {u : UnitId} {rest : List UnitId} (hrunnable : b.runnable = u :: rest)
    (messages : List μ) : (b.taken u rest messages).InLine := by
  obtain ⟨hu, hrest⟩ := List.nodup_cons.1 (hrunnable ▸ h.nodup)
  have hbehind (v : UnitId) (hne : u ≠ v) : v ∈ rest ↔ b.box v ≠ [] := by
    rw [← h.runnable, hrunnable, List.mem_cons, or_iff_right (Ne.symm hne)]
  refine ⟨fun v ↦ ?_, fun v ↦ ?_, ?_⟩
  · rw [box_taken]
    by_cases heq : u = v
    · obtain rfl := heq
      rw [if_pos rfl]
      cases messages <;> simp [Mailboxes.taken, hu]
    · rw [if_neg heq, ← hbehind v heq]
      cases messages <;> simp [Mailboxes.taken, Ne.symm heq]
  · rw [box_taken]
    by_cases heq : u = v
    · obtain rfl := heq
      have hscheduled : u ∈ b.scheduled :=
        (h.mem_scheduled_iff u).2 (hrunnable ▸ List.mem_cons_self)
      rw [if_pos rfl]
      cases messages <;> simp [Mailboxes.taken, hscheduled]
    · rw [if_neg heq, ← h.scheduled]
      cases messages <;> simp [Mailboxes.taken, heq]
  · cases messages with
    | nil => exact hrest
    | cons _ _ =>
      refine List.nodup_append.2 ⟨hrest, List.nodup_singleton u, fun v hv w hw heq ↦ hu ?_⟩
      rwa [← List.mem_singleton.1 hw, ← heq]

/-- Nobody in line is passed over: either no unit has messages, or the first in line has one, which
is taken out. -/
theorem next (h : b.InLine) :
    ((∀ u, b.box u = []) ∧ b.next = none) ∨
      ∃ u m messages rest, b.runnable = u :: rest ∧ b.box u = m :: messages ∧
        b.next = some ((u, m), b.taken u rest messages) := by
  cases hrunnable : b.runnable with
  | nil =>
    refine .inl ⟨fun u ↦ ?_, by rw [Mailboxes.next, hrunnable, nextOf]⟩
    have hu := h.runnable u
    rw [hrunnable] at hu
    simpa using hu
  | cons u rest =>
    have hbox : b.box u ≠ [] := (h.runnable u).1 (hrunnable ▸ List.mem_cons_self)
    obtain ⟨m, messages, hmessages⟩ := List.exists_cons_of_ne_nil hbox
    refine .inr ⟨u, m, messages, rest, rfl, hmessages, ?_⟩
    rw [Mailboxes.next, hrunnable, nextOf, hmessages]

end InLine

/-! ## The messages as a multiset -/

/-- The mailboxes of the units that exist hold exactly the given messages. -/
structure Carries (b : Mailboxes μ) (ms : Multiset (UnitId × μ)) : Prop extends b.InLine where
  box : ∀ u, (b.box u : Multiset μ) = addressed u ms

theorem carries_zero (hboxes : b.boxes = ∅) (hrunnable : b.runnable = [])
    (hscheduled : b.scheduled = ∅) : b.Carries 0 where
  toInLine := inLine_of_empty hboxes hrunnable hscheduled
  box u := by
    rw [Mailboxes.box, hboxes, Std.ExtTreeMap.getElem?_empty]
    rfl

namespace Carries

theorem enqueue (h : b.Carries ms) (u : UnitId) (m : μ) :
    (b.enqueue u m).Carries ((u, m) ::ₘ ms) where
  toInLine := h.toInLine.enqueue u m
  box v := by
    rw [box_enqueue, addressed_cons]
    split
    · rename_i heq
      rw [← heq, ← h.box u, Multiset.cons_coe, Multiset.coe_eq_coe]
      exact List.perm_append_singleton m _
    · exact h.box v

/-- As long as there is a message, one is taken out. -/
theorem next (h : b.Carries ms) :
    (ms = 0 ∧ b.next = none) ∨
      ∃ e b' ms', b.next = some (e, b') ∧ ms = e ::ₘ ms' ∧ b'.Carries ms' := by
  have hmem {u : UnitId} {m : μ} : m ∈ b.box u ↔ (u, m) ∈ ms := by
    rw [← Multiset.mem_coe, h.box u, mem_addressed]
  obtain ⟨hempty, hnone⟩ | ⟨u, m, messages, rest, hrunnable, hmessages, hnext⟩ := h.toInLine.next
  · refine .inl ⟨Multiset.eq_zero_of_forall_notMem fun e he ↦ ?_, hnone⟩
    have he : e.2 ∈ b.box e.1 := hmem.2 he
    rw [hempty e.1] at he
    exact absurd he List.not_mem_nil
  · obtain ⟨ms', rfl⟩ := Multiset.exists_cons_of_mem (hmem.1 (hmessages ▸ List.mem_cons_self))
    refine .inr ⟨(u, m), _, ms', hnext, rfl, h.toInLine.taken hrunnable messages, fun v ↦ ?_⟩
    have hv := h.box v
    rw [addressed_cons] at hv
    rw [box_taken]
    split at hv
    · rename_i heq
      obtain rfl : u = v := heq
      rw [hmessages, ← Multiset.cons_coe] at hv
      rw [if_pos rfl]
      exact (Multiset.cons_inj_right m).1 hv
    · rename_i hne
      rw [if_neg hne, hv]

end Carries

end Mailboxes

end ScopeGraphs
