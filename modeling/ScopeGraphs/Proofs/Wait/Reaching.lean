import Mathlib.Logic.Relation
import ScopeGraphs.Wait.Graph
import ScopeGraphs.Proofs.Sorted

/-!
# Who waits for whom, at any distance

The wait-for graph finds what a unit reaches by adding, in rounds, the units that the ones found so
far wait for, and stops after a fixed number of rounds. Here that set is shown to be what it should
be: the units that some chain of waits leads to (`WaitGraph.Reaches`), whatever the graph, parallel
waits and waits of a unit for itself included.

## Why the rounds are enough

A round that finds nothing new ends the search, so every other round adds a unit. What can be found
at all is the unit itself and the holders of the edges, and there is one more round than there are
edges (`WaitGraph.closed_spread`).
-/

namespace ScopeGraphs

variable {τ : Type}

namespace WaitGraph

/-- The first unit waits for something that the second one is expected to grant. -/
def WaitsFor (g : WaitGraph τ) (u v : UnitId) : Prop :=
  ∃ e ∈ g.edges, e.waiter = u ∧ e.holder = v

/-- A chain of waits, which may be empty, leads from the first unit to the second one. -/
def Reaches (g : WaitGraph τ) : UnitId → UnitId → Prop := Relation.ReflTransGen g.WaitsFor

variable {g : WaitGraph τ} {u v w : UnitId} {us : SortedSet UnitId}

theorem Reaches.refl : g.Reaches u u := Relation.ReflTransGen.refl

theorem Reaches.trans (h₁ : g.Reaches u v) (h₂ : g.Reaches v w) : g.Reaches u w :=
  Relation.ReflTransGen.trans h₁ h₂

theorem WaitsFor.reaches (h : g.WaitsFor u v) : g.Reaches u v := Relation.ReflTransGen.single h

theorem waits_eq_true_iff : g.waits u = true ↔ ∃ e ∈ g.edges, e.waiter = u := by
  rw [waits, List.any_eq_true]
  simp only [decide_eq_true_eq]

/-- Whoever reaches another unit waits for something. -/
theorem Reaches.waits (h : g.Reaches u v) (hne : u ≠ v) : g.waits u = true := by
  obtain rfl | ⟨w, ⟨e, he, hu, -⟩, -⟩ := Relation.ReflTransGen.cases_head h
  · exact absurd rfl hne
  · exact waits_eq_true_iff.2 ⟨e, he, hu⟩

theorem mem_holdersOf : v ∈ g.holdersOf u ↔ g.WaitsFor u v := by
  rw [holdersOf, List.mem_map]
  simp only [List.mem_filter, decide_eq_true_eq, and_assoc]
  rfl

theorem mem_units : u ∈ g.units ↔ ∃ e ∈ g.edges, e.waiter = u ∨ e.holder = u := by
  rw [units, Std.ExtTreeSet.mem_toList, SortedSet.mem_ofList, List.mem_flatMap]
  simp only [List.mem_cons, List.not_mem_nil, or_false, eq_comm]

theorem mem_units_of_waits (h : g.waits u = true) : u ∈ g.units := by
  obtain ⟨e, he, hu⟩ := waits_eq_true_iff.1 h
  exact mem_units.2 ⟨e, he, .inl hu⟩

/-! ## One round -/

/-- A set of units together with what its members wait for. -/
def advance (g : WaitGraph τ) (us : SortedSet UnitId) : SortedSet UnitId :=
  us.toList.foldl (fun s u ↦ (g.holdersOf u).foldl (fun s v ↦ s.insert v) s) us

theorem spread_succ (n : Nat) :
    g.spread (n + 1) us =
      if (g.advance us).size = us.size then us else g.spread n (g.advance us) :=
  rfl

theorem mem_advance : v ∈ g.advance us ↔ v ∈ us ∨ ∃ u ∈ us, g.WaitsFor u v := by
  have hfold (l : List UnitId) (s : SortedSet UnitId) :
      v ∈ l.foldl (fun s u ↦ (g.holdersOf u).foldl (fun s v ↦ s.insert v) s) s ↔
        v ∈ s ∨ ∃ u ∈ l, g.WaitsFor u v := by
    induction l generalizing s with
    | nil => simp
    | cons u l ih =>
      rw [List.foldl_cons, ih, SortedSet.mem_foldl_insert, mem_holdersOf, or_comm (b := v ∈ s),
        or_assoc]
      simp only [List.mem_cons, exists_eq_or_imp]
  rw [advance, hfold]
  simp only [Std.ExtTreeSet.mem_toList]

/-! ## All rounds -/

theorem mem_spread_of_mem (n : Nat) (h : v ∈ us) : v ∈ g.spread n us := by
  induction n generalizing us with
  | zero => exact h
  | succ n ih =>
    rw [spread_succ]
    split
    · exact h
    · exact ih (mem_advance.2 (.inl h))

/-- What the rounds find is reached from where they begin. -/
theorem exists_reaches_of_mem_spread (n : Nat) (h : v ∈ g.spread n us) :
    ∃ u ∈ us, g.Reaches u v := by
  induction n generalizing us with
  | zero => exact ⟨v, h, .refl⟩
  | succ n ih =>
    rw [spread_succ] at h
    split at h
    · exact ⟨v, h, .refl⟩
    · obtain ⟨w, hw, hwv⟩ := ih h
      obtain hw | ⟨u, hu, huw⟩ := mem_advance.1 hw
      · exact ⟨w, hw, hwv⟩
      · exact ⟨u, hu, huw.reaches.trans hwv⟩

/-- If there are more rounds than units that can still be found then the last one finds nothing
new: what the members wait for are members. -/
theorem closed_spread (all : List UnitId) {n : Nat} (hus : ∀ v ∈ us, v ∈ all)
    (hall : ∀ u v, g.WaitsFor u v → v ∈ all) (hn : all.length < us.size + n)
    (hu : u ∈ g.spread n us) (huv : g.WaitsFor u v) : v ∈ g.spread n us := by
  -- Every round but the last adds a unit, so the number of units that can still be found and the
  -- number of rounds go down together.
  induction n generalizing us with
  | zero =>
    have := SortedSet.size_le_length hus
    omega
  | succ n ih =>
    have hsub : ∀ w ∈ us, w ∈ g.advance us := fun w hw ↦ mem_advance.2 (.inl hw)
    rw [spread_succ] at hu ⊢
    split at hu
    · rename_i hsize
      rw [if_pos hsize]
      exact SortedSet.mem_of_size_le hsub (Nat.le_of_eq hsize) (mem_advance.2 (.inr ⟨u, hu, huv⟩))
    · rename_i hsize
      rw [if_neg hsize]
      have hgrows : us.size < (g.advance us).size := by
        have hle : us.size ≤ (g.advance us).size := by
          rw [← Std.ExtTreeSet.length_toList (t := g.advance us)]
          exact SortedSet.size_le_length fun w hw ↦ Std.ExtTreeSet.mem_toList.2 (hsub w hw)
        omega
      refine ih ?_ (by omega) hu
      intro w hw
      obtain hw | ⟨x, -, hxw⟩ := mem_advance.1 hw
      · exact hus w hw
      · exact hall x w hxw

/-- **Reachability.** The set computed for a unit holds exactly the units that a chain of waits
leads to. -/
theorem mem_reach : v ∈ g.reach u ↔ g.Reaches u v := by
  constructor
  · intro h
    obtain ⟨w, hw, hwv⟩ := exists_reaches_of_mem_spread _ h
    obtain rfl : w = u := by simpa using hw
    exact hwv
  · intro h
    induction h with
    | refl => exact mem_spread_of_mem _ (by simp)
    | tail _ hwv ih =>
      refine closed_spread (u :: g.edges.map WaitEdge.holder) (by simp) ?_ ?_ ih hwv
      · rintro x _ ⟨e, he, -, rfl⟩
        exact List.mem_cons_of_mem _ (List.mem_map_of_mem he)
      · have hsize : (SortedSet.ofList [u]).size = 1 := by
          rw [SortedSet.ofList, Std.ExtTreeSet.ofList_singleton]
          rfl
        rw [List.length_cons, List.length_map, hsize]
        omega

end WaitGraph

end ScopeGraphs
