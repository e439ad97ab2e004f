import ScopeGraphs.Graph.Basic
import ScopeGraphs.Graph.Path
import ScopeGraphs.Proofs.Sorted
import ScopeGraphs.Query.Pattern

/-!
# Paths step by step

What `Path.step?` does to the parts of a path, the edges that a path walks along, and the patterns
that are left after the word it spells.
-/

namespace ScopeGraphs

namespace Path

variable {p q : Path} {l : Label} {s : Scope}

@[simp] theorem source_start (s : Scope) : (start s).source = s := rfl

@[simp] theorem steps_start (s : Scope) : (start s).steps = [] := rfl

@[simp] theorem target_start (s : Scope) : (start s).target = s := rfl

@[simp] theorem scopes_start (s : Scope) : (start s).scopes = [s] := rfl

@[simp] theorem target_concat (s : Scope) (steps : List (Label × Scope)) (e : Label × Scope) :
    target ⟨s, steps ++ [e]⟩ = e.2 := by
  simp [target]

theorem target_cons (s : Scope) (e : Label × Scope) (steps : List (Label × Scope)) :
    target ⟨s, e :: steps⟩ = target ⟨e.2, steps⟩ := by
  cases h : steps.getLast? <;> simp [target, List.getLast?_cons, h]

theorem target_mem_scopes (p : Path) : p.target ∈ p.scopes := by
  obtain ⟨s, steps⟩ := p
  induction steps generalizing s with
  | nil => simp [target, scopes]
  | cons e steps ih =>
    rw [target_cons]
    exact List.mem_cons_of_mem _ (ih e.2)

/-- A path is extended exactly by a scope it has not visited. -/
theorem step?_eq_some_iff :
    p.step? l s = some q ↔ s ∉ p.scopes ∧ q = ⟨p.source, p.steps ++ [(l, s)]⟩ := by
  rw [step?, contains]
  by_cases hs : s ∈ p.scopes
  · simp [hs]
  · simp [hs, eq_comm]

theorem steps_of_step? (h : p.step? l s = some q) : q.steps = p.steps ++ [(l, s)] := by
  rw [(step?_eq_some_iff.1 h).2]

theorem source_of_step? (h : p.step? l s = some q) : q.source = p.source := by
  rw [(step?_eq_some_iff.1 h).2]

theorem target_of_step? (h : p.step? l s = some q) : q.target = s := by
  rw [(step?_eq_some_iff.1 h).2, target_concat]

theorem scopes_of_step? (h : p.step? l s = some q) : q.scopes = p.scopes ++ [s] := by
  rw [(step?_eq_some_iff.1 h).2, scopes, scopes]
  simp

theorem labels_of_step? (h : p.step? l s = some q) : q.labels = p.labels ++ [l] := by
  rw [(step?_eq_some_iff.1 h).2, labels, labels]
  simp

theorem not_mem_of_step? (h : p.step? l s = some q) : s ∉ p.scopes := (step?_eq_some_iff.1 h).1

/-! ## Edges -/

/-- The edges along a walk with the given steps. -/
def edgesFrom : Scope → List (Label × Scope) → List Edge
  | _, [] => []
  | s, (l, t) :: steps => ⟨s, l, t⟩ :: edgesFrom t steps

/-- The edges that a path walks along. -/
def edges (p : Path) : List Edge := edgesFrom p.source p.steps

/-- A walk that goes on walks along the edges of its continuation. -/
theorem edgesFrom_append (s : Scope) (as bs : List (Label × Scope)) :
    edgesFrom s (as ++ bs) = edgesFrom s as ++ edgesFrom (target ⟨s, as⟩) bs := by
  induction as generalizing s with
  | nil => rfl
  | cons e as ih =>
    rw [List.cons_append, edgesFrom, edgesFrom, ih, target_cons, List.cons_append]

theorem edges_of_step? (h : p.step? l s = some q) : q.edges = p.edges ++ [⟨p.target, l, s⟩] := by
  rw [(step?_eq_some_iff.1 h).2, edges, edgesFrom_append]
  rfl

end Path

/-! ## Patterns and graphs -/

/-- The pattern left after a word is the one left after its parts in turn. -/
theorem Pattern.run?_append (p : Pattern) (v w : List Label) :
    p.run? (v ++ w) = (p.run? v).bind fun q ↦ q.run? w := by
  induction v generalizing p with
  | nil => rfl
  | cons l v ih =>
    rw [List.cons_append, run?, run?, Option.bind_assoc]
    exact congrArg _ (funext fun q ↦ ih q)

/-- The targets of a scope are read off the edges. -/
theorem ScopeGraph.mem_targets {g : ScopeGraph} {s t : Scope} {l : Label} :
    t ∈ g.targets s l ↔ (⟨s, l, t⟩ : Edge) ∈ g.edges := by
  rw [targets, List.mem_filterMap]
  constructor
  · rintro ⟨e, he, h⟩
    split at h
    · rename_i heq
      obtain ⟨rfl, rfl⟩ := heq
      obtain rfl := Option.some.inj h
      exact Std.ExtTreeSet.mem_toList.1 he
    · exact absurd h (by simp)
  · intro h
    exact ⟨⟨s, l, t⟩, Std.ExtTreeSet.mem_toList.2 h, by simp⟩

theorem ScopeGraph.mem_scopes_of_mem_targets {g : ScopeGraph} {s t : Scope} {l : Label}
    (h : t ∈ g.targets s l) : t ∈ g.scopes := by
  rw [scopes, SortedSet.mem_ofList, List.mem_append, List.mem_flatMap]
  exact .inl ⟨_, Std.ExtTreeSet.mem_toList.2 (mem_targets.1 h), by simp⟩

end ScopeGraphs
