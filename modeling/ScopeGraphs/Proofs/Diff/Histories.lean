import ScopeGraphs.Proofs.Diff.Spreading

/-!
# Everything that was asked of a differ

A differ is used by many hands: pairs are told to it when sub-units are handed scopes, the queue is
asked for its next scope, and scopes are diffed in any order, by then maybe against a graph that has
grown. An `Operation` is one such request, and `Differ.performAll` what a history of them leads to.
No request makes a differ forget a pair or a difference (`Differ.later_performAll`).
-/

namespace ScopeGraphs

namespace Differ

/-- A request to a differ. -/
inductive Operation where
  /-- Record that two scopes are counterparts, unless that conflicts with known pairs. -/
  | matchScopes (previous current : Scope)
  /-- Take the next scope of the queue. -/
  | nextUnexplored
  /-- Diff a scope of a current graph. -/
  | diff (s : Scope) (graph : ScopeGraph) (labels : List Label)

/-- What a request makes of a differ. -/
def perform (d : Differ) : Operation → Differ
  | .matchScopes previous current => d.pair previous current
  | .nextUnexplored => d.nextUnexplored.2
  | .diff s graph labels => (d.diff s graph labels).2

/-- What a history of requests makes of a differ. -/
def performAll (d : Differ) (history : List Operation) : Differ := history.foldl perform d

variable {d : Differ}

@[simp] theorem performAll_nil (d : Differ) : d.performAll [] = d := rfl

@[simp] theorem performAll_cons (d : Differ) (o : Operation) (history : List Operation) :
    d.performAll (o :: history) = (d.perform o).performAll history := rfl

/-- Taking up a scope changes the queue only. -/
theorem later_nextUnexplored (d : Differ) : d.Later d.nextUnexplored.2 := by
  rcases d.nextUnexplored_cases with ⟨c, rest, heq, -⟩ | ⟨heq, -⟩
  · rw [heq]
    exact ⟨⟨rfl, fun hx ↦ hx, d.pairs.le_refl⟩, rfl, rfl⟩
  · rw [heq]
    exact ⟨⟨rfl, fun hx ↦ hx, d.pairs.le_refl⟩, rfl, rfl⟩

/-- Diffing a scope learns and queues pairs, and otherwise changes the stored differences only. -/
theorem exists_queues_of_diff (d : Differ) (s : Scope) (graph : ScopeGraph) (labels : List Label) :
    ∃ e diffs, (d.diff s graph labels).2 = { e with diffs := diffs } ∧ d.Queues e := by
  cases hx : d.diffOf? s with
  | some x =>
    rw [Differ.diff, hx]
    exact ⟨d, d.diffs, rfl, .refl d⟩
  | none =>
    cases hp : d.previousOf? s with
    | none =>
      rw [Differ.diff, hx]
      simp only [hp]
      exact ⟨d, d.diffs, rfl, .refl d⟩
    | some p =>
      obtain ⟨e, x, heq, hqueues⟩ := exists_queues_diff graph labels hx hp
      exact ⟨e, _, heq, hqueues⟩

theorem later_diff (d : Differ) (s : Scope) (graph : ScopeGraph) (labels : List Label) :
    d.Later (d.diff s graph labels).2 := by
  have hgrows := (d.grows_diff s graph labels).1
  obtain ⟨e, diffs, heq, hqueues⟩ := d.exists_queues_of_diff s graph labels
  rw [heq] at hgrows ⊢
  exact ⟨hgrows, hqueues.owner, hqueues.seeds⟩

theorem later_perform (d : Differ) (o : Operation) : d.Later (d.perform o) := by
  rcases o with ⟨previous, current⟩ | _ | ⟨s, graph, labels⟩
  · exact (d.queues_pair previous current).later
  · exact d.later_nextUnexplored
  · exact d.later_diff s graph labels

/-- **Nothing is forgotten**, whatever is asked of a differ. -/
theorem later_performAll (d : Differ) (history : List Operation) :
    d.Later (d.performAll history) := by
  induction history generalizing d with
  | nil => exact .refl d
  | cons o history ih => exact (d.later_perform o).trans (ih (d.perform o))

end Differ

end ScopeGraphs
