import ScopeGraphs.Proofs.Diff.Differences

/-!
# Comparisons with a decided outcome

What a comparison of two scopes finds depends on what is known by then: a target with the datum of a
previous one may take its place, unless one of the two has got another partner before. A renaming
*decides* the comparisons of a differ if this makes no difference (`Differ.Decided`): whatever part of
the renaming is known, a comparison finds exactly the pairs of the renaming among the targets of the
two scopes.

Whatever a comparison finds is put in the queue (`Differ.Queues`), and nothing else is. It reads no
more of a graph than the targets of one scope and their data (`Differ.pairs_diff_congr`).
-/

namespace ScopeGraphs

/-- What a comparison of a scope reads in a graph is the same in another one: the targets of the scope
and their data. -/
structure ScopeGraph.ReadsAs (now graph : ScopeGraph) (s : Scope) (labels : List Label) : Prop where
  targets : ∀ l ∈ labels, now.targets s l = graph.targets s l
  data : ∀ l ∈ labels, ∀ t ∈ graph.targets s l, now.datum? t = graph.datum? t

theorem ScopeGraph.ReadsAs.refl (graph : ScopeGraph) (s : Scope) (labels : List Label) :
    graph.ReadsAs graph s labels :=
  ⟨fun _ _ ↦ rfl, fun _ _ _ _ ↦ rfl⟩

namespace Differ

variable {d d' d'' : Differ} {graph now : ScopeGraph} {labels ls : List Label} {r : Renaming}
  {previous current s p : Scope}

/-! ## Queueing what was learnt -/

/-- The second differ knows more pairs than the first one, and has queued their current scopes. -/
structure Queues (d d' : Differ) : Prop extends d.Learns d' where
  owner : d'.owner = d.owner
  seeds : d'.seeds = d.seeds
  frontier : ∀ {b}, b ∈ d.frontier → b ∈ d'.frontier
  queued : ∀ {a b}, d'.pairs.get? a = some b → d.pairs.get? a = some b ∨ b ∈ d'.frontier
  paired : ∀ {b}, b ∈ d'.frontier → b ∈ d.frontier ∨ ∃ a, d'.pairs.get? a = some b

theorem Queues.refl (d : Differ) : d.Queues d :=
  ⟨.refl d, rfl, rfl, fun h ↦ h, fun h ↦ .inl h, fun h ↦ .inl h⟩

theorem Queues.trans (h : d.Queues d') (h' : d'.Queues d'') : d.Queues d'' where
  toLearns := h.toLearns.trans h'.toLearns
  owner := h'.owner.trans h.owner
  seeds := h'.seeds.trans h.seeds
  frontier hb := h'.frontier (h.frontier hb)
  queued hab := by
    rcases h'.queued hab with hab | hb
    · rcases h.queued hab with hab | hb
      · exact .inl hab
      · exact .inr (h'.frontier hb)
    · exact .inr hb
  paired hb := by
    rcases h'.paired hb with hb | hb
    · rcases h.paired hb with hb | ⟨a, hab⟩
      · exact .inl hb
      · exact .inr ⟨a, h'.pairs hab⟩
    · exact .inr hb

/-- A pair is recorded and queued, or refused. -/
theorem queues_pair (d : Differ) (previous current : Scope) : d.Queues (d.pair previous current) := by
  cases hput : d.pairs.put? previous current with
  | none =>
    rw [pair, pair?, hput]
    exact .refl d
  | some q =>
    have hpair : d.pair previous current = { d with
        pairs := q
        frontier := if d.pairs.containsNew current then d.frontier else d.frontier ++ [current] } := by
      rw [pair, pair?, hput]
      rfl
    have hself : q.get? previous = some current := Renaming.get?_self_of_put? hput
    rw [hpair]
    refine ⟨⟨rfl, rfl, Renaming.le_of_put? hput⟩, rfl, rfl, ?_, ?_, ?_⟩
    · intro b hb
      dsimp only
      split
      · exact hb
      · exact List.mem_append_left _ hb
    · intro a b hab
      rcases (Renaming.get?_of_put? hput).1 hab with hab | ⟨rfl, rfl⟩
      · exact .inl hab
      · dsimp only
        split
        · -- The current scope has a partner, which can only be the previous one.
          rename_i hnew
          obtain ⟨x, hx⟩ := Option.isSome_iff_exists.1 hnew
          have hx : d.pairs.get? x = some b := Renaming.get?_eq_some_iff.2 hx
          obtain rfl := Renaming.get?_inj (Renaming.le_of_put? hput hx) hself
          exact .inl hx
        · exact .inr (by simp)
    · intro b hb
      dsimp only at hb
      split at hb
      · exact .inl hb
      · rcases List.mem_append.1 hb with hb | hb
        · exact .inl hb
        · obtain rfl := List.mem_singleton.1 hb
          exact .inr ⟨previous, hself⟩

/-- A pair of a renaming that all known pairs are from is not refused. -/
theorem pairs_pair_of_le (hle : d.pairs ≤ r) (hr : r.get? previous = some current) :
    (d.pair previous current).pairs ≤ r ∧ ∀ a b, (d.pair previous current).pairs.get? a = some b ↔
      d.pairs.get? a = some b ∨ a = previous ∧ b = current := by
  obtain ⟨q, hput, hqr⟩ := Renaming.put?_of_le hle hr
  have hpairs : (d.pair previous current).pairs = q := by
    rw [pair, pair?, hput]
    rfl
  rw [hpairs]
  exact ⟨hqr, fun a b ↦ Renaming.get?_of_put? hput⟩

namespace Matching

theorem queues_known (m : Matching) (target : Scope) : m.differ.Queues (m.known target).differ := by
  rw [known]
  split
  · split
    · exact m.differ.queues_pair _ _
    · exact .refl _
  · exact .refl _

theorem queues_replaced (graph : ScopeGraph) (m : Matching) (previous : Scope) :
    m.differ.Queues (m.replaced graph previous).differ := by
  rw [replaced]
  split
  · exact m.differ.queues_pair _ _
  · exact .refl _

theorem queues_foldl {f : Matching → Scope → Matching}
    (hf : ∀ (m : Matching) x, m.differ.Queues (f m x).differ) (m : Matching) (xs : List Scope) :
    m.differ.Queues (xs.foldl f m).differ := by
  induction xs generalizing m with
  | nil => exact .refl _
  | cons x xs ih => exact (hf m x).trans (ih (f m x))

end Matching

theorem queues_matchLabel (d : Differ) (graph : ScopeGraph) (current previous : Scope) (l : Label) :
    d.Queues (d.matchLabel graph current previous l).differ := by
  let first : Matching := ⟨d, d.previous.targets previous l, [], [], []⟩
  let known := (graph.targets current l).foldl Matching.known first
  have hknown : first.differ.Queues known.differ :=
    Matching.queues_foldl Matching.queues_known first _
  exact hknown.trans
    (Matching.queues_foldl (Matching.queues_replaced graph) { known with before := [] } known.before)

theorem queues_foldl_diffLabel (d : Differ) (graph : ScopeGraph) (ls : List Label) (x : ScopeDiff) :
    d.Queues (ls.foldl (diffLabel graph) (d, x)).1 := by
  induction ls generalizing d x with
  | nil => exact .refl d
  | cons l ls ih => exact (d.queues_matchLabel graph x.current x.previous l).trans (ih _ _)

/-- What a comparison that has not been made before does to the differ. -/
theorem exists_queues_diff (graph : ScopeGraph) (labels : List Label) (hnone : d.diffOf? s = none)
    (hp : d.previousOf? s = some p) :
    ∃ e x, (d.diff s graph labels).2 = { e with diffs := e.diffs.insert s x } ∧ d.Queues e := by
  rw [Differ.diff, hnone]
  simp only [hp]
  exact ⟨_, _, rfl, (d.queues_pair p s).trans (queues_foldl_diffLabel _ _ _ _)⟩

/-! ## What a comparison reads -/

namespace Matching

variable {m : Matching}

theorem replaced_congr (hdata : ∀ t ∈ m.fresh, now.datum? t = graph.datum? t) :
    m.replaced now previous = m.replaced graph previous := by
  have hfind : m.fresh.find? (m.differ.replaces now previous) =
      m.fresh.find? (m.differ.replaces graph previous) := by
    rw [← List.head?_filter, ← List.head?_filter]
    exact congrArg List.head? (List.filter_congr fun t ht ↦ by rw [replaces, replaces, hdata t ht])
  rw [replaced, replaced, hfind]

theorem fresh_replaced_subset : (m.replaced graph previous).fresh ⊆ m.fresh := by
  rw [replaced]
  split
  · exact List.erase_subset
  · exact List.Subset.refl _

theorem foldl_replaced_congr (hdata : ∀ t ∈ m.fresh, now.datum? t = graph.datum? t)
    (pending : List Scope) :
    pending.foldl (replaced now) m = pending.foldl (replaced graph) m := by
  induction pending generalizing m with
  | nil => rfl
  | cons x pending ih =>
    rw [List.foldl_cons, List.foldl_cons, replaced_congr hdata]
    exact ih fun t ht ↦ hdata t (fresh_replaced_subset ht)

end Matching

/-- Under a label, the targets and their data are read. -/
theorem matchLabel_congr {l : Label} (htargets : now.targets current l = graph.targets current l)
    (hdata : ∀ t ∈ graph.targets current l, now.datum? t = graph.datum? t) :
    d.matchLabel now current previous l = d.matchLabel graph current previous l := by
  let known := (graph.targets current l).foldl Matching.known
    ⟨d, d.previous.targets previous l, [], [], []⟩
  have hfresh : ∀ t ∈ known.fresh, t ∈ graph.targets current l :=
    (Matching.sound_start d _ _).foldl_known.fresh
  rw [matchLabel, matchLabel, htargets]
  exact Matching.foldl_replaced_congr (m := { known with before := [] })
    (fun t ht ↦ hdata t (hfresh t ht)) known.before

theorem foldl_diffLabel_congr (h : now.ReadsAs graph s labels) (hls : ls ⊆ labels) {x : ScopeDiff}
    (hx : x.current = s) :
    ls.foldl (diffLabel now) (d, x) = ls.foldl (diffLabel graph) (d, x) := by
  induction ls generalizing d x with
  | nil => rfl
  | cons l ls ih =>
    rw [List.cons_subset] at hls
    subst hx
    have hlabel : diffLabel now (d, x) l = diffLabel graph (d, x) l := by
      rw [diffLabel, diffLabel]
      dsimp only
      rw [matchLabel_congr (h.targets l hls.1) (h.data l hls.1)]
    rw [List.foldl_cons, List.foldl_cons, hlabel]
    exact ih hls.2 rfl

/-- Which pairs a comparison finds depends on the targets and their data only. -/
theorem pairs_diff_congr (h : now.ReadsAs graph s labels) :
    (d.diff s now labels).2.pairs = (d.diff s graph labels).2.pairs := by
  rw [diff, diff]
  split
  · rfl
  · split
    · rfl
    · dsimp only
      rw [foldl_diffLabel_congr h (List.Subset.refl _) rfl]

/-! ## Decided comparisons -/

/-- A renaming decides the comparisons of a differ with a graph: it has the pairs that are known, and
whatever else of it is known, comparing two scopes that it pairs finds exactly its pairs among their
targets. -/
structure Decided (d : Differ) (graph : ScopeGraph) (labels : List Label) (r : Renaming) : Prop where
  le : d.pairs ≤ r
  finds : ∀ {e : Differ} {p s : Scope}, e.owner = d.owner → e.previous = d.previous →
    d.pairs ≤ e.pairs → e.pairs ≤ r → e.diffOf? s = none → e.previousOf? s = some p →
    r.get? p = some s → ∀ a b, (e.diff s graph labels).2.pairs.get? a = some b ↔
      e.pairs.get? a = some b ∨ (a = p ∧ b = s) ∨ ∃ l ∈ labels,
        a ∈ d.previous.targets p l ∧ b ∈ graph.targets s l ∧ r.get? a = some b

/-- Further pairs of the renaming leave the comparisons decided. -/
theorem Decided.mono (h : d.Decided graph labels r) (howner : d'.owner = d.owner)
    (hprevious : d'.previous = d.previous) (hpairs : d.pairs ≤ d'.pairs) (hle : d'.pairs ≤ r) :
    d'.Decided graph labels r where
  le := hle
  finds he he' hpairs' hle' hnone hp hr a b := by
    rw [hprevious]
    exact h.finds (he.trans howner) (he'.trans hprevious) (Renaming.le_trans hpairs hpairs') hle'
      hnone hp hr a b

/-- **A comparison whose outcome is decided** finds exactly the pairs of the renaming among the
targets of the two scopes, and queues them. -/
theorem Decided.diff (h : d.Decided graph labels r) (hnone : d.diffOf? s = none)
    (hp : d.previousOf? s = some p) (hr : r.get? p = some s) (hreads : now.ReadsAs graph s labels) :
    ∃ e x, (d.diff s now labels).2 = { e with diffs := e.diffs.insert s x } ∧ d.Queues e ∧
      e.Decided graph labels r ∧ ∀ a b, e.pairs.get? a = some b ↔ d.pairs.get? a = some b ∨
        (a = p ∧ b = s) ∨ ∃ l ∈ labels,
          a ∈ d.previous.targets p l ∧ b ∈ graph.targets s l ∧ r.get? a = some b := by
  obtain ⟨e, x, heq, hqueues⟩ := exists_queues_diff now labels hnone hp
  have hpairs : e.pairs = (d.diff s graph labels).2.pairs := by
    rw [← pairs_diff_congr hreads, heq]
  have hget := h.finds rfl rfl d.pairs.le_refl h.le hnone hp hr
  rw [← hpairs] at hget
  refine ⟨e, x, heq, hqueues, h.mono hqueues.owner hqueues.previous hqueues.pairs ?_, hget⟩
  intro a b hab
  rcases (hget a b).1 hab with hab | ⟨rfl, rfl⟩ | ⟨-, -, -, -, hab⟩
  · exact h.le hab
  · exact hr
  · exact hab

end Differ

end ScopeGraphs
