import ScopeGraphs.Proofs.Diff.Histories
import ScopeGraphs.Proofs.Mentions

/-!
# A graph compared with itself

If nothing changed between two runs, and every pair a differ was told is of a scope with itself, then
it never finds any other pair. A target can stand for another scope only if it is paired with one, or
if it was put aside; but no target is put aside, because at its turn it is still among the previous
ones. What a differ has by then looked at does not matter: `Differ.IsIdle` is all that is used of the
table of pairs, and every comparison leaves it in place.
-/

namespace ScopeGraphs

/-! ## Renamings that rename nothing -/

namespace Renaming

variable {p q : Renaming} {a b : Scope}

theorem isIdentity_iff : p.isIdentity = true ↔ ∀ {a b}, p.get? a = some b → a = b := by
  rw [isIdentity, List.all_eq_true]
  constructor
  · intro h a b hab
    exact of_decide_eq_true (h (a, b) (mem_pairs_iff.2 hab))
  · rintro h ⟨a, b⟩ hab
    exact decide_eq_true (h (mem_pairs_iff.1 hab))

theorem isIdentity_identity : identity.isIdentity = true :=
  isIdentity_iff.2 fun hab ↦ absurd (identity_le identity hab) (by simp [get?, identity])

theorem apply_of_isIdentity (h : p.isIdentity = true) (s : Scope) : p.apply s = s := by
  rw [apply]
  cases hs : p.get? s with
  | none => rfl
  | some b => exact (isIdentity_iff.1 h hs).symm

theorem isIdentity_of_put? (h : p.isIdentity = true) (hput : p.put? a a = some q) :
    q.isIdentity = true := by
  refine isIdentity_iff.2 fun {x y} hxy ↦ ?_
  rcases (get?_of_put? hput).1 hxy with hxy | ⟨rfl, rfl⟩
  · exact isIdentity_iff.1 h hxy
  · rfl

/-- Two renamings that rename nothing do not when they are put together. -/
theorem isIdentity_putEach (hp : p.isIdentity = true) (hq : q.isIdentity = true) :
    (p.putEach q.pairs).isIdentity = true := by
  refine isIdentity_iff.2 fun {a b} hab ↦ ?_
  rcases get?_or_mem_of_putEach hab with hab | hab
  · exact isIdentity_iff.1 hp hab
  · exact isIdentity_iff.1 hq (mem_pairs_iff.1 hab)

end Renaming

namespace Datum

mutual

theorem rename_of_isIdentity {p : Renaming} (h : p.isIdentity = true) : ∀ d : Datum, d.rename p = d
  | unit | bool _ | int _ | text _ | none => rfl
  | scope s => by rw [rename, p.apply_of_isIdentity h]
  | list ds => by rw [rename, renameAll_of_isIdentity h]
  | pair a b => by rw [rename, rename_of_isIdentity h a, rename_of_isIdentity h b]
  | some d => by rw [rename, rename_of_isIdentity h]

theorem renameAll_of_isIdentity {p : Renaming} (h : p.isIdentity = true) :
    ∀ ds : List Datum, renameAll p ds = ds
  | [] => rfl
  | d :: ds => by rw [renameAll, rename_of_isIdentity h, renameAll_of_isIdentity h]

end

end Datum

/-- The edges of a scope under some labels, with their targets. -/
def ScopeGraph.edgesUnder (g : ScopeGraph) (s : Scope) (labels : List Label) : List (Label × Scope) :=
  labels.flatMap fun l ↦ (g.targets s l).map (l, ·)

theorem ScopeGraph.mem_edgesUnder {g : ScopeGraph} {s t : Scope} {l : Label} {labels : List Label} :
    (l, t) ∈ g.edgesUnder s labels ↔ l ∈ labels ∧ ⟨s, l, t⟩ ∈ g.edges := by
  rw [edgesUnder, List.mem_flatMap]
  constructor
  · rintro ⟨k, hk, hmem⟩
    obtain ⟨u, hu, heq⟩ := List.mem_map.1 hmem
    obtain ⟨rfl, rfl⟩ := Prod.mk.inj heq
    exact ⟨hk, ScopeGraph.mem_targets.1 hu⟩
  · rintro ⟨hl, hmem⟩
    exact ⟨l, hl, List.mem_map.2 ⟨t, ScopeGraph.mem_targets.2 hmem, rfl⟩⟩

/-- The difference of a scope and itself. -/
def ScopeGraph.selfDiff (g : ScopeGraph) (s : Scope) (labels : List Label) : ScopeDiff :=
  .identical s s (g.edgesUnder s labels) (g.datum? s).isSome

namespace Differ

variable {d d' : Differ} {graph : ScopeGraph} {labels ls : List Label} {s t : Scope}

/-! ## Idle differs -/

/-- The previous graph is the given one, and all pairs are of a scope with itself. -/
structure IsIdle (d : Differ) (graph : ScopeGraph) : Prop where
  previous : d.previous = graph
  pairs : d.pairs.isIdentity = true

theorem IsIdle.pair (h : d.IsIdle graph) (s : Scope) : (d.pair s s).IsIdle graph where
  previous := (d.queues_pair s s).previous.trans h.previous
  pairs := by
    rw [Differ.pair, pair?]
    cases hput : d.pairs.put? s s with
    | none => exact h.pairs
    | some q => exact Renaming.isIdentity_of_put? h.pairs hput

/-- A partner is the scope itself. -/
theorem IsIdle.eq_of_getInverse? (h : d.IsIdle graph) (hp : d.pairs.getInverse? s = some t) : t = s :=
  Renaming.isIdentity_iff.1 h.pairs (Renaming.get?_eq_some_iff.2 hp)

/-- A scope without a partner has none in the other direction either. -/
theorem IsIdle.containsOld_eq_false (h : d.IsIdle graph) (hs : d.pairs.getInverse? s = none) :
    d.pairs.containsOld s = false := by
  rw [Renaming.containsOld]
  cases hget : d.pairs.get? s with
  | none => rfl
  | some b =>
    obtain rfl := Renaming.isIdentity_iff.1 h.pairs hget
    exact absurd (hs.symm.trans (Renaming.get?_eq_some_iff.1 hget)) (Option.some_ne_none s).symm

/-- A scope of the graph is its own counterpart. -/
theorem IsIdle.previousOf? (h : d.IsIdle graph) (hs : s ∈ graph.scopes) :
    d.previousOf? s = some s := by
  rw [Differ.previousOf?]
  cases hp : d.pairs.getInverse? s with
  | some t =>
    obtain rfl := h.eq_of_getInverse? hp
    rfl
  | none =>
    have hmem : d.previous.scopes.contains s = true := by
      rw [h.previous]
      exact Std.ExtTreeSet.contains_iff_mem.2 hs
    simp [h.containsOld_eq_false hp, hmem]

/-- No scope is the counterpart of another one. -/
theorem IsIdle.eq_of_previousOf? (h : d.IsIdle graph) (hp : d.previousOf? s = some t) : t = s := by
  rw [Differ.previousOf?] at hp
  cases hinv : d.pairs.getInverse? s with
  | some u =>
    rw [hinv] at hp
    obtain rfl : u = t := by simpa using hp
    exact h.eq_of_getInverse? hinv
  | none =>
    rw [hinv] at hp
    have hif : (if (!d.pairs.containsOld s && d.previous.scopes.contains s) = true then some s
      else none) = some t := by simpa using hp
    exact (Option.some.inj (Option.ite_none_right_eq_some.1 hif).2).symm

/-- A target that was there before stands for itself. -/
theorem IsIdle.counterpart? {before : List Scope} (h : d.IsIdle graph) (ht : t ∈ before) :
    d.counterpart? before t = some t := by
  rw [Differ.counterpart?]
  cases hp : d.pairs.getInverse? t with
  | some u =>
    obtain rfl := h.eq_of_getInverse? hp
    rfl
  | none => simp [h.containsOld_eq_false hp, ht]

/-! ## Comparing a scope with itself -/

/-- Each target is matched with itself as soon as it is looked at. -/
theorem Matching.foldl_known_of_isIdle {m : Matching} (h : m.differ.IsIdle graph) :
    ∃ d', m.before.foldl Matching.known m =
      { m with differ := d', before := [], matched := m.matched ++ m.before } ∧ d'.IsIdle graph := by
  obtain ⟨d, before, matched, fresh, removed⟩ := m
  induction before generalizing d matched with
  | nil => exact ⟨d, by simp, h⟩
  | cons t before ih =>
    have hknown : Matching.known ⟨d, t :: before, matched, fresh, removed⟩ t =
        ⟨d.pair t t, before, matched ++ [t], fresh, removed⟩ := by
      rw [Matching.known]
      simp [h.counterpart? (List.mem_cons_self (a := t) (l := before))]
    obtain ⟨d', heq, hd'⟩ := ih (d.pair t t) (matched ++ [t]) (h.pair t)
    refine ⟨d', ?_, hd'⟩
    rw [List.foldl_cons, hknown, heq]
    simp

theorem IsIdle.matchLabel (h : d.IsIdle graph) (s : Scope) (l : Label) :
    ∃ d', d.matchLabel graph s s l = ⟨d', [], graph.targets s l, [], []⟩ ∧ d'.IsIdle graph := by
  obtain ⟨d', heq, hd'⟩ := Matching.foldl_known_of_isIdle
    (m := ⟨d, graph.targets s l, [], [], []⟩) h
  refine ⟨d', ?_, hd'⟩
  rw [Differ.matchLabel, h.previous, heq]
  rfl

theorem IsIdle.foldl_diffLabel (h : d.IsIdle graph) (s : Scope) (matched : List (Label × Scope))
    (changed had has : Bool) (ls : List Label) :
    ∃ d', ls.foldl (diffLabel graph) (d, ⟨s, s, [], [], matched, changed, had, has⟩) =
      (d', ⟨s, s, [], [], matched ++ graph.edgesUnder s ls, changed, had, has⟩) ∧
        d'.IsIdle graph := by
  induction ls generalizing d matched with
  | nil => exact ⟨d, by simp [ScopeGraph.edgesUnder], h⟩
  | cons l ls ih =>
    obtain ⟨e, heq, he⟩ := h.matchLabel s l
    obtain ⟨d', heq', hd'⟩ := ih he (matched ++ (graph.targets s l).map (l, ·))
    refine ⟨d', ?_, hd'⟩
    rw [List.foldl_cons, diffLabel]
    dsimp only
    rw [heq]
    simpa [ScopeGraph.edgesUnder] using heq'

/-! ## Differs of an unchanged graph -/

/-- The differ is idle, and every difference it has is that of a scope all of whose edges carried
over. -/
structure IsUntouched (d : Differ) (graph : ScopeGraph) (labels : List Label) : Prop
    extends d.IsIdle graph where
  diffs : ∀ {s x}, d.diffOf? s = some x → x = graph.selfDiff s labels

/-- A scope is compared with itself, or it is not in the graph. -/
theorem IsUntouched.diff (h : d.IsUntouched graph labels) (s : Scope) :
    (d.diff s graph labels).2.IsUntouched graph labels ∧
      ((d.diff s graph labels).1 = some (graph.selfDiff s labels) ∨
        (d.diff s graph labels).1 = none ∧ s ∉ graph.scopes) := by
  cases hx : d.diffOf? s with
  | some x =>
    rw [Differ.diff, hx]
    exact ⟨h, .inl (congrArg some (h.diffs hx))⟩
  | none =>
    cases hp : d.previousOf? s with
    | none =>
      have hnothing : d.diff s graph labels = (none, d) := by
        rw [Differ.diff, hx]
        simp only [hp]
      rw [hnothing]
      refine ⟨h, .inr ⟨rfl, fun hs ↦ ?_⟩⟩
      exact absurd (hp.symm.trans (h.toIsIdle.previousOf? hs)) (Option.some_ne_none s).symm
    | some p =>
      obtain rfl := h.eq_of_previousOf? hp
      obtain ⟨e, heq, he⟩ := (h.pair p).foldl_diffLabel p [] false false false labels
      have hlearns : d.Learns e := by
        have hqueues := (d.queues_pair p p).trans
          (queues_foldl_diffLabel (d.pair p p) graph labels ⟨p, p, [], [], [], false, false, false⟩)
        rw [heq] at hqueues
        exact hqueues.toLearns
      have hdatum : e.previousDatum? p = graph.datum? p := by
        rw [previousDatum?, he.previous]
        cases hd : graph.datum? p with
        | none => rfl
        | some x => rw [Option.map_some, Datum.rename_of_isIdentity he.pairs]
      have hfound : d.diff p graph labels = (some (graph.selfDiff p labels),
          { e with diffs := e.diffs.insert p (graph.selfDiff p labels) }) := by
        rw [Differ.diff, hx]
        simp only [hp, heq, hdatum, List.nil_append, ne_eq, not_true_eq_false, decide_false]
        rfl
      rw [hfound]
      refine ⟨⟨⟨he.previous, he.pairs⟩, fun {t x} ht ↦ ?_⟩, .inl rfl⟩
      rw [diffOf?, SortedMap.getElem?_insert_eq_some_iff] at ht
      rcases ht with ⟨rfl, rfl⟩ | ⟨-, ht⟩
      · rfl
      · exact h.diffs ((hlearns.diffOf?_eq t).symm.trans ht)

/-- A request that takes the graph as it is: it pairs a scope with itself, takes a scope from the
queue, or diffs a scope of the same graph under the same labels. -/
def Operation.Keeps (graph : ScopeGraph) (labels : List Label) : Operation → Prop
  | .matchScopes previous current => previous = current
  | .nextUnexplored => True
  | .diff _ graph' labels' => graph' = graph ∧ labels' = labels

theorem IsUntouched.perform (h : d.IsUntouched graph labels) {o : Operation}
    (ho : o.Keeps graph labels) : (d.perform o).IsUntouched graph labels := by
  rcases o with ⟨previous, current⟩ | _ | ⟨s, graph', labels'⟩
  · obtain rfl : previous = current := ho
    refine ⟨h.pair previous, fun {s x} hx ↦ h.diffs ?_⟩
    exact ((d.queues_pair previous previous).diffOf?_eq s).symm.trans hx
  · have hlearns := learns_nextUnexplored d
    refine ⟨⟨hlearns.previous.trans h.previous, ?_⟩, fun {s x} hx ↦ h.diffs ?_⟩
    · rcases d.nextUnexplored_cases with ⟨c, rest, heq, -⟩ | ⟨heq, -⟩
      · rw [Differ.perform, heq]
        exact h.pairs
      · rw [Differ.perform, heq]
        exact h.pairs
    · exact (hlearns.diffOf?_eq s).symm.trans hx
  · obtain ⟨rfl, rfl⟩ := ho
    exact (h.diff s).1

/-- **Nothing changed, nothing found.** -/
theorem IsUntouched.performAll (h : d.IsUntouched graph labels) {history : List Operation}
    (hhistory : ∀ o ∈ history, o.Keeps graph labels) :
    (d.performAll history).IsUntouched graph labels := by
  induction history generalizing d with
  | nil => exact h
  | cons o history ih =>
    rw [List.forall_mem_cons] at hhistory
    exact ih (h.perform hhistory.1) hhistory.2

theorem isUntouched_start {pairs : Renaming} (hpairs : pairs.isIdentity = true) (owner : UnitId)
    (graph : ScopeGraph) (labels : List Label) :
    (start owner graph pairs).IsUntouched graph labels where
  previous := rfl
  pairs := hpairs
  diffs hx := absurd hx (by simp [diffOf?, start])

end Differ

end ScopeGraphs
