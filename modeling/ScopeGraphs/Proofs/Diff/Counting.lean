import Mathlib.Data.List.Forall2
import Mathlib.Data.List.Nodup
import ScopeGraphs.Proofs.Diff.Histories
import ScopeGraphs.Proofs.Paths

/-!
# Every edge is counted once

The difference of a scope does not only mention every edge of the two runs: it mentions each of them
once. Of the current edges under a label, each is matched or added but not both; of the previous ones,
each is removed or is the counterpart of exactly one matched edge (`ScopeDiff.Counts`).

The targets under one label are matched in two greedy passes that read the table of pairs while they
write to it. The invariant `Differ.Matching.Counted` says that nevertheless every target is in exactly
one place: the current targets are those matched, those put aside and those still to be looked at, and
the previous targets are those given up, the counterparts of those matched and those still pending. It
holds for any table of pairs, so nothing has to be known of what the differ was asked before.
-/

namespace ScopeGraphs

/-! ## Lists without repetition -/

/-- The list has exactly the scopes with a property, each of them once. -/
structure ListsOnce (ss : List Scope) (p : Scope → Prop) : Prop where
  nodup : ss.Nodup
  mem_iff : ∀ s, s ∈ ss ↔ p s

theorem ListsOnce.of_perm {ss ss' : List Scope} {p : Scope → Prop} (h : ListsOnce ss p)
    (hperm : ss'.Perm ss) : ListsOnce ss' p where
  nodup := hperm.nodup_iff.2 h.nodup
  mem_iff s := hperm.mem_iff.trans (h.mem_iff s)

/-- The targets of a scope are listed once. -/
theorem ScopeGraph.listsOnce_targets (g : ScopeGraph) (s : Scope) (l : Label) :
    ListsOnce (g.targets s l) fun t ↦ ⟨s, l, t⟩ ∈ g.edges where
  nodup := by
    refine List.Nodup.filterMap ?_ (SortedSet.nodup_toList g.edges)
    rintro ⟨a, k, b⟩ ⟨a', k', b'⟩ t ht ht'
    simp only [Option.mem_def, Option.ite_none_right_eq_some, Option.some.injEq] at ht ht'
    obtain ⟨⟨rfl, rfl⟩, rfl⟩ := ht
    obtain ⟨⟨rfl, rfl⟩, rfl⟩ := ht'
    rfl
  mem_iff _ := ScopeGraph.mem_targets

/-- The targets of the edges that a list has under a label. -/
def targetsUnder (l : Label) (edges : List (Label × Scope)) : List Scope :=
  edges.filterMap fun e ↦ if e.1 = l then some e.2 else none

section targetsUnder

variable {l k : Label} {edges : List (Label × Scope)} {ts : List Scope}

@[simp] theorem targetsUnder_append (edges edges' : List (Label × Scope)) :
    targetsUnder l (edges ++ edges') = targetsUnder l edges ++ targetsUnder l edges' :=
  List.filterMap_append

@[simp] theorem targetsUnder_map_self : targetsUnder l (ts.map (l, ·)) = ts := by
  rw [targetsUnder, List.filterMap_map]
  simp

theorem targetsUnder_map_of_ne (h : k ≠ l) : targetsUnder l (ts.map (k, ·)) = [] := by
  rw [targetsUnder, List.filterMap_map]
  simp [h]

/-- Nothing is listed under a label that does not occur. -/
theorem targetsUnder_eq_nil (h : ∀ e ∈ edges, e.1 ≠ l) : targetsUnder l edges = [] := by
  refine List.filterMap_eq_nil_iff.2 fun e he ↦ ?_
  rw [if_neg (h e he)]

end targetsUnder

/-! ## Differences that count every edge -/

/-- The previous scopes are, in order, the counterparts of the current ones. -/
def Renaming.Pairs (p : Renaming) (olds news : List Scope) : Prop :=
  List.Forall₂ (fun old new ↦ p.get? old = some new) olds news

namespace Renaming.Pairs

variable {p q : Renaming} {olds news : List Scope}

theorem mono (h : p.Pairs olds news) (hpq : p ≤ q) : q.Pairs olds news := h.imp fun _ _ hab ↦ hpq hab

theorem concat {old new : Scope} (h : p.Pairs olds news) (hpair : p.get? old = some new) :
    p.Pairs (olds ++ [old]) (news ++ [new]) :=
  List.rel_append h (.cons hpair .nil)

end Renaming.Pairs

/-- The difference lists every edge of its two scopes under the given labels once: each current edge is
matched or added, and each previous one is removed or the counterpart of a matched one. -/
structure ScopeDiff.Counts (x : ScopeDiff) (pairs : Renaming) (before now : ScopeGraph)
    (labels : List Label) : Prop where
  now : ∀ l ∈ labels, ListsOnce (targetsUnder l x.matched ++ targetsUnder l x.added)
    fun t ↦ ⟨x.current, l, t⟩ ∈ now.edges
  before : ∀ l ∈ labels, ∃ olds, pairs.Pairs olds (targetsUnder l x.matched) ∧
    ListsOnce (targetsUnder l x.removed ++ olds) fun u ↦ ⟨x.previous, l, u⟩ ∈ before.edges
  labels : ∀ e ∈ x.matched ++ x.added ++ x.removed, e.1 ∈ labels

namespace ScopeDiff.Counts

variable {x : ScopeDiff} {pairs pairs' : Renaming} {before now : ScopeGraph}
  {labels labels' : List Label}

theorem mono (h : x.Counts pairs before now labels) (hpairs : pairs ≤ pairs') :
    x.Counts pairs' before now labels where
  now := h.now
  before l hl := by
    obtain ⟨olds, hold, honce⟩ := h.before l hl
    exact ⟨olds, hold.mono hpairs, honce⟩
  labels := h.labels

theorem congr (h : x.Counts pairs before now labels) (hlabels : ∀ l, l ∈ labels ↔ l ∈ labels') :
    x.Counts pairs before now labels' where
  now l hl := h.now l ((hlabels l).2 hl)
  before l hl := h.before l ((hlabels l).2 hl)
  labels e he := (hlabels e.1).1 (h.labels e he)

end ScopeDiff.Counts

namespace Differ

variable {d d' : Differ} {previous current target : Scope}

/-! ## Counting under one label -/

/-- Every target is in one place only. -/
structure Matching.Counted (m : Matching) (old new pending todo : List Scope) : Prop where
  new : (m.matched ++ m.fresh ++ todo).Perm new
  old : ∃ olds, m.differ.pairs.Pairs olds m.matched ∧ (m.removed ++ olds ++ pending).Perm old

namespace Matching

variable {m : Matching} {old new pending todo : List Scope}

/-- A previous and a current target are matched, and leave the places where they were. -/
private theorem Counted.match (h : m.Counted old new pending todo) {before fresh : List Scope}
    {pending' todo' : List Scope}
    (hpair : m.differ.pairs.get? previous = some target ∨
      m.differ.pairs.get? previous = none ∧ m.differ.pairs.getInverse? target = none)
    (hpending : pending.Perm (previous :: pending'))
    (hnew : (m.fresh ++ todo).Perm (target :: (fresh ++ todo'))) :
    Counted ⟨m.differ.pair previous target, before, m.matched ++ [target], fresh, m.removed⟩ old new
      pending' todo' := by
  obtain ⟨hlearns, hget⟩ := learns_pair hpair
  obtain ⟨olds, hpairs, hold⟩ := h.old
  refine ⟨?_, olds ++ [previous], (hpairs.mono hlearns.pairs).concat hget, ?_⟩
  · refine .trans ?_ h.new
    simpa using hnew.symm.append_left m.matched
  · refine .trans ?_ hold
    simpa using hpending.symm.append_left (m.removed ++ olds)

/-- Looking at a current target keeps the count. -/
theorem Counted.known (h : m.Counted old new m.before (target :: todo)) :
    (m.known target).Counted old new (m.known target).before todo := by
  have haside : Counted { m with fresh := m.fresh ++ [target] } old new m.before todo :=
    ⟨by simpa using h.new, h.old⟩
  rw [Matching.known]
  split
  · rename_i x hx
    split
    · rename_i hmem
      exact h.match (pairable_of_counterpart? hx) (List.perm_cons_erase hmem) List.perm_middle
    · exact haside
  · exact haside

/-- Looking at a previous target without a counterpart keeps the count. -/
theorem Counted.replaced {graph : ScopeGraph} (h : m.Counted old new (previous :: pending) []) :
    (m.replaced graph previous).Counted old new pending [] := by
  rw [Matching.replaced]
  split
  · rename_i t ht
    split at ht
    · rename_i hfree
      rw [Bool.and_eq_true] at hfree
      have hrep := List.find?_some ht
      rw [replaces, Bool.and_eq_true, Bool.and_eq_true] at hrep
      refine h.match (.inr ⟨?_, ?_⟩) (.refl _) ?_
      · simpa [Renaming.containsOld] using hfree.1
      · simpa [Renaming.containsNew] using hrep.1.2
      · simpa using List.perm_cons_erase (List.mem_of_find?_eq_some ht)
    · exact absurd ht (Option.some_ne_none t).symm
  · obtain ⟨olds, hpairs, hold⟩ := h.old
    refine ⟨h.new, olds, hpairs, .trans ?_ hold⟩
    have hmove : (previous :: (olds ++ pending)).Perm (olds ++ previous :: pending) :=
      List.perm_middle.symm
    simpa using hmove.append_left m.removed

theorem Counted.foldl_known (h : m.Counted old new m.before todo) :
    (todo.foldl Matching.known m).Counted old new (todo.foldl Matching.known m).before [] := by
  induction todo generalizing m with
  | nil => exact h
  | cons t todo ih => exact ih h.known

theorem Counted.foldl_replaced {graph : ScopeGraph} (h : m.Counted old new pending []) :
    (pending.foldl (Matching.replaced graph) m).Counted old new [] [] := by
  induction pending generalizing m with
  | nil => exact h
  | cons x pending ih => exact ih h.replaced

end Matching

/-- In the beginning all targets are still to be looked at. -/
theorem Matching.counted_start (d : Differ) (old new : List Scope) :
    Matching.Counted ⟨d, old, [], [], []⟩ old new old new :=
  ⟨.refl new, [], .nil, .refl old⟩

/-- The matching of the edges under one label counts each of them once. -/
theorem counted_matchLabel (d : Differ) (graph : ScopeGraph) (current previous : Scope) (l : Label) :
    (d.matchLabel graph current previous l).Counted (d.previous.targets previous l)
      (graph.targets current l) [] [] := by
  have hknown := (Matching.counted_start d (d.previous.targets previous l)
    (graph.targets current l)).foldl_known
  exact Matching.Counted.foldl_replaced ⟨hknown.new, hknown.old⟩

/-! ## Label by label -/

variable {graph before : ScopeGraph} {acc : Differ × ScopeDiff} {l : Label} {ls labels : List Label}

/-- The edges under one more label are counted, apart from those under the labels before it. -/
private theorem counts_diffLabel (hprev : acc.1.previous = before)
    (h : acc.2.Counts acc.1.pairs before graph labels) (hl : l ∉ labels) :
    (diffLabel graph acc l).2.Counts (diffLabel graph acc l).1.pairs before graph (l :: labels) := by
  have hm := counted_matchLabel acc.1 graph acc.2.current acc.2.previous l
  have hlearns := (matchLabel_sound acc.1 graph acc.2.current acc.2.previous l).learns
  rw [hprev] at hm
  rw [diffLabel]
  dsimp only
  generalize acc.1.matchLabel graph acc.2.current acc.2.previous l = m at hm hlearns
  have hother : ∀ {es}, (∀ e ∈ es, e ∈ acc.2.matched ++ acc.2.added ++ acc.2.removed) →
      targetsUnder l es = [] := by
    intro es hes
    exact targetsUnder_eq_nil fun e he heq ↦ hl (heq ▸ h.labels e (hes e he))
  have hmatched : targetsUnder l acc.2.matched = [] := hother fun e he ↦ by simp [he]
  have hadded : targetsUnder l acc.2.added = [] := hother fun e he ↦ by simp [he]
  have hremoved : targetsUnder l acc.2.removed = [] := hother fun e he ↦ by simp [he]
  refine ⟨?_, ?_, ?_⟩
  · intro k hk
    rcases List.mem_cons.1 hk with rfl | hk
    · refine (graph.listsOnce_targets acc.2.current k).of_perm ?_
      simpa [hmatched, hadded] using hm.new
    · have hne : l ≠ k := fun heq ↦ hl (heq ▸ hk)
      simpa [targetsUnder_map_of_ne hne] using h.now k hk
  · intro k hk
    rcases List.mem_cons.1 hk with rfl | hk
    · obtain ⟨olds, hpairs, hold⟩ := hm.old
      refine ⟨olds, by simpa [hmatched] using hpairs,
        (before.listsOnce_targets acc.2.previous k).of_perm ?_⟩
      simpa [hremoved] using hold
    · have hne : l ≠ k := fun heq ↦ hl (heq ▸ hk)
      obtain ⟨olds, hpairs, hold⟩ := h.before k hk
      refine ⟨olds, ?_, ?_⟩
      · simpa [targetsUnder_map_of_ne hne] using hpairs.mono hlearns.pairs
      · simpa [targetsUnder_map_of_ne hne] using hold
  · intro e he
    have hcases : e ∈ acc.2.matched ++ acc.2.added ++ acc.2.removed ∨ e.1 = l := by
      simp only [List.mem_append, List.mem_map] at he ⊢
      rcases he with ((he | ⟨t, -, rfl⟩) | (he | ⟨t, -, rfl⟩)) | (he | ⟨t, -, rfl⟩) <;> simp [*]
    rcases hcases with he | he
    · exact List.mem_cons_of_mem _ (h.labels e he)
    · exact he ▸ List.mem_cons_self

/-- So are the edges under several labels. -/
private theorem counts_foldl_diffLabel (graph : ScopeGraph) (ls : List Label)
    (acc : Differ × ScopeDiff) (hprev : acc.1.previous = before)
    (h : acc.2.Counts acc.1.pairs before graph labels) (hls : (ls ++ labels).Nodup) :
    (ls.foldl (diffLabel graph) acc).2.Counts (ls.foldl (diffLabel graph) acc).1.pairs before graph
      (ls ++ labels) := by
  induction ls generalizing acc labels with
  | nil => exact h
  | cons l ls ih =>
    rw [List.cons_append, List.nodup_cons] at hls
    have hl : l ∉ labels := fun hmem ↦ hls.1 (List.mem_append_right _ hmem)
    have hlearns := (matchLabel_sound acc.1 graph acc.2.current acc.2.previous l).learns
    have hmoved : (ls ++ l :: labels).Perm (l :: (ls ++ labels)) := List.perm_middle
    have hrest := ih (diffLabel graph acc l) (hlearns.previous.trans hprev) (counts_diffLabel hprev h hl)
      (hmoved.nodup_iff.2 (List.nodup_cons.2 hls))
    exact hrest.congr fun k ↦ hmoved.mem_iff

/-! ## Scope by scope -/

/-- A comparison that has not been made before counts every edge once, whatever the differ knows. -/
theorem counts_diff {s p : Scope} (hls : ls.Nodup) (hnone : d.diffOf? s = none)
    (hp : d.previousOf? s = some p) (now : ScopeGraph) :
    ∃ x, (d.diff s now ls).1 = some x ∧ x.current = s ∧ x.previous = p ∧
      (d.diff s now ls).2.pairs.get? p = some s ∧
      x.Counts (d.diff s now ls).2.pairs d.previous now ls := by
  obtain ⟨e, x, heq, -, hcurrent, hprevious, hedges, -⟩ := exists_diff rfl hnone hp now ls
  have hlearns := (learns_pair (pairable_of_previousOf? hp)).1
  have hstart : ScopeDiff.Counts ⟨s, p, [], [], [], false, false, false⟩ (d.pair p s).pairs
      d.previous now [] := ⟨by simp, by simp, by simp⟩
  have hcounts := counts_foldl_diffLabel now ls
    (d.pair p s, ⟨s, p, [], [], [], false, false, false⟩) hlearns.previous hstart
    (by rwa [List.append_nil])
  refine ⟨x, by rw [heq], hcurrent, hprevious, ?_, ?_⟩
  · rw [heq, ← hcurrent, ← hprevious]
    exact hedges.pair
  · rw [List.append_nil] at hcounts
    rw [Differ.diff, hnone] at heq ⊢
    simp only [hp] at heq ⊢
    obtain rfl := Option.some.inj (Prod.mk.inj heq).1
    exact ⟨hcounts.now, hcounts.before, hcounts.labels⟩

/-- **A diff accounts for every edge once.** Let a differ have been asked anything. A diff that has
not been made before, of a scope with a previous counterpart, lists each current edge of the scope
once as matched or added; and each previous edge of the counterpart once, as removed or through the
known partner of a matched target. This stays so whatever is asked of the differ later, for pairs are
never forgotten, and they always match scopes one to one. -/
theorem diff_countsEveryEdge {owner : UnitId} {previous : ScopeGraph} {pairs : Renaming}
    {history : List Operation} (hd : (start owner previous pairs).performAll history = d)
    (now : ScopeGraph) (hls : ls.Nodup) {s p : Scope} (hnew : d.diffOf? s = none)
    (hp : d.previousOf? s = some p) :
    ∃ x, (d.diff s now ls).1 = some x ∧ x.current = s ∧ x.previous = p ∧
      ∀ (later : List Operation) (d' : Differ), (d.diff s now ls).2.performAll later = d' →
        x.Counts d'.pairs previous now ls ∧ d'.pairs.get? p = some s ∧
        pairs ≤ d.pairs ∧ d.pairs ≤ (d.diff s now ls).2.pairs ∧
        (d.diff s now ls).2.pairs ≤ d'.pairs ∧
        ∀ a b, d'.pairs.get? a = some b ↔ d'.pairs.getInverse? b = some a := by
  have hstart := (start owner previous pairs).later_performAll history
  rw [hd] at hstart
  obtain ⟨x, hx, hcurrent, hprevious, hpair, hcounts⟩ := counts_diff hls hnew hp now
  refine ⟨x, hx, hcurrent, hprevious, ?_⟩
  rintro later d' rfl
  have hlater := (d.diff s now ls).2.later_performAll later
  have hbefore : d.previous = previous := hstart.previous
  rw [hbefore] at hcounts
  exact ⟨hcounts.mono hlater.pairs, hlater.pairs hpair, hstart.pairs, (d.grows_diff s now ls).1.pairs,
    hlater.pairs, fun a b ↦ Renaming.get?_eq_some_iff⟩

/-- A scope of a unit. -/
private def member (name : String) : Scope := ⟨⟨"u"⟩, name⟩

/-- A graph in which one scope leads to three others, two of them with a datum. -/
private def fork (first second third : String) (x y : Int) : ScopeGraph :=
  .of [⟨member "s", "E", member first⟩, ⟨member "s", "E", member second⟩,
    ⟨member "s", "E", member third⟩] [(member second, .int x), (member third, .int y)]

/-- A differ that was told that the scope is its own counterpart, and then was asked for it. -/
private def forkDiffer : Differ :=
  (start ⟨"u"⟩ (fork "kept" "old" "gone" 1 2) .identity).performAll
    [.matchScopes (member "s") (member "s"), .nextUnexplored]

/-- What the differ finds: one target is kept, one replaced, one added and one removed. -/
private def forkFound : ScopeDiff where
  current := member "s"
  previous := member "s"
  added := [("E", member "extra")]
  removed := [("E", member "gone")]
  matched := [("E", member "kept"), ("E", member "new")]
  datumChanged := false
  hadDatum := false
  hasDatum := false

/-- The three current targets are listed once, and so are the three previous ones. -/
theorem diff_countsEveryEdge_fork :
    forkDiffer.diffOf? (member "s") = none ∧
      forkDiffer.previousOf? (member "s") = some (member "s") ∧
      (forkDiffer.diff (member "s") (fork "kept" "new" "extra" 1 3) ["E"]).1 = some forkFound ∧
      (ListsOnce [member "kept", member "new", member "extra"]
        fun t ↦ ⟨member "s", "E", t⟩ ∈ (fork "kept" "new" "extra" 1 3).edges) ∧
      ListsOnce [member "gone", member "kept", member "old"]
        fun t ↦ ⟨member "s", "E", t⟩ ∈ (fork "kept" "old" "gone" 1 2).edges := by
  have hd : (start ⟨"u"⟩ (fork "kept" "old" "gone" 1 2) .identity).performAll
      [.matchScopes (member "s") (member "s"), .nextUnexplored] = forkDiffer := rfl
  have hnew : forkDiffer.diffOf? (member "s") = none := by rfl
  have hprevious : forkDiffer.previousOf? (member "s") = some (member "s") := by rfl
  have hfound : (forkDiffer.diff (member "s") (fork "kept" "new" "extra" 1 3) ["E"]).1 =
      some forkFound := by rfl
  obtain ⟨x, hx, -, -, hcounts⟩ := diff_countsEveryEdge hd (fork "kept" "new" "extra" 1 3)
    (List.nodup_singleton "E") hnew hprevious
  obtain rfl := Option.some.inj (hfound.symm.trans hx)
  obtain ⟨hcounted, -⟩ := hcounts [] _ rfl
  obtain ⟨olds, hpairs, hbefore⟩ := hcounted.before "E" (List.mem_singleton_self _)
  -- The counterparts are determined by the pairs that are known.
  have holds : olds = [member "kept", member "old"] := by
    cases hpairs with
    | cons hkept hrest =>
      cases hrest with
      | cons hold hnil =>
        cases hnil
        have hkept' := Renaming.get?_inj hkept (b := member "kept") (by rfl)
        have hold' := Renaming.get?_inj hold (b := member "old") (by rfl)
        rw [hkept', hold']
  subst holds
  exact ⟨hnew, hprevious, hfound, hcounted.now "E" (List.mem_singleton_self _), hbefore⟩

end Differ

end ScopeGraphs
