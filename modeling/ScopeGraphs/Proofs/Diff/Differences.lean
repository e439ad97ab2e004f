import ScopeGraphs.Diff.Scope
import ScopeGraphs.Proofs.Renamings
import ScopeGraphs.Proofs.Sorted

/-!
# What differences account for

The difference of a scope has to mention every edge of the two runs: a current edge is matched or
added, a previous edge is matched or removed, and matched edges lead to paired scopes. This is
`ScopeDiff.Accounts`, relative to the pairs that are known. It is kept when more pairs become known,
so a difference that was computed once stays valid.

The greedy matching of edges is followed target by target (`Differ.Matching.Sound`), then label by
label, and in the end `Differ.Reached.diffs` says that a differ never stores a difference that does
not account for its scope. The data are another matter: they are judged once, under the pairs known
at that time (`Differ.Judged`), and pairs that become known later may tell otherwise.
-/

namespace ScopeGraphs

/-- No renaming changes the data of the graph. -/
def ScopeGraph.Rigid (g : ScopeGraph) : Prop :=
  ∀ {s : Scope} {x : Datum}, g.datum? s = some x → ∀ p : Renaming, x.rename p = x

/-! ## Accounting for a scope -/

namespace ScopeDiff

/-- The difference mentions every edge of its two scopes under the given labels, and matches edges
only with edges to paired scopes. -/
structure AccountsForEdges (d : ScopeDiff) (pairs : Renaming) (before now : ScopeGraph)
    (labels : List Label) : Prop where
  pair : pairs.get? d.previous = some d.current
  matched : ∀ {l t}, (l, t) ∈ d.matched →
    t ∈ now.targets d.current l ∧ ∃ x ∈ before.targets d.previous l, pairs.get? x = some t
  covers_now : ∀ {l t}, l ∈ labels → t ∈ now.targets d.current l →
    (l, t) ∈ d.matched ∨ (l, t) ∈ d.added
  covers_before : ∀ {l x}, l ∈ labels → x ∈ before.targets d.previous l →
    (∃ t, (l, t) ∈ d.matched ∧ pairs.get? x = some t) ∨ (l, x) ∈ d.removed

/-- The difference accounts for the edges of its two scopes and for their data. -/
structure Accounts (d : ScopeDiff) (pairs : Renaming) (before now : ScopeGraph)
    (labels : List Label) : Prop extends d.AccountsForEdges pairs before now labels where
  datum : d.datumChanged = false → before.datum? d.previous = now.datum? d.current
  hadDatum : d.hadDatum = (before.datum? d.previous).isSome
  hasDatum : d.hasDatum = (now.datum? d.current).isSome

/-- The difference tells whether the datum of its previous scope, renamed by some pairs, is that of
its current scope. -/
structure Judges (d : ScopeDiff) (pairs : Renaming) (before now : ScopeGraph) : Prop where
  datum : d.datumChanged = false ↔
    (before.datum? d.previous).map (Datum.rename pairs) = now.datum? d.current
  hadDatum : d.hadDatum = (before.datum? d.previous).isSome
  hasDatum : d.hasDatum = (now.datum? d.current).isSome

variable {d : ScopeDiff} {pairs pairs' : Renaming} {before now : ScopeGraph}
  {labels labels' : List Label}

theorem AccountsForEdges.mono (h : d.AccountsForEdges pairs before now labels)
    (hp : pairs ≤ pairs') (hl : labels' ⊆ labels) :
    d.AccountsForEdges pairs' before now labels' where
  pair := hp h.pair
  matched ht := by
    obtain ⟨htn, x, hx, hpx⟩ := h.matched ht
    exact ⟨htn, x, hx, hp hpx⟩
  covers_now hl' ht := h.covers_now (hl hl') ht
  covers_before hl' hx := by
    rcases h.covers_before (hl hl') hx with ⟨t, ht, hpx⟩ | hr
    · exact .inl ⟨t, ht, hp hpx⟩
    · exact .inr hr

/-- Data in which no renaming changes anything are judged as they are. -/
theorem AccountsForEdges.accounts (h : d.AccountsForEdges pairs before now labels)
    (hd : d.Judges pairs' before now) (hrigid : before.Rigid) :
    d.Accounts pairs before now labels where
  toAccountsForEdges := h
  datum hsame := by
    rw [← hd.datum.1 hsame]
    cases hdatum : before.datum? d.previous with
    | none => rfl
    | some x => rw [Option.map_some, hrigid hdatum]
  hadDatum := hd.hadDatum
  hasDatum := hd.hasDatum

end ScopeDiff

namespace Differ

variable {d d' d'' : Differ} {previous current target : Scope}

/-! ## Differs that only learn pairs -/

/-- The second differ knows at least the pairs of the first one, and otherwise only its queue may be
another one. -/
structure Learns (d d' : Differ) : Prop where
  previous : d'.previous = d.previous
  diffs : d'.diffs = d.diffs
  pairs : d.pairs ≤ d'.pairs

theorem Learns.refl (d : Differ) : d.Learns d := ⟨rfl, rfl, d.pairs.le_refl⟩

theorem Learns.trans (h : d.Learns d') (h' : d'.Learns d'') : d.Learns d'' :=
  ⟨h'.previous.trans h.previous, h'.diffs.trans h.diffs, Renaming.le_trans h.pairs h'.pairs⟩

theorem learns_of_pair? (h : d.pair? previous current = some d') :
    d.Learns d' ∧ d'.pairs.get? previous = some current := by
  rw [pair?, Option.map_eq_some_iff] at h
  obtain ⟨pairs, hput, rfl⟩ := h
  exact ⟨⟨rfl, rfl, Renaming.le_of_put? hput⟩, Renaming.get?_self_of_put? hput⟩

/-- A pair that is known, or two scopes that are not bound, can be paired. -/
theorem learns_pair (h : d.pairs.get? previous = some current ∨
    d.pairs.get? previous = none ∧ d.pairs.getInverse? current = none) :
    d.Learns (d.pair previous current) ∧
      (d.pair previous current).pairs.get? previous = some current := by
  obtain ⟨pairs, hput⟩ := Renaming.put?_isSome h
  refine learns_of_pair? ?_
  rw [pair, pair?, hput]
  rfl

/-- What a target stands for is paired with it, or is the target itself and nothing is known of it. -/
theorem counterpart?_cases {before : List Scope}
    (h : d.counterpart? before target = some previous) :
    d.pairs.get? previous = some target ∨
      previous = target ∧ target ∈ before ∧ d.pairs.get? target = none ∧
        d.pairs.getInverse? target = none := by
  rw [counterpart?] at h
  cases hinv : d.pairs.getInverse? target with
  | some x =>
    rw [hinv] at h
    obtain rfl : x = previous := by simpa using h
    exact .inl (Renaming.get?_eq_some_iff.2 hinv)
  | none =>
    rw [hinv, Option.orElse_none, Option.ite_none_right_eq_some, Bool.and_eq_true,
      decide_eq_true_eq, Option.some.injEq] at h
    obtain ⟨⟨hold, hmem⟩, rfl⟩ := h
    exact .inr ⟨rfl, hmem, by simpa [Renaming.containsOld] using hold, rfl⟩

/-- What a target stands for can be paired with it. -/
theorem pairable_of_counterpart? {before : List Scope}
    (h : d.counterpart? before target = some previous) :
    d.pairs.get? previous = some target ∨
      d.pairs.get? previous = none ∧ d.pairs.getInverse? target = none := by
  obtain hknown | ⟨rfl, -, hold, hinv⟩ := counterpart?_cases h
  · exact .inl hknown
  · exact .inr ⟨hold, hinv⟩

/-- So can a scope and its previous counterpart. -/
theorem pairable_of_previousOf? (h : d.previousOf? current = some previous) :
    d.pairs.get? previous = some current ∨
      d.pairs.get? previous = none ∧ d.pairs.getInverse? current = none := by
  rw [previousOf?] at h
  cases hinv : d.pairs.getInverse? current with
  | some x =>
    rw [hinv] at h
    obtain rfl : x = previous := by simpa using h
    exact .inl (Renaming.get?_eq_some_iff.2 hinv)
  | none =>
    rw [hinv] at h
    have h' : (if (!d.pairs.containsOld current && d.previous.scopes.contains current) = true then
      some current else none) = some previous := by simpa using h
    split at h'
    · rename_i hfree
      obtain rfl := Option.some.inj h'
      rw [Bool.and_eq_true] at hfree
      exact .inr ⟨by simpa [Renaming.containsOld] using hfree.1, rfl⟩
    · exact absurd h' (by simp)

/-- The counterpart of a scope with a partner is the partner. -/
theorem previousOf?_of_get? (h : d.pairs.get? previous = some current) :
    d.previousOf? current = some previous := by
  rw [previousOf?, Renaming.get?_eq_some_iff.1 h]
  rfl

/-! ## Matching the edges of one label -/

/-- A matching accounts for all previous and current targets, apart from those that are still to be
looked at: it only pairs targets of the two sides, and no target is lost. -/
structure Matching.Sound (m : Matching) (d : Differ) (old new pending todo : List Scope) :
    Prop where
  learns : d.Learns m.differ
  matched : ∀ t ∈ m.matched, t ∈ new ∧ ∃ x ∈ old, m.differ.pairs.get? x = some t
  fresh : ∀ t ∈ m.fresh, t ∈ new
  pending_sub : ∀ x ∈ pending, x ∈ old
  todo_sub : ∀ t ∈ todo, t ∈ new
  covers_old : ∀ x ∈ old, x ∈ pending ∨ x ∈ m.removed ∨
    ∃ t ∈ m.matched, m.differ.pairs.get? x = some t
  covers_new : ∀ t ∈ new, t ∈ todo ∨ t ∈ m.fresh ∨ t ∈ m.matched

namespace Matching

variable {m : Matching} {old new pending todo : List Scope}

/-- A previous and a current target are matched. -/
private theorem Sound.match (h : m.Sound d old new pending todo) {before fresh : List Scope}
    {pending' todo' : List Scope} (hprev : previous ∈ old) (htarget : target ∈ new)
    (hpair : m.differ.pairs.get? previous = some target ∨
      m.differ.pairs.get? previous = none ∧ m.differ.pairs.getInverse? target = none)
    (hfresh : fresh ⊆ m.fresh) (hpending : pending' ⊆ pending) (htodo : todo' ⊆ todo)
    (hrest : ∀ x ∈ pending, x ∈ pending' ∨ x = previous)
    (hnew : ∀ t, t ∈ todo ∨ t ∈ m.fresh → t ∈ todo' ∨ t ∈ fresh ∨ t = target) :
    Sound ⟨m.differ.pair previous target, before, m.matched ++ [target], fresh, m.removed⟩ d old new
      pending' todo' := by
  obtain ⟨hlearns, hget⟩ := learns_pair hpair
  refine ⟨h.learns.trans hlearns, ?_, fun t ht ↦ h.fresh t (hfresh ht),
    fun x hx ↦ h.pending_sub x (hpending hx), fun t ht ↦ h.todo_sub t (htodo ht), ?_, ?_⟩
  · intro t ht
    rcases List.mem_append.1 ht with ht | ht
    · obtain ⟨htn, x, hx, hpx⟩ := h.matched t ht
      exact ⟨htn, x, hx, hlearns.pairs hpx⟩
    · obtain rfl := List.mem_singleton.1 ht
      exact ⟨htarget, previous, hprev, hget⟩
  · intro x hx
    rcases h.covers_old x hx with hx | hx | ⟨t, ht, hpx⟩
    · rcases hrest x hx with hx | rfl
      · exact .inl hx
      · exact .inr (.inr ⟨target, by simp, hget⟩)
    · exact .inr (.inl hx)
    · exact .inr (.inr ⟨t, List.mem_append_left _ ht, hlearns.pairs hpx⟩)
  · intro t ht
    have hcases : t ∈ todo' ∨ t ∈ fresh ∨ t = target ∨ t ∈ m.matched := by
      rcases h.covers_new t ht with ht | ht | ht
      · rcases hnew t (.inl ht) with ht | ht | ht <;> simp [ht]
      · rcases hnew t (.inr ht) with ht | ht | ht <;> simp [ht]
      · simp [ht]
    simpa [or_comm, or_left_comm] using hcases

/-- Looking at a current target keeps the account. -/
theorem Sound.known (h : m.Sound d old new m.before (target :: todo)) :
    (m.known target).Sound d old new (m.known target).before todo := by
  have htarget : target ∈ new := h.todo_sub target (by simp)
  have haside : Sound { m with fresh := m.fresh ++ [target] } d old new m.before todo := by
    refine ⟨h.learns, h.matched, ?_, h.pending_sub, fun t ht ↦ h.todo_sub t (by simp [ht]),
      h.covers_old, ?_⟩
    · intro t ht
      rcases List.mem_append.1 ht with ht | ht
      · exact h.fresh t ht
      · rwa [List.mem_singleton.1 ht]
    · intro t ht
      rcases h.covers_new t ht with ht | ht | ht
      · rcases List.mem_cons.1 ht with rfl | ht
        · simp
        · exact .inl ht
      · simp [ht]
      · simp [ht]
  rw [Matching.known]
  split
  · rename_i x hx
    split
    · rename_i hmem
      refine h.match (h.pending_sub x hmem) htarget (pairable_of_counterpart? hx)
        (fun _ ht ↦ ht) (fun _ ht ↦ List.mem_of_mem_erase ht) (fun _ ht ↦ by simp [ht]) ?_ ?_
      · intro y hy
        by_cases hyx : y = x
        · exact .inr hyx
        · exact .inl ((List.mem_erase_of_ne hyx).2 hy)
      · rintro t (ht | ht)
        · rcases List.mem_cons.1 ht with rfl | ht
          · exact .inr (.inr rfl)
          · exact .inl ht
        · exact .inr (.inl ht)
    · exact haside
  · exact haside

/-- Looking at a previous target without a counterpart keeps the account. -/
theorem Sound.replaced {graph : ScopeGraph} (h : m.Sound d old new (previous :: pending) []) :
    (m.replaced graph previous).Sound d old new pending [] := by
  rw [Matching.replaced]
  split
  · rename_i t ht
    split at ht
    · rename_i hfree
      rw [Bool.and_eq_true] at hfree
      have hmem := List.mem_of_find?_eq_some ht
      have hrep := List.find?_some ht
      rw [replaces, Bool.and_eq_true, Bool.and_eq_true] at hrep
      refine h.match (h.pending_sub previous (by simp)) (h.fresh t hmem)
        (.inr ⟨by simpa [Renaming.containsOld] using hfree.1,
          by simpa [Renaming.containsNew] using hrep.1.2⟩)
        (fun _ hx ↦ List.mem_of_mem_erase hx) (fun _ hx ↦ by simp [hx]) (fun _ hx ↦ hx) ?_ ?_
      · intro x hx
        rcases List.mem_cons.1 hx with hx | hx
        · exact .inr hx
        · exact .inl hx
      · rintro x (hx | hx)
        · exact .inl hx
        · by_cases hxt : x = t
          · exact .inr (.inr hxt)
          · exact .inr (.inl ((List.mem_erase_of_ne hxt).2 hx))
    · exact absurd ht (by simp)
  · refine ⟨h.learns, h.matched, h.fresh, fun x hx ↦ h.pending_sub x (by simp [hx]), h.todo_sub,
      ?_, h.covers_new⟩
    intro x hx
    rcases h.covers_old x hx with hx | hx | hx
    · rcases List.mem_cons.1 hx with rfl | hx
      · simp
      · exact .inl hx
    · simp [hx]
    · exact .inr (.inr hx)

theorem Sound.foldl_known (h : m.Sound d old new m.before todo) :
    (todo.foldl Matching.known m).Sound d old new (todo.foldl Matching.known m).before [] := by
  induction todo generalizing m with
  | nil => exact h
  | cons t todo ih => exact ih h.known

theorem Sound.foldl_replaced {graph : ScopeGraph} (h : m.Sound d old new pending []) :
    (pending.foldl (Matching.replaced graph) m).Sound d old new [] [] := by
  induction pending generalizing m with
  | nil => exact h
  | cons x pending ih => exact ih h.replaced

end Matching

/-- In the beginning all targets are still to be looked at. -/
theorem Matching.sound_start (d : Differ) (old new : List Scope) :
    Matching.Sound ⟨d, old, [], [], []⟩ d old new old new :=
  ⟨.refl d, by simp, by simp, fun _ hx ↦ hx, fun _ ht ↦ ht, fun _ hx ↦ .inl hx,
    fun _ ht ↦ .inl ht⟩

/-- The matching of the edges under one label accounts for all of them. -/
theorem matchLabel_sound (d : Differ) (graph : ScopeGraph) (current previous : Scope) (l : Label) :
    (d.matchLabel graph current previous l).Sound d (d.previous.targets previous l)
      (graph.targets current l) [] [] := by
  have hknown := (Matching.sound_start d (d.previous.targets previous l)
    (graph.targets current l)).foldl_known
  exact Matching.Sound.foldl_replaced ⟨hknown.learns, hknown.matched, hknown.fresh,
    hknown.pending_sub, hknown.todo_sub, hknown.covers_old, hknown.covers_new⟩

/-! ## Label by label -/

/-- While the edges of a scope are compared, the difference accounts for the labels that have had
their turn. -/
private theorem diffLabel_accounts {graph before : ScopeGraph} {acc : Differ × ScopeDiff}
    {labels : List Label} (hprev : acc.1.previous = before)
    (h : acc.2.AccountsForEdges acc.1.pairs before graph labels) (l : Label) :
    acc.1.Learns (diffLabel graph acc l).1 ∧
      (diffLabel graph acc l).2.AccountsForEdges (diffLabel graph acc l).1.pairs before graph
        (l :: labels) := by
  have hm := matchLabel_sound acc.1 graph acc.2.current acc.2.previous l
  rw [hprev] at hm
  refine ⟨hm.learns, hm.learns.pairs h.pair, ?_, ?_, ?_⟩
  · intro k t ht
    rcases List.mem_append.1 ht with ht | ht
    · obtain ⟨htn, x, hx, hpx⟩ := h.matched ht
      exact ⟨htn, x, hx, hm.learns.pairs hpx⟩
    · obtain ⟨t', ht', heq⟩ := List.mem_map.1 ht
      obtain ⟨rfl, rfl⟩ := Prod.mk.inj heq
      exact hm.matched t' ht'
  · intro k t hk ht
    rcases List.mem_cons.1 hk with rfl | hk
    · rcases hm.covers_new t ht with hnil | hf | hmt
      · exact absurd hnil List.not_mem_nil
      · exact .inr (List.mem_append_right _ (List.mem_map.2 ⟨t, hf, rfl⟩))
      · exact .inl (List.mem_append_right _ (List.mem_map.2 ⟨t, hmt, rfl⟩))
    · rcases h.covers_now hk ht with ht | ht
      · exact .inl (List.mem_append_left _ ht)
      · exact .inr (List.mem_append_left _ ht)
  · intro k x hk hx
    rcases List.mem_cons.1 hk with rfl | hk
    · rcases hm.covers_old x hx with hnil | hr | ⟨t, ht, hpx⟩
      · exact absurd hnil List.not_mem_nil
      · exact .inr (List.mem_append_right _ (List.mem_map.2 ⟨x, hr, rfl⟩))
      · exact .inl ⟨t, List.mem_append_right _ (List.mem_map.2 ⟨t, ht, rfl⟩), hpx⟩
    · rcases h.covers_before hk hx with ⟨t, ht, hpx⟩ | hr
      · exact .inl ⟨t, List.mem_append_left _ ht, hm.learns.pairs hpx⟩
      · exact .inr (List.mem_append_left _ hr)

private theorem foldl_diffLabel_accounts {before : ScopeGraph} (graph : ScopeGraph)
    (ls : List Label) (acc : Differ × ScopeDiff) {labels : List Label}
    (hprev : acc.1.previous = before)
    (h : acc.2.AccountsForEdges acc.1.pairs before graph labels) :
    acc.1.Learns (ls.foldl (diffLabel graph) acc).1 ∧
      (ls.foldl (diffLabel graph) acc).2.AccountsForEdges (ls.foldl (diffLabel graph) acc).1.pairs
        before graph (ls ++ labels) := by
  induction ls generalizing acc labels with
  | nil => exact ⟨.refl _, h⟩
  | cons l ls ih =>
    obtain ⟨hlearns, hstep⟩ := diffLabel_accounts hprev h l
    obtain ⟨hlearns', hrest⟩ := ih _ (hlearns.previous.trans hprev) hstep
    refine ⟨hlearns.trans hlearns', hrest.mono (Renaming.le_refl _) ?_⟩
    intro k hk
    simpa [or_left_comm] using hk

private theorem foldl_diffLabel_scopes (graph : ScopeGraph) (ls : List Label)
    (acc : Differ × ScopeDiff) :
    (ls.foldl (diffLabel graph) acc).2.current = acc.2.current ∧
      (ls.foldl (diffLabel graph) acc).2.previous = acc.2.previous := by
  induction ls generalizing acc with
  | nil => exact ⟨rfl, rfl⟩
  | cons l ls ih => exact ih (diffLabel graph acc l)

/-! ## Scope by scope -/

/-- The second differ knows all pairs and differences of the first one. -/
structure Grows (d d' : Differ) : Prop where
  previous : d'.previous = d.previous
  diffs : ∀ {s x}, d.diffOf? s = some x → d'.diffOf? s = some x
  pairs : d.pairs ≤ d'.pairs

theorem Grows.refl (d : Differ) : d.Grows d := ⟨rfl, fun h ↦ h, d.pairs.le_refl⟩

theorem Grows.trans (h : d.Grows d') (h' : d'.Grows d'') : d.Grows d'' :=
  ⟨h'.previous.trans h.previous, fun hx ↦ h'.diffs (h.diffs hx),
    Renaming.le_trans h.pairs h'.pairs⟩

theorem Learns.diffOf?_eq (h : d.Learns d') (s : Scope) : d'.diffOf? s = d.diffOf? s := by
  rw [diffOf?, diffOf?, h.diffs]

theorem Learns.grows (h : d.Learns d') : d.Grows d' :=
  ⟨h.previous, fun hx ↦ (h.diffOf?_eq _).trans hx, h.pairs⟩

/-- A difference is stored for a scope that has none. -/
theorem grows_insert {s : Scope} (hnone : d.diffOf? s = none) (x : ScopeDiff) :
    d.Grows { d with diffs := d.diffs.insert s x } := by
  refine ⟨rfl, fun {t y} hy ↦ ?_, d.pairs.le_refl⟩
  rw [diffOf?, SortedMap.getElem?_insert_eq, if_neg]
  · exact hy
  · rintro rfl
    exact absurd (hnone.symm.trans hy) nofun

variable {before now : ScopeGraph} {labels ls : List Label}

/-- A scope is diffed that has not been diffed before: the pairs that are found on the way are
learnt, the data are judged under all of them, and the difference is stored. -/
theorem exists_diff (hbefore : d.previous = before) {s : Scope} (hnone : d.diffOf? s = none)
    (hprev : d.previousOf? s = some previous) (now : ScopeGraph) (ls : List Label) :
    ∃ e x, d.diff s now ls = (some x, { e with diffs := e.diffs.insert s x }) ∧ d.Learns e ∧
      x.current = s ∧ x.previous = previous ∧ x.AccountsForEdges e.pairs before now ls ∧
        x.Judges e.pairs before now := by
  obtain ⟨hpair, hget⟩ := learns_pair (pairable_of_previousOf? hprev)
  have hstart : ScopeDiff.AccountsForEdges ⟨s, previous, [], [], [], false, false, false⟩
      (d.pair previous s).pairs before now [] := ⟨hget, by simp, by simp, by simp⟩
  obtain ⟨hlearns, hedges⟩ := foldl_diffLabel_accounts now ls
    (d.pair previous s, ⟨s, previous, [], [], [], false, false, false⟩)
    (hpair.previous.trans hbefore) hstart
  obtain ⟨hcur, hold⟩ := foldl_diffLabel_scopes now ls
    (d.pair previous s, ⟨s, previous, [], [], [], false, false, false⟩)
  rw [Differ.diff, hnone]
  simp only [hprev]
  generalize ls.foldl (diffLabel now)
    (d.pair previous s, ⟨s, previous, [], [], [], false, false, false⟩) = edges at *
  rw [List.append_nil] at hedges
  have hall := hpair.trans hlearns
  have hdatum : edges.1.previousDatum? previous =
      (before.datum? edges.2.previous).map (Datum.rename edges.1.pairs) := by
    rw [previousDatum?, hall.previous, hbefore, hold]
  refine ⟨edges.1, _, rfl, hall, hcur, hold,
    ⟨hedges.pair, hedges.matched, hedges.covers_now, hedges.covers_before⟩, ⟨?_, ?_, ?_⟩⟩
  · rw [← hdatum, hcur]
    simp
  · rw [hdatum, Option.isSome_map]
  · rw [hcur]

/-- Diffing a scope loses nothing, and the answer is the difference that is stored. -/
theorem grows_diff (d : Differ) (s : Scope) (now : ScopeGraph) (ls : List Label) :
    d.Grows (d.diff s now ls).2 ∧ (d.diff s now ls).1 = (d.diff s now ls).2.diffOf? s := by
  cases hx : d.diffOf? s with
  | some x =>
    rw [Differ.diff, hx]
    exact ⟨.refl d, hx.symm⟩
  | none =>
    cases hprev : d.previousOf? s with
    | none =>
      rw [Differ.diff, hx]
      simp only [hprev]
      exact ⟨.refl d, hx.symm⟩
    | some previous =>
      obtain ⟨e, x, heq, hlearns, -⟩ := exists_diff rfl hx hprev now ls
      -- Comparing edges stores no differences, so there is still none for the scope.
      have hnone : e.diffOf? s = none := (hlearns.diffOf?_eq s).trans hx
      rw [heq]
      refine ⟨hlearns.grows.trans (grows_insert hnone x), ?_⟩
      rw [diffOf?, SortedMap.getElem?_insert_eq, if_pos rfl]

/-- What is stored after a scope was diffed was stored before, or it is the difference of this
scope, which had none. -/
theorem diffOf?_diff_cases (hbefore : d.previous = before) {s t : Scope} {x : ScopeDiff}
    (hx : (d.diff t now ls).2.diffOf? s = some x) :
    d.diffOf? s = some x ∨
      t = s ∧ d.diffOf? s = none ∧ (d.diff s now ls).1 = some x ∧ x.current = s ∧
        x.AccountsForEdges (d.diff s now ls).2.pairs before now ls ∧
          x.Judges (d.diff s now ls).2.pairs before now := by
  by_cases hold : d.diffOf? s = some x
  · exact .inl hold
  · refine .inr ?_
    cases hnone : d.diffOf? t with
    | some y =>
      rw [Differ.diff, hnone] at hx
      exact absurd hx hold
    | none =>
      cases hprev : d.previousOf? t with
      | none =>
        rw [Differ.diff, hnone] at hx
        simp only [hprev] at hx
        exact absurd hx hold
      | some previous =>
        obtain ⟨e, y, heq, hlearns, hcur, -, hedges, hjudges⟩ :=
          exists_diff hbefore hnone hprev now ls
        rw [heq, diffOf?, SortedMap.getElem?_insert_eq] at hx
        split at hx
        · rename_i hts
          subst hts
          obtain rfl := Option.some.inj hx
          rw [heq]
          exact ⟨rfl, hnone, rfl, hcur, hedges, hjudges⟩
        · exact absurd ((hlearns.diffOf?_eq s).symm.trans hx) hold

/-! ## Differs that come about -/

/-- The differs that can come about when two graphs are compared, in any order: pairs are recorded,
queued scopes are taken up, and scopes are diffed under all the given labels and maybe more. -/
inductive Reached (owner : UnitId) (before now : ScopeGraph) (labels : List Label) :
    Differ → Prop where
  /-- The differ that knows some pairs. -/
  | start (pairs : Renaming) : Reached owner before now labels (.start owner before pairs)
  /-- A pair is recorded. -/
  | pair {d d' : Differ} {a b : Scope} (h : Reached owner before now labels d)
      (hp : d.pair? a b = some d') : Reached owner before now labels d'
  /-- A scope of the queue is taken up. -/
  | next {d : Differ} (h : Reached owner before now labels d) :
      Reached owner before now labels d.nextUnexplored.2
  /-- A scope is diffed. -/
  | diff {d : Differ} {ls : List Label} (h : Reached owner before now labels d) (s : Scope)
      (hls : labels ⊆ ls) : Reached owner before now labels (d.diff s now ls).2

theorem learns_nextUnexplored (d : Differ) : d.Learns d.nextUnexplored.2 := by
  rw [nextUnexplored]
  split
  · exact ⟨rfl, rfl, d.pairs.le_refl⟩
  · exact ⟨rfl, rfl, d.pairs.le_refl⟩

variable {owner : UnitId}

theorem Reached.previous_eq (h : Reached owner before now labels d) : d.previous = before := by
  induction h with
  | start pairs => rfl
  | pair _ hp ih => exact (learns_of_pair? hp).1.previous.trans ih
  | next _ ih => exact (learns_nextUnexplored _).previous.trans ih
  | diff _ s _ ih => exact (grows_diff _ s now _).1.previous.trans ih

/-- The pairs under which the data of a difference were judged: those that were known at the end of
the comparison that led to the difference. -/
def Judged (owner : UnitId) (before now : ScopeGraph) (labels : List Label) (d : Differ)
    (x : ScopeDiff) (r : Renaming) : Prop :=
  ∃ e ls, Reached owner before now labels e ∧ labels ⊆ ls ∧ e.diffOf? x.current = none ∧
    (e.diff x.current now ls).1 = some x ∧ (e.diff x.current now ls).2.pairs = r ∧
      (e.diff x.current now ls).2.Grows d

theorem Judged.mono {x : ScopeDiff} {r : Renaming} (h : Judged owner before now labels d x r)
    (hd : d.Grows d') : Judged owner before now labels d' x r := by
  obtain ⟨e, ls, he, hls, hnone, hx, hr, hgrows⟩ := h
  exact ⟨e, ls, he, hls, hnone, hx, hr, hgrows.trans hd⟩

/-- They are known ever after. -/
theorem Judged.le {x : ScopeDiff} {r : Renaming} (h : Judged owner before now labels d x r) :
    r ≤ d.pairs := by
  obtain ⟨e, ls, -, -, -, -, rfl, hgrows⟩ := h
  exact hgrows.pairs

/-- What a difference of a scope says is true. It accounts for the edges of the scope, relative to
all pairs that are known by now, and for the data relative to those under which they were judged. -/
structure Vouches (owner : UnitId) (before now : ScopeGraph) (labels : List Label) (d : Differ)
    (s : Scope) (x : ScopeDiff) : Prop where
  current : x.current = s
  edges : x.AccountsForEdges d.pairs before now labels
  data : ∃ r, Judged owner before now labels d x r ∧ x.Judges r before now

theorem Vouches.mono {s : Scope} {x : ScopeDiff} (h : Vouches owner before now labels d s x)
    (hd : d.Grows d') : Vouches owner before now labels d' s x where
  current := h.current
  edges := h.edges.mono hd.pairs (List.Subset.refl _)
  data := by
    obtain ⟨r, hr, hjudges⟩ := h.data
    exact ⟨r, hr.mono hd, hjudges⟩

/-- **What a difference says stays true.** -/
theorem Reached.diffs (h : Reached owner before now labels d) {s : Scope} {x : ScopeDiff}
    (hx : d.diffOf? s = some x) : Vouches owner before now labels d s x := by
  induction h generalizing s x with
  | start pairs => exact absurd hx (by simp [diffOf?, Differ.start])
  | pair _ hp ih =>
    have hlearns := (learns_of_pair? hp).1
    exact (ih ((hlearns.diffOf?_eq s).symm.trans hx)).mono hlearns.grows
  | @next d _ ih =>
    have hlearns := learns_nextUnexplored d
    exact (ih ((hlearns.diffOf?_eq s).symm.trans hx)).mono hlearns.grows
  | @diff d ls h t hls ih =>
    rcases diffOf?_diff_cases h.previous_eq hx with
      hold | ⟨rfl, hnone, hfound, rfl, hedges, hjudges⟩
    · exact (ih hold).mono (d.grows_diff t now ls).1
    · refine ⟨rfl, hedges.mono (Renaming.le_refl _) hls, _, ?_, hjudges⟩
      exact ⟨d, ls, h, hls, hnone, hfound, rfl, .refl _⟩

/-- A scope with a counterpart has a difference, and afterwards the two are paired. -/
theorem Reached.diff_of_previousOf? (h : Reached owner before now labels d) (hls : labels ⊆ ls)
    {s p : Scope} (hp : d.previousOf? s = some p) :
    ∃ x, (d.diff s now ls).1 = some x ∧ (d.diff s now ls).2.pairs.get? p = some s := by
  have hsome : ∃ x, (d.diff s now ls).1 = some x ∧ x.previous = p := by
    cases hx : d.diffOf? s with
    | some x =>
      have hvouches := h.diffs hx
      have hinv := Renaming.get?_eq_some_iff.1 hvouches.edges.pair
      rw [previousOf?, ← hvouches.current, hinv] at hp
      rw [Differ.diff, hx]
      exact ⟨x, rfl, by simpa using hp⟩
    | none =>
      obtain ⟨e, x, hdiff, -, -, hprev, -⟩ := exists_diff h.previous_eq hx hp now ls
      rw [hdiff]
      exact ⟨x, rfl, hprev⟩
  obtain ⟨x, hx, rfl⟩ := hsome
  have hvouches := (h.diff s hls).diffs ((d.grows_diff s now ls).2.symm.trans hx)
  exact ⟨x, hx, hvouches.current ▸ hvouches.edges.pair⟩

/-- Every difference that is stored accounts for its scope. -/
structure Sound (d : Differ) (before now : ScopeGraph) (labels : List Label) : Prop where
  diffs : ∀ {s x}, d.diffOf? s = some x →
    x.current = s ∧ x.Accounts d.pairs before now labels

theorem Reached.sound (h : Reached owner before now labels d) (hrigid : before.Rigid) :
    d.Sound before now labels where
  diffs hx := by
    obtain ⟨hcur, hedges, r, -, hjudges⟩ := h.diffs hx
    exact ⟨hcur, hedges.accounts hjudges hrigid⟩

end Differ

end ScopeGraphs
