import ScopeGraphs.Proofs.Diff.Histories
import ScopeGraphs.Proofs.Paths

/-!
# Exploring to the end

Diffing a scope pairs further scopes, and these are queued, so the loop that diffs whatever the queue
gives feeds its own queue. It ends all the same: a scope is queued only when it is paired for the first
time, and what a comparison pairs is in the current graph, so the queue and the current scopes without
a partner get fewer together (`Differ.backlog`).

When it has ended, no scope has been forgotten. A scope with a partner that the differ takes up waits
in the queue, has been diffed or is about to be (`Differ.Watches`). The last possibility is there for
those who take a scope from the queue and do other things before they diff it; that they do diff it is
all that is asked of a history (`Differ.FollowsUp`).
-/

namespace ScopeGraphs

theorem Renaming.containsNew_iff {p : Renaming} {b : Scope} :
    p.containsNew b = true ↔ ∃ a, p.get? a = some b := by
  rw [containsNew, Option.isSome_iff_exists]
  exact exists_congr fun a ↦ get?_eq_some_iff.symm

namespace Differ

variable {d d' e : Differ} {graph : ScopeGraph} {labels : List Label} {s : Scope}

/-! ## The loop -/

/-- The loop that diffs every scope that the queue gives leads from a differ to another one, at which
the queue gives no scope any more. -/
inductive Explores (graph : ScopeGraph) (labels : List Label) : Differ → Differ → Prop where
  /-- The queue gives nothing. -/
  | done {d d' : Differ} (h : d.nextUnexplored = (none, d')) : Explores graph labels d d'
  /-- The queue gives a scope, which is diffed. -/
  | step {d e d' : Differ} {s : Scope} (h : d.nextUnexplored = (some s, e))
      (rest : Explores graph labels (e.diff s graph labels).2 d') : Explores graph labels d d'

/-! ## What is left to do -/

/-- The queued scopes and the current ones that could still be queued. -/
def backlog (d : Differ) (graph : ScopeGraph) : Nat :=
  d.frontier.length + (graph.scopes.toList.filter fun c ↦ !d.pairs.containsNew c).length

/-- Recording a pair queues a scope only if it was unpaired before. -/
theorem backlog_pair_le {previous current : Scope}
    (h : current ∈ graph.scopes ∨ d.pairs.containsNew current = true) :
    (d.pair previous current).backlog graph ≤ d.backlog graph := by
  cases hput : d.pairs.put? previous current with
  | none =>
    rw [pair, pair?, hput]
    exact Nat.le_refl _
  | some q =>
    have hle : d.pairs ≤ q := Renaming.le_of_put? hput
    have hfilter : (graph.scopes.toList.filter fun c ↦ !q.containsNew c) =
        (graph.scopes.toList.filter fun c ↦ !d.pairs.containsNew c).filter
          fun c ↦ !q.containsNew c := by
      rw [List.filter_filter]
      refine List.filter_congr fun c _ ↦ ?_
      cases hc : d.pairs.containsNew c with
      | false => simp
      | true =>
        obtain ⟨a, ha⟩ := Renaming.containsNew_iff.1 hc
        simp [Renaming.containsNew_iff.2 ⟨a, hle ha⟩]
    rw [pair, pair?, hput, Option.map_some, Option.getD_some, backlog, backlog, hfilter]
    dsimp only
    split
    · exact Nat.add_le_add_left (List.length_filter_le _ _) _
    · rename_i hnew
      have hmem := h.resolve_right hnew
      have hself : q.containsNew current = true :=
        Renaming.containsNew_iff.2 ⟨previous, Renaming.get?_self_of_put? hput⟩
      have hlt := List.length_filter_lt_length_iff_exists
        (p := fun c ↦ !q.containsNew c)
        (l := graph.scopes.toList.filter fun c ↦ !d.pairs.containsNew c)
        |>.2 ⟨current, List.mem_filter.2 ⟨Std.ExtTreeSet.mem_toList.2 hmem, by simp [hnew]⟩,
          by simp [hself]⟩
      rw [List.length_append, List.length_singleton]
      omega

namespace Matching

variable {m : Matching} {now : ScopeGraph} {target previous : Scope} {todo pending : List Scope}

theorem backlog_known_le (h : target ∈ graph.scopes) :
    (m.known target).differ.backlog graph ≤ m.differ.backlog graph := by
  rw [known]
  split
  · split
    · exact backlog_pair_le (.inl h)
    · exact Nat.le_refl _
  · exact Nat.le_refl _

theorem backlog_replaced_le (h : ∀ t ∈ m.fresh, t ∈ graph.scopes) :
    (m.replaced now previous).differ.backlog graph ≤ m.differ.backlog graph := by
  rw [replaced]
  split
  · rename_i t ht
    split at ht
    · exact backlog_pair_le (.inl (h t (List.mem_of_find?_eq_some ht)))
    · exact absurd ht (Option.some_ne_none t).symm
  · exact Nat.le_refl _

theorem backlog_foldl_known_le (h : ∀ t ∈ todo, t ∈ graph.scopes) :
    (todo.foldl known m).differ.backlog graph ≤ m.differ.backlog graph := by
  induction todo generalizing m with
  | nil => exact Nat.le_refl _
  | cons t todo ih =>
    rw [List.forall_mem_cons] at h
    exact Nat.le_trans (ih h.2) (backlog_known_le h.1)

theorem backlog_foldl_replaced_le (h : ∀ t ∈ m.fresh, t ∈ graph.scopes) :
    (pending.foldl (replaced now) m).differ.backlog graph ≤ m.differ.backlog graph := by
  induction pending generalizing m with
  | nil => exact Nat.le_refl _
  | cons x pending ih =>
    exact Nat.le_trans (ih fun t ht ↦ h t (fresh_replaced_subset ht)) (backlog_replaced_le h)

end Matching

theorem backlog_matchLabel_le (d : Differ) (graph : ScopeGraph) (current previous : Scope)
    (l : Label) : (d.matchLabel graph current previous l).differ.backlog graph ≤ d.backlog graph := by
  have htargets : ∀ t ∈ graph.targets current l, t ∈ graph.scopes :=
    fun t ht ↦ ScopeGraph.mem_scopes_of_mem_targets ht
  have hfresh := (Matching.sound_start d (d.previous.targets previous l)
    (graph.targets current l)).foldl_known.fresh
  exact Nat.le_trans (Matching.backlog_foldl_replaced_le fun t ht ↦ htargets t (hfresh t ht))
    (Matching.backlog_foldl_known_le htargets)

theorem backlog_foldl_diffLabel_le (d : Differ) (graph : ScopeGraph) (ls : List Label)
    (x : ScopeDiff) : (ls.foldl (diffLabel graph) (d, x)).1.backlog graph ≤ d.backlog graph := by
  induction ls generalizing d x with
  | nil => exact Nat.le_refl _
  | cons l ls ih =>
    exact Nat.le_trans (ih _ _) (d.backlog_matchLabel_le graph x.current x.previous l)

/-- Diffing a scope with a partner does not make the backlog larger. -/
theorem backlog_diff_le (hs : d.pairs.containsNew s = true) (graph : ScopeGraph)
    (labels : List Label) : (d.diff s graph labels).2.backlog graph ≤ d.backlog graph := by
  rw [diff]
  split
  · exact Nat.le_refl _
  · split
    · exact Nat.le_refl _
    · exact Nat.le_trans (backlog_foldl_diffLabel_le _ graph labels _) (backlog_pair_le (.inr hs))

/-- Taking a scope makes it smaller. -/
theorem backlog_lt_of_nextUnexplored (h : d.nextUnexplored = (some s, e)) :
    e.backlog graph < d.backlog graph := by
  rw [nextUnexplored] at h
  split at h
  · exact absurd (Prod.mk.inj h).1 (Option.some_ne_none s).symm
  · rename_i c rest hrest
    obtain ⟨-, rfl⟩ := Prod.mk.inj h
    have hlength := (List.dropWhile_suffix
      (fun s ↦ !d.isRelevant s || d.diffs.contains s) (l := d.frontier)).length_le
    rw [hrest, List.length_cons] at hlength
    rw [backlog, backlog]
    dsimp only
    omega

/-! ## What is kept in view -/

/-- The scope will be diffed by one of the requests. -/
def IsDue (s : Scope) (history : List Operation) : Prop :=
  ∃ graph labels, .diff s graph labels ∈ history

/-- Only paired scopes are queued, and every paired scope that the differ takes up waits in the queue,
has been diffed or is due in the requests that are still to come. -/
structure Watches (d : Differ) (history : List Operation) : Prop where
  queued : ∀ {c}, c ∈ d.frontier → ∃ p, d.pairs.get? p = some c
  waiting : ∀ {p c}, d.pairs.get? p = some c → d.isRelevant c = true →
    c ∈ d.frontier ∨ d.Compared c ∨ IsDue c history

/-- Every scope that is taken from the queue by one of the requests is diffed by a later one. -/
def FollowsUp (d : Differ) (history : List Operation) : Prop :=
  ∀ first rest s, history = first ++ .nextUnexplored :: rest →
    (d.performAll first).nextUnexplored.1 = some s → IsDue s rest

theorem followsUp_nil (d : Differ) : d.FollowsUp [] := by
  intro first rest s heq
  exact absurd heq.symm (by simp)

/-- A request to take a scope is followed up by the requests right behind it, and the others by those
behind them. -/
theorem followsUp_cons {o : Operation} {history : List Operation} :
    d.FollowsUp (o :: history) ↔
      (o = .nextUnexplored → ∀ s, d.nextUnexplored.1 = some s → IsDue s history) ∧
        (d.perform o).FollowsUp history := by
  constructor
  · intro h
    refine ⟨?_, ?_⟩
    · rintro rfl s hs
      exact h [] history s rfl hs
    · intro first rest s heq hs
      exact h (o :: first) rest s (by rw [heq, List.cons_append]) hs
  · rintro ⟨hhead, htail⟩ first rest s heq hs
    rcases first with _ | ⟨o', first⟩
    · obtain ⟨rfl, rfl⟩ := List.cons.inj heq
      exact hhead rfl s hs
    · obtain ⟨rfl, rfl⟩ := List.cons.inj heq
      exact htail first rest s rfl hs

variable {history : List Operation}

/-- In the beginning every paired scope is queued. -/
theorem watches_start (owner : UnitId) (previous : ScopeGraph) (pairs : Renaming)
    (history : List Operation) : (start owner previous pairs).Watches history := by
  have hkeys : ∀ {c}, c ∈ pairs.backward.keys ↔ ∃ p, pairs.get? p = some c := by
    intro c
    rw [Std.ExtTreeMap.mem_keys, Std.ExtTreeMap.mem_iff_isSome_getElem?, Option.isSome_iff_exists]
    exact exists_congr fun p ↦ Renaming.get?_eq_some_iff.symm
  exact ⟨fun hc ↦ hkeys.1 hc, fun hp _ ↦ .inl (hkeys.2 ⟨_, hp⟩)⟩

/-- Pairs that are learnt are queued. -/
theorem Queues.watches (h : d.Queues e) (hd : d.Watches history) : e.Watches history where
  queued hc := by
    rcases h.paired hc with hc | hc
    · obtain ⟨p, hp⟩ := hd.queued hc
      exact ⟨p, h.pairs hp⟩
    · exact hc
  waiting hp hc := by
    rcases h.queued hp with hp | hc'
    · rcases hd.waiting hp ((h.later.isRelevant _).symm.trans hc) with hc' | hc' | hc'
      · exact .inl (h.frontier hc')
      · exact .inr (.inl (h.later.compared hc'))
      · exact .inr (.inr hc')
    · exact .inl hc'

/-- A scope that is taken is due. -/
theorem Watches.nextUnexplored (h : d.Watches history)
    (hdue : ∀ {s}, d.nextUnexplored.1 = some s → IsDue s history) :
    d.nextUnexplored.2.Watches history := by
  rcases d.nextUnexplored_cases with ⟨c, rest, heq, -, -, -, hrest, hkeeps⟩ | ⟨heq, hall⟩
  · rw [heq] at hdue ⊢
    refine ⟨fun hb ↦ h.queued (hrest _ hb), ?_⟩
    intro p b hp hb
    rcases h.waiting hp hb with hq | hq
    · by_cases hcompared : d.Compared b
      · exact .inr (.inl hcompared)
      · rcases hkeeps b hq hb hcompared with rfl | hq
        · exact .inr (.inr (hdue rfl))
        · exact .inl hq
    · exact .inr hq
  · rw [heq]
    refine ⟨fun hb ↦ absurd hb List.not_mem_nil, ?_⟩
    intro p b hp hb
    rcases h.waiting hp hb with hq | hq
    · exact .inr (.inl (hall b hq hb))
    · exact .inr hq

/-- A scope with a partner is never passed over when it is to be diffed. -/
theorem compared_diff {p : Scope} (hp : d.pairs.get? p = some s) (graph : ScopeGraph)
    (labels : List Label) : (d.diff s graph labels).2.Compared s := by
  cases hx : d.diffOf? s with
  | some x =>
    rw [Differ.diff, hx]
    exact ⟨x, hx⟩
  | none =>
    obtain ⟨e, x, heq, -⟩ := exists_queues_diff graph labels hx (previousOf?_of_get? hp)
    refine ⟨x, ?_⟩
    rw [heq, diffOf?, SortedMap.getElem?_insert_eq, if_pos rfl]

/-- Diffing keeps everything in view, and the scope that is diffed need not be due any more. -/
theorem Watches.diff (h : d.Watches (.diff s graph labels :: history)) :
    (d.diff s graph labels).2.Watches history := by
  have hlater := d.later_diff s graph labels
  -- What was due is due later on, or it is the scope that is diffed now.
  have hdue : ∀ {p c}, d.pairs.get? p = some c → IsDue c (.diff s graph labels :: history) →
      (d.diff s graph labels).2.Compared c ∨ IsDue c history := by
    rintro p c hp ⟨graph', labels', hmem⟩
    rcases List.mem_cons.1 hmem with heq | hmem
    · obtain ⟨rfl, rfl, rfl⟩ := Operation.diff.inj heq
      exact .inl (compared_diff hp _ _)
    · exact .inr ⟨graph', labels', hmem⟩
  obtain ⟨e, diffs, heq, hqueues⟩ := d.exists_queues_of_diff s graph labels
  rw [heq] at hlater hdue ⊢
  refine ⟨?_, ?_⟩
  · intro c hc
    rcases hqueues.paired hc with hc | hc
    · obtain ⟨p, hp⟩ := h.queued hc
      exact ⟨p, hqueues.pairs hp⟩
    · exact hc
  · intro p c hp hc
    rcases hqueues.queued hp with hp | hq
    · rcases h.waiting hp ((hlater.isRelevant c).symm.trans hc) with hq | hq | hq
      · exact .inl (hqueues.frontier hq)
      · exact .inr (.inl (hlater.compared hq))
      · exact .inr (hdue hp hq)
    · exact .inl hq

/-- Every history that follows up what is taken keeps everything in view. -/
theorem Watches.performAll (h : d.Watches history) (hfollows : d.FollowsUp history) :
    (d.performAll history).Watches [] := by
  induction history generalizing d with
  | nil => exact h
  | cons o history ih =>
    obtain ⟨htaken, hfollows⟩ := followsUp_cons.1 hfollows
    refine ih ?_ hfollows
    have hskip (hne : ∀ s graph labels, o ≠ .diff s graph labels) : d.Watches history := by
      refine ⟨h.queued, fun hp hc ↦ (h.waiting hp hc).imp_right fun hq ↦ hq.imp_right ?_⟩
      rintro ⟨graph, labels, hmem⟩
      exact ⟨graph, labels, (List.mem_cons.1 hmem).resolve_left fun heq ↦ hne _ _ _ heq.symm⟩
    rcases o with ⟨previous, current⟩ | _ | ⟨s, graph, labels⟩
    · exact (d.queues_pair previous current).watches (hskip nofun)
    · exact (hskip nofun).nextUnexplored fun hs ↦ htaken rfl _ hs
    · exact h.diff

/-! ## Exploring -/

/-- What was taken is diffed at once. -/
theorem Watches.explore (h : d.Watches []) (hnext : d.nextUnexplored = (some s, e)) :
    (e.diff s graph labels).2.Watches [] ∧ e.pairs.containsNew s = true := by
  have hfollows : d.FollowsUp [.nextUnexplored, .diff s graph labels] := by
    refine followsUp_cons.2 ⟨fun _ s' hs' ↦ ?_, followsUp_cons.2 ⟨nofun, followsUp_nil _⟩⟩
    rw [hnext] at hs'
    obtain rfl := Option.some.inj hs'
    exact ⟨graph, labels, List.mem_singleton_self _⟩
  have hwatches : d.Watches [.nextUnexplored, .diff s graph labels] :=
    ⟨h.queued, fun hp hc ↦ (h.waiting hp hc).imp_right fun hq ↦ hq.imp_right fun ⟨_, _, hmem⟩ ↦
      absurd hmem List.not_mem_nil⟩
  refine ⟨?_, ?_⟩
  · have hend := hwatches.performAll hfollows
    rwa [performAll_cons, performAll_cons, performAll_nil, perform, perform, hnext] at hend
  · rcases d.nextUnexplored_cases with ⟨c, rest, heq, hmem, -⟩ | ⟨heq, -⟩
    · obtain ⟨hc, rfl⟩ := Prod.mk.inj (hnext.symm.trans heq)
      obtain rfl := Option.some.inj hc
      exact Renaming.containsNew_iff.2 (h.queued hmem)
    · exact absurd (Prod.mk.inj (hnext.symm.trans heq)).1 nofun

/-- With more fuel than there is backlog, the queue is explored to its end. -/
theorem Watches.explores_explore {n : Nat} (h : d.Watches []) (hn : d.backlog graph < n) :
    Explores graph labels d (d.explore graph labels n).2 := by
  induction n generalizing d with
  | zero => exact absurd hn (Nat.not_lt_zero _)
  | succ n ih =>
    rw [Differ.explore]
    split
    · rename_i d' hnext
      exact .done hnext
    · rename_i s e hnext
      obtain ⟨hwatches, hpaired⟩ := h.explore hnext
      have hlt : e.backlog graph < d.backlog graph := backlog_lt_of_nextUnexplored hnext
      have hle := backlog_diff_le hpaired graph labels
      exact .step hnext (ih hwatches (by omega))

/-- There is fuel enough. -/
theorem Watches.explores_exploreAll (h : d.Watches []) :
    Explores graph labels d (d.exploreAll graph labels).2 := by
  refine h.explores_explore ?_
  have hscopes := List.length_filter_le (fun c ↦ !d.pairs.containsNew c) graph.scopes.toList
  rw [Std.ExtTreeSet.length_toList] at hscopes
  rw [backlog]
  omega

/-- When nothing is left in the queue, every paired scope that the differ takes up has been diffed. -/
theorem Explores.compared (h : Explores graph labels d d') (hd : d.Watches []) :
    d.Later d' ∧ ∀ {p c}, d'.pairs.get? p = some c → d'.isRelevant c = true → d'.Compared c := by
  induction h with
  | @done d d' hnext =>
    have hlater := d.later_nextUnexplored
    have hend := hd.nextUnexplored fun hs ↦ absurd ((congrArg Prod.fst hnext).symm.trans hs) nofun
    rw [hnext] at hlater hend
    refine ⟨hlater, fun hp hc ↦ ?_⟩
    rcases hend.waiting hp hc with hq | hq | ⟨_, _, hmem⟩
    · rcases d.nextUnexplored_cases with ⟨c, rest, heq, -⟩ | ⟨heq, -⟩
      · exact absurd (Prod.mk.inj (hnext.symm.trans heq)).1 nofun
      · obtain rfl := (Prod.mk.inj (hnext.symm.trans heq)).2
        exact absurd hq List.not_mem_nil
    · exact hq
    · exact absurd hmem List.not_mem_nil
  | @step d e d' s hnext _ ih =>
    have hlater := d.later_nextUnexplored
    rw [hnext] at hlater
    obtain ⟨hrest, hall⟩ := ih (hd.explore hnext).1
    exact ⟨(hlater.trans (e.later_diff s graph labels)).trans hrest, hall⟩

/-- **Exploration ends and forgets nothing.** Let a differ have been asked anything, as long as every
scope that was taken from its queue was diffed at some time. Then the loop that diffs whatever the
queue gives comes to an end, and then every current scope with a partner has a difference that belongs
to the unit or was paired from the start. -/
theorem exploration_isExhaustive {owner : UnitId} {previous : ScopeGraph} {pairs : Renaming}
    (hfollows : (start owner previous pairs).FollowsUp history)
    (hd : (start owner previous pairs).performAll history = d) (graph : ScopeGraph)
    (labels : List Label) :
    Explores graph labels d (d.exploreAll graph labels).2 ∧
      ∀ d', Explores graph labels d d' → ∀ a b, d'.pairs.get? a = some b →
        b.owner = owner ∨ (∃ x, pairs.get? x = some b) → ∃ x, d'.diffOf? b = some x := by
  have hwatches := (watches_start owner previous pairs history).performAll hfollows
  have hstart := (start owner previous pairs).later_performAll history
  rw [hd] at hwatches hstart
  refine ⟨hwatches.explores_exploreAll, ?_⟩
  intro d' hexplores a b hab hb
  obtain ⟨hlater, hall⟩ := hexplores.compared hwatches
  refine hall hab ?_
  rw [(hstart.trans hlater).isRelevant, isRelevant, Bool.or_eq_true, decide_eq_true_eq]
  refine hb.imp_right fun hroot ↦ ?_
  obtain ⟨x, hx⟩ := hroot
  exact Std.ExtTreeSet.contains_iff_mem.2 <| SortedSet.mem_ofList.2 <| Std.ExtTreeMap.mem_keys.2 <|
    Std.ExtTreeMap.mem_iff_isSome_getElem?.2 <|
      Option.isSome_iff_exists.2 ⟨x, Renaming.get?_eq_some_iff.1 hx⟩

/-- A scope of a unit. -/
private def link (name : String) : Scope := ⟨⟨"u"⟩, name⟩

/-- A graph that leads from one scope over a declaration to another one. -/
private def chain (name : String) : ScopeGraph :=
  .of [⟨link "first", "E", link name⟩, ⟨link name, "E", link "last"⟩] [(link name, .int 1)]

/-- The requests that came before: the first scope was taken, something else was told, and then the
scope was diffed. -/
private def chainHistory : List Operation :=
  [.nextUnexplored, .matchScopes (link "far") (link "far"), .diff (link "first") (chain "new") ["E"]]

/-- The differ after that. -/
private def chainDiffer : Differ :=
  (start ⟨"u"⟩ (chain "old") (Renaming.identity.put (link "first") (link "first"))).performAll
    chainHistory

/-- The loop goes along the chain to its last scope, over the declaration that got another name. -/
theorem exploration_isExhaustive_chain :
    (start ⟨"u"⟩ (chain "old") (Renaming.identity.put (link "first") (link "first"))).FollowsUp
        chainHistory ∧
      Explores (chain "new") ["E"] chainDiffer (chainDiffer.exploreAll (chain "new") ["E"]).2 ∧
      ∃ x, (chainDiffer.exploreAll (chain "new") ["E"]).2.diffOf? (link "last") = some x := by
  have hfollows : (start ⟨"u"⟩ (chain "old")
      (Renaming.identity.put (link "first") (link "first"))).FollowsUp chainHistory := by
    refine followsUp_cons.2 ⟨fun _ s hs ↦ ?_, followsUp_cons.2 ⟨nofun, followsUp_cons.2
      ⟨nofun, followsUp_nil _⟩⟩⟩
    obtain rfl : link "first" = s := Option.some.inj hs
    exact ⟨chain "new", ["E"], by simp⟩
  obtain ⟨hends, hall⟩ := exploration_isExhaustive hfollows rfl (chain "new") ["E"]
  exact ⟨hfollows, hends, hall _ hends (link "last") (link "last") (by rfl) (.inl rfl)⟩

end Differ

end ScopeGraphs
