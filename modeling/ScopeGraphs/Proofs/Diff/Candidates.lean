import ScopeGraphs.Proofs.Diff.Comparing

/-!
# Comparisons without competing candidates

A renaming decides the comparisons of a differ if there is never a choice: targets that both runs have
are kept by it, and of the other ones it pairs those of the unit that have the same datum, whatever
part of it is known (`Differ.Unambiguous`). So it does if nothing has changed since the previous run.

The greedy matching of targets is followed step by step for that. It has paired only what the renaming
pairs, and can still pair everything that the renaming pairs (`Differ.Matching.Guided`).
-/

namespace ScopeGraphs

namespace Differ

variable {d d' : Differ} {r : Renaming} {previous current target : Scope}

/-! ## Matching the edges of one label -/

/-- What a renaming says about targets of two scopes is what a comparison can find out: the targets
of both are kept, and of the others those are paired that belong to the unit and have the same datum,
whatever part of the renaming is known. -/
structure Decides (r : Renaming) (d : Differ) (graph : ScopeGraph) (old new : List Scope) : Prop where
  kept : ∀ {t}, t ∈ old → t ∈ new → r.get? t = some t
  replaced : ∀ {a t}, a ∈ old → a ∉ new → t ∈ new → t ∉ old → d.pairs.get? a = none →
    d.pairs.getInverse? t = none → ∀ q ≤ r, (r.get? a = some t ↔
      a.owner = d.owner ∧ t.owner = d.owner ∧
        (d.previous.datum? a).map (Datum.rename q) = graph.datum? t)

/-- A matching is guided by a renaming: it has only paired targets of the two sides as the renaming
does, and it still can pair all of them that way. -/
structure Matching.Guided (m : Matching) (d : Differ) (r : Renaming)
    (old new pending todo : List Scope) : Prop where
  queues : d.Queues m.differ
  le : m.differ.pairs ≤ r
  found : ∀ {a b}, m.differ.pairs.get? a = some b → d.pairs.get? a = some b ∨ a ∈ old ∧ b ∈ new
  pending_sub : ∀ {a}, a ∈ pending → a ∈ old
  todo_sub : ∀ {b}, b ∈ todo → b ∈ new
  fresh : ∀ {b}, b ∈ m.fresh → b ∈ new
  covers : ∀ {a b}, a ∈ old → b ∈ new → r.get? a = some b →
    m.differ.pairs.get? a = some b ∨ a ∈ pending ∧ (b ∈ todo ∨ a ≠ b ∧ b ∈ m.fresh)

theorem counterpart?_eq_none {before : List Scope} (h : d.counterpart? before target = none) :
    d.pairs.getInverse? target = none ∧ (d.pairs.get? target = none → target ∉ before) := by
  rw [counterpart?] at h
  cases hinv : d.pairs.getInverse? target with
  | some x =>
    rw [hinv] at h
    contradiction
  | none =>
    refine ⟨rfl, fun hnone hmem ↦ ?_⟩
    simp [hinv, Renaming.containsOld, hnone, hmem] at h

namespace Matching

variable {m : Matching} {graph : ScopeGraph} {old new pending todo : List Scope}

/-- A pair of the renaming is matched. -/
private theorem Guided.match (h : m.Guided d r old new pending todo)
    {before matched fresh removed pending' todo' : List Scope}
    (hprev : previous ∈ old) (htarget : target ∈ new) (hr : r.get? previous = some target)
    (hpending : ∀ a, a ∈ pending ↔ a ∈ pending' ∨ a = previous ∧ a ∈ pending)
    (htodo : ∀ b, b ∈ todo ↔ b ∈ todo' ∨ b = target ∧ b ∈ todo)
    (hfresh : ∀ b, b ∈ m.fresh ↔ b ∈ fresh ∨ b = target ∧ b ∈ m.fresh) :
    Guided ⟨m.differ.pair previous target, before, matched, fresh, removed⟩ d r old new
      pending' todo' := by
  obtain ⟨hle, hget⟩ := pairs_pair_of_le h.le hr
  refine ⟨h.queues.trans (m.differ.queues_pair previous target), hle, ?_,
    fun ha ↦ h.pending_sub ((hpending _).2 (.inl ha)),
    fun hb ↦ h.todo_sub ((htodo _).2 (.inl hb)), fun hb ↦ h.fresh ((hfresh _).2 (.inl hb)), ?_⟩
  · intro a b hab
    rcases (hget a b).1 hab with hab | ⟨rfl, rfl⟩
    · exact h.found hab
    · exact .inr ⟨hprev, htarget⟩
  · intro a b ha hb hab
    by_cases heq : a = previous ∨ b = target
    · -- The renaming is one to one, so this is the pair that was matched.
      refine .inl ((hget a b).2 (.inr ?_))
      rcases heq with rfl | rfl
      · exact ⟨rfl, Option.some.inj (hab.symm.trans hr)⟩
      · exact ⟨Renaming.get?_inj hab hr, rfl⟩
    · obtain ⟨hna, hnb⟩ := not_or.1 heq
      rcases h.covers ha hb hab with hknown | ⟨hap, hrest⟩
      · exact .inl ((hget a b).2 (.inl hknown))
      · refine .inr ⟨((hpending a).1 hap).resolve_right fun h ↦ hna h.1, ?_⟩
        rcases hrest with hbt | ⟨hne, hbf⟩
        · exact .inl (((htodo b).1 hbt).resolve_right fun h ↦ hnb h.1)
        · exact .inr ⟨hne, ((hfresh b).1 hbf).resolve_right fun h ↦ hnb h.1⟩

/-- A current target may be put aside if the renaming makes it stand for nothing but a target of
another name or one that is paired with it already. -/
private theorem Guided.aside (h : m.Guided d r old new pending (target :: todo))
    (hsettled : ∀ {a}, a ∈ old → r.get? a = some target →
      m.differ.pairs.get? a = some target ∨ a ≠ target) :
    Guided { m with fresh := m.fresh ++ [target] } d r old new pending todo := by
  refine ⟨h.queues, h.le, h.found, h.pending_sub,
    fun hb ↦ h.todo_sub (List.mem_cons_of_mem _ hb), ?_, ?_⟩
  · intro b hb
    rcases List.mem_append.1 hb with hb | hb
    · exact h.fresh hb
    · exact List.mem_singleton.1 hb ▸ h.todo_sub List.mem_cons_self
  · intro a b ha hb hab
    rcases h.covers ha hb hab with hknown | ⟨hap, hbt | ⟨hne, hbf⟩⟩
    · exact .inl hknown
    · rcases List.mem_cons.1 hbt with rfl | hbt
      · rcases hsettled ha hab with hknown | hne
        · exact .inl hknown
        · exact .inr ⟨hap, .inr ⟨hne, List.mem_append_right _ (List.mem_singleton_self b)⟩⟩
      · exact .inr ⟨hap, .inl hbt⟩
    · exact .inr ⟨hap, .inr ⟨hne, List.mem_append_left _ hbf⟩⟩

/-- What a current target is found to stand for is what the renaming pairs with it. -/
private theorem Guided.get?_of_counterpart? (h : m.Guided d r old new m.before (target :: todo))
    (hd : Decides r d graph old new) (hx : m.differ.counterpart? m.before target = some previous) :
    r.get? previous = some target := by
  rcases counterpart?_cases hx with hknown | ⟨rfl, hbefore, -, -⟩
  · exact h.le hknown
  · exact hd.kept (h.pending_sub hbefore) (h.todo_sub List.mem_cons_self)

/-- A pending target of the same name as a current one that is found to stand for nothing is not
paired with it. -/
private theorem Guided.ne_of_counterpart?_eq_none (h : m.Guided d r old new m.before todo)
    (hnone : m.differ.counterpart? m.before target = none) {a : Scope} (ha : a ∈ m.before)
    (hab : r.get? a = some target) : a ≠ target := by
  obtain ⟨hinv, hbefore⟩ := counterpart?_eq_none hnone
  rintro rfl
  refine hbefore (Option.eq_none_iff_forall_ne_some.2 fun c hc ↦ ?_) ha
  obtain rfl := Option.some.inj ((h.le hc).symm.trans hab)
  exact nomatch hinv.symm.trans (Renaming.get?_eq_some_iff.1 hc)

/-- Looking at a current target stays guided. -/
theorem Guided.known (h : m.Guided d r old new m.before (target :: todo))
    (hd : Decides r d graph old new) : (m.known target).Guided d r old new (m.known target).before
      todo := by
  have htarget : target ∈ new := h.todo_sub List.mem_cons_self
  rw [Matching.known]
  split
  · rename_i x hx
    have hr := h.get?_of_counterpart? hd hx
    split
    · rename_i hmem
      refine h.match (h.pending_sub hmem) htarget hr ?_ ?_ ?_
      · intro a
        by_cases hax : a = x
        · subst hax
          simp [hmem]
        · simp [hax, List.mem_erase_of_ne hax]
      · intro b
        by_cases hbt : b = target <;> simp [hbt]
      · intro b
        exact (or_iff_left_of_imp And.right).symm
    · rename_i hmem
      refine h.aside fun ha hab ↦ .inl ?_
      obtain rfl := Renaming.get?_inj hab hr
      exact (h.covers ha htarget hab).resolve_right fun hpending ↦ hmem hpending.1
  · rename_i hnone
    refine h.aside fun ha hab ↦ ?_
    exact (h.covers ha htarget hab).imp_right fun hpending ↦
      h.ne_of_counterpart?_eq_none hnone hpending.1 hab

/-- Once all current targets have been looked at, those that both runs have are paired. -/
private theorem Guided.settled (h : m.Guided d r old new pending []) (hd : Decides r d graph old new)
    {t : Scope} (hold : t ∈ old) (hnew : t ∈ new) : m.differ.pairs.get? t = some t := by
  rcases h.covers hold hnew (hd.kept hold hnew) with hknown | ⟨-, hnil | ⟨hne, -⟩⟩
  · exact hknown
  · exact absurd hnil List.not_mem_nil
  · exact absurd rfl hne

/-- Then a new target may take the place of a previous one if the renaming pairs them. -/
private theorem Guided.replaces_iff (h : m.Guided d r old new pending [])
    (hd : Decides r d graph old new) (hold : previous ∈ old)
    (hfree : m.differ.pairs.get? previous = none) (hfresh : target ∈ m.fresh) :
    (previous.owner = m.differ.owner ∧ m.differ.replaces graph previous target = true) ↔
      r.get? previous = some target := by
  have hprevious : previous ∉ new := by
    intro hnew
    rw [h.settled hd hold hnew] at hfree
    exact absurd hfree nofun
  have hfree_before : d.pairs.get? previous = none := by
    rw [Option.eq_none_iff_forall_ne_some]
    intro c hc
    rw [h.queues.pairs hc] at hfree
    exact absurd hfree nofun
  -- As long as the new target has no partner, the renaming can be asked about it.
  have hasks : m.differ.pairs.getInverse? target = none → ∀ q ≤ r, (r.get? previous = some target ↔
      previous.owner = d.owner ∧ target.owner = d.owner ∧
        (d.previous.datum? previous).map (Datum.rename q) = graph.datum? target) := by
    intro hinv
    refine hd.replaced hold hprevious (h.fresh hfresh) ?_ hfree_before ?_
    · intro htarget
      have hself := h.settled hd htarget (h.fresh hfresh)
      rw [Renaming.get?_eq_some_iff, hinv] at hself
      exact absurd hself nofun
    · rw [Option.eq_none_iff_forall_ne_some]
      intro x hx
      have hx := h.queues.pairs (Renaming.get?_eq_some_iff.2 hx)
      rw [Renaming.get?_eq_some_iff, hinv] at hx
      exact absurd hx nofun
  rw [replaces, previousDatum?, h.queues.owner, h.queues.previous]
  simp only [Bool.and_eq_true, decide_eq_true_eq, Renaming.containsNew, Bool.not_eq_true',
    Option.isSome_eq_false_iff, Option.isNone_iff_eq_none]
  constructor
  · rintro ⟨hprev, ⟨hcur, hinv⟩, hdatum⟩
    exact (hasks hinv _ h.le).2 ⟨hprev, hcur, hdatum⟩
  · intro hr
    have hinv : m.differ.pairs.getInverse? target = none := by
      rw [Option.eq_none_iff_forall_ne_some]
      intro x hx
      have hx : m.differ.pairs.get? x = some target := Renaming.get?_eq_some_iff.2 hx
      obtain rfl := Renaming.get?_inj (h.le hx) hr
      rw [hx] at hfree
      exact absurd hfree nofun
    obtain ⟨hprev, hcur, hdatum⟩ := (hasks hinv _ h.le).1 hr
    exact ⟨hprev, ⟨hcur, hinv⟩, hdatum⟩

/-- Looking at a previous target stays guided. -/
theorem Guided.replaced (h : m.Guided d r old new (previous :: pending) [])
    (hd : Decides r d graph old new) :
    (m.replaced graph previous).Guided d r old new pending [] := by
  have hold : previous ∈ old := h.pending_sub List.mem_cons_self
  rw [Matching.replaced]
  split
  · rename_i t ht
    split at ht
    · rename_i hcond
      rw [Bool.and_eq_true, Bool.not_eq_true', Renaming.containsOld, Option.isSome_eq_false_iff,
        Option.isNone_iff_eq_none, decide_eq_true_eq] at hcond
      have hmem := List.mem_of_find?_eq_some ht
      have hr := (h.replaces_iff hd hold hcond.1 hmem).1 ⟨hcond.2, List.find?_some ht⟩
      refine h.match hold (h.fresh hmem) hr ?_ ?_ ?_
      · intro a
        by_cases hap : a = previous <;> simp [hap]
      · intro b
        simp
      · intro b
        by_cases hbt : b = t
        · subst hbt
          simp [hmem]
        · simp [hbt, List.mem_erase_of_ne hbt]
    · contradiction
  · rename_i hnone
    refine ⟨h.queues, h.le, h.found, fun ha ↦ h.pending_sub (List.mem_cons_of_mem _ ha), h.todo_sub,
      h.fresh, ?_⟩
    intro a b ha hb hab
    rcases h.covers ha hb hab with hknown | ⟨hap, hnil | ⟨hne, hfresh⟩⟩
    · exact .inl hknown
    · exact absurd hnil List.not_mem_nil
    · rcases List.mem_cons.1 hap with rfl | hap
      · -- The previous target was given up although the renaming has a partner for it among the new
        -- ones, so it has got this partner already.
        left
        cases hget : m.differ.pairs.get? a with
        | some c => rw [← h.le hget, hab]
        | none =>
          obtain ⟨howner, hreplaces⟩ := (h.replaces_iff hd hold hget hfresh).2 hab
          rw [if_pos (by simp [Renaming.containsOld, hget, howner])] at hnone
          exact absurd hreplaces (List.find?_eq_none.1 hnone b hfresh)
      · exact .inr ⟨hap, .inr ⟨hne, hfresh⟩⟩

theorem Guided.foldl_known (h : m.Guided d r old new m.before todo) (hd : Decides r d graph old new) :
    (todo.foldl Matching.known m).Guided d r old new (todo.foldl Matching.known m).before [] := by
  induction todo generalizing m with
  | nil => exact h
  | cons t todo ih => exact ih (h.known hd)

theorem Guided.foldl_replaced (h : m.Guided d r old new pending [])
    (hd : Decides r d graph old new) :
    (pending.foldl (Matching.replaced graph) m).Guided d r old new [] [] := by
  induction pending generalizing m with
  | nil => exact h
  | cons x pending ih => exact ih (h.replaced hd)

end Matching

/-- Under a renaming that decides about the targets, exactly its pairs are found. -/
theorem matchLabel_guided {graph : ScopeGraph} {l : Label} (hle : d.pairs ≤ r)
    (hd : Decides r d graph (d.previous.targets previous l) (graph.targets current l)) :
    (d.matchLabel graph current previous l).Guided d r (d.previous.targets previous l)
      (graph.targets current l) [] [] := by
  have hstart : Matching.Guided ⟨d, d.previous.targets previous l, [], [], []⟩ d r
      (d.previous.targets previous l) (graph.targets current l) (d.previous.targets previous l)
      (graph.targets current l) :=
    ⟨.refl d, hle, fun h ↦ .inl h, fun h ↦ h, fun h ↦ h, fun h ↦ absurd h List.not_mem_nil,
      fun ha hb _ ↦ .inr ⟨ha, .inl hb⟩⟩
  have hknown := hstart.foldl_known hd
  exact Matching.Guided.foldl_replaced ⟨hknown.queues, hknown.le, hknown.found, hknown.pending_sub,
    hknown.todo_sub, hknown.fresh, hknown.covers⟩ hd

/-! ## Comparing scopes -/

/-- A renaming leaves a differ no choice: it has the pairs that are known, and what it says about the
targets of paired scopes is what a comparison can find out. -/
structure Unambiguous (d : Differ) (graph : ScopeGraph) (labels : List Label) (r : Renaming) :
    Prop where
  le : d.pairs ≤ r
  kept : ∀ {p c l t}, r.get? p = some c → l ∈ labels → t ∈ d.previous.targets p l →
    t ∈ graph.targets c l → r.get? t = some t
  replaced : ∀ {p c l a t}, r.get? p = some c → l ∈ labels →
    a ∈ d.previous.targets p l → a ∉ graph.targets c l →
    t ∈ graph.targets c l → t ∉ d.previous.targets p l →
    d.pairs.get? a = none → d.pairs.getInverse? t = none →
    ∀ q ≤ r, (r.get? a = some t ↔ a.owner = d.owner ∧ t.owner = d.owner ∧
      (d.previous.datum? a).map (Datum.rename q) = graph.datum? t)

variable {graph : ScopeGraph} {labels ls : List Label} {s p : Scope}

/-- If nothing has changed since the previous run, then a renaming that keeps every scope leaves no
choice. -/
theorem unambiguous_of_unchanged {owner : UnitId} (hkeeps : ∀ {p c}, r.get? p = some c → p = c)
    (hall : ∀ {p l t}, t ∈ graph.targets p l → r.get? t = some t) :
    (start owner graph .identity).Unambiguous graph labels r where
  le := r.identity_le
  kept _ _ ht _ := hall ht
  replaced hr _ ha hna _ _ := by
    obtain rfl := hkeeps hr
    exact absurd ha hna

/-- Further pairs of the renaming leave no choice either. -/
theorem Unambiguous.mono (h : d.Unambiguous graph labels r) (howner : d'.owner = d.owner)
    (hprevious : d'.previous = d.previous) (hpairs : d.pairs ≤ d'.pairs) (hle : d'.pairs ≤ r) :
    d'.Unambiguous graph labels r where
  le := hle
  kept := by
    rw [hprevious]
    exact h.kept
  replaced := by
    intro p c l a t hr hl ha hna ht hnt hfree hinv
    rw [hprevious] at ha hnt ⊢
    rw [howner]
    refine h.replaced hr hl ha hna ht hnt ?_ ?_
    · rw [Option.eq_none_iff_forall_ne_some] at hfree ⊢
      exact fun c hc ↦ hfree c (hpairs hc)
    · rw [Option.eq_none_iff_forall_ne_some] at hinv ⊢
      exact fun x hx ↦ hinv x (Renaming.get?_eq_some_iff.1 (hpairs (Renaming.get?_eq_some_iff.2 hx)))

theorem Unambiguous.decides (h : d.Unambiguous graph labels r) (hr : r.get? p = some s) {l : Label}
    (hl : l ∈ labels) : Decides r d graph (d.previous.targets p l) (graph.targets s l) :=
  ⟨h.kept hr hl, h.replaced hr hl⟩

/-- Under a label, exactly the pairs of the renaming are found. -/
private theorem Unambiguous.diffLabel (h : d.Unambiguous graph labels r) (hr : r.get? p = some s)
    {l : Label} (hl : l ∈ labels) {x : ScopeDiff} (hcur : x.current = s) (hprev : x.previous = p) :
    (diffLabel graph (d, x) l).1.Unambiguous graph labels r ∧
      (diffLabel graph (d, x) l).1.previous = d.previous ∧
      ∀ a b, (diffLabel graph (d, x) l).1.pairs.get? a = some b ↔ d.pairs.get? a = some b ∨
        a ∈ d.previous.targets p l ∧ b ∈ graph.targets s l ∧ r.get? a = some b := by
  subst hcur hprev
  have hguided := matchLabel_guided h.le (h.decides hr hl)
  have hqueues := hguided.queues
  refine ⟨h.mono hqueues.owner hqueues.previous hqueues.pairs hguided.le, hqueues.previous,
    fun a b ↦ ?_⟩
  constructor
  · intro hab
    rcases hguided.found hab with hknown | ⟨ha, hb⟩
    · exact .inl hknown
    · exact .inr ⟨ha, hb, hguided.le hab⟩
  · rintro (hknown | ⟨ha, hb, hab⟩)
    · exact hqueues.pairs hknown
    · rcases hguided.covers ha hb hab with hknown | ⟨hnil, -⟩
      · exact hknown
      · exact absurd hnil List.not_mem_nil

private theorem Unambiguous.foldl_diffLabel (h : d.Unambiguous graph labels r)
    (hr : r.get? p = some s) (hls : ls ⊆ labels) {x : ScopeDiff} (hcur : x.current = s)
    (hprev : x.previous = p) (a b : Scope) :
    (ls.foldl (Differ.diffLabel graph) (d, x)).1.pairs.get? a = some b ↔
      d.pairs.get? a = some b ∨ ∃ l ∈ ls,
        a ∈ d.previous.targets p l ∧ b ∈ graph.targets s l ∧ r.get? a = some b := by
  induction ls generalizing d x with
  | nil => simp
  | cons l ls ih =>
    rw [List.cons_subset] at hls
    obtain ⟨hrest, hprevious, hget⟩ := h.diffLabel hr hls.1 hcur hprev
    refine (ih hrest hls.2 (x := (Differ.diffLabel graph (d, x) l).2) hcur hprev).trans ?_
    rw [hget, hprevious]
    simp only [List.mem_cons, exists_eq_or_imp, or_assoc]

/-- **Without competing candidates comparisons are decided.** -/
theorem Unambiguous.decided (h : d.Unambiguous graph labels r) : d.Decided graph labels r where
  le := h.le
  finds {e p s} howner hprevious hpairs hle hnone hp hr a b := by
    obtain ⟨hle', hget⟩ := pairs_pair_of_le hle hr
    have hqueues := e.queues_pair p s
    have hpaired : (e.pair p s).Unambiguous graph labels r :=
      (h.mono howner hprevious hpairs hle).mono hqueues.owner hqueues.previous hqueues.pairs hle'
    rw [Differ.diff, hnone]
    simp only [hp]
    rw [hpaired.foldl_diffLabel hr (List.Subset.refl _) rfl rfl, hget, or_assoc, hqueues.previous,
      hprevious]

end Differ

end ScopeGraphs
