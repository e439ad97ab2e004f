import ScopeGraphs.Proofs.Diff.Comparing
import ScopeGraphs.Proofs.Sorted

/-!
# How comparisons spread

Comparisons spread from the pairs that are known at first: a scope that has a partner is taken up,
and comparing it pairs further scopes along its edges. `Differ.Leads` follows that from one pair to
another, and `Differ.Finds` from the pairs that are known.

A scope that has been taken from the queue is in nobody's sight until it has been compared. So a
differ is looked at together with the scopes that were taken from it: every scope with a partner waits
in the queue, has been taken or has been compared (`Differ.Tracks`). When the queue is empty and
something could still be found, then the way there leads through a scope that was taken but has not
been compared yet (`Differ.Tracks.exists_taken`).
-/

namespace ScopeGraphs

namespace Differ

variable {d d' : Differ} {graph now : ScopeGraph} {labels : List Label} {r : Renaming}
  {taken : List Scope} {p c a b s : Scope}

/-! ## Ways along which comparisons spread -/

/-- Whether a scope has been compared. -/
def Compared (d : Differ) (c : Scope) : Prop := ∃ x, d.diffOf? c = some x

/-- Whether comparisons spread from a pair to another one: along edges, from scopes that the differ
takes up to targets that the renaming pairs. -/
inductive Leads (d : Differ) (graph : ScopeGraph) (labels : List Label) (r : Renaming)
    (p c : Scope) : Scope → Scope → Prop where
  /-- Each pair is found from itself. -/
  | refl : Leads d graph labels r p c p c
  /-- One more pair of scopes is compared. -/
  | step {a b a' b' : Scope} {l : Label} (h : Leads d graph labels r p c a b)
      (hb : d.isRelevant b = true) (hl : l ∈ labels) (ha' : a' ∈ d.previous.targets a l)
      (hb' : b' ∈ graph.targets b l) (hr : r.get? a' = some b') : Leads d graph labels r p c a' b'

/-- Whether comparisons spread to a pair from those that are known. -/
def Finds (d : Differ) (graph : ScopeGraph) (labels : List Label) (r : Renaming) (a b : Scope) :
    Prop :=
  ∃ p c, d.pairs.get? p = some c ∧ d.Leads graph labels r p c a b

theorem Leads.trans {a' b' : Scope} (h : d.Leads graph labels r p c a b)
    (h' : d.Leads graph labels r a b a' b') : d.Leads graph labels r p c a' b' := by
  induction h' with
  | refl => exact h
  | step _ hb hl ha' hb' hr ih => exact .step ih hb hl ha' hb' hr

theorem Leads.finds (h : d.Leads graph labels r p c a b) (hp : d.pairs.get? p = some c) :
    d.Finds graph labels r a b :=
  ⟨p, c, hp, h⟩

theorem Finds.trans {a' b' : Scope} (h : d.Finds graph labels r a b)
    (h' : d.Leads graph labels r a b a' b') : d.Finds graph labels r a' b' := by
  obtain ⟨p, c, hp, hleads⟩ := h
  exact (hleads.trans h').finds hp

/-- Only pairs of the renaming are found. -/
theorem Finds.get? (h : d.Finds graph labels r a b) (hle : d.pairs ≤ r) : r.get? a = some b := by
  obtain ⟨p, c, hp, hleads⟩ := h
  cases hleads with
  | refl => exact hle hp
  | step _ _ _ _ _ hr => exact hr

/-! ## Later differs -/

/-- The second differ may have come out of the first one by taking up and comparing scopes. -/
structure Later (d d' : Differ) : Prop extends d.Grows d' where
  owner : d'.owner = d.owner
  seeds : d'.seeds = d.seeds

theorem Later.refl (d : Differ) : d.Later d := ⟨.refl d, rfl, rfl⟩

theorem Later.trans {d'' : Differ} (h : d.Later d') (h' : d'.Later d'') : d.Later d'' :=
  ⟨h.toGrows.trans h'.toGrows, h'.owner.trans h.owner, h'.seeds.trans h.seeds⟩

theorem Queues.later (h : d.Queues d') : d.Later d' := ⟨h.toLearns.grows, h.owner, h.seeds⟩

theorem Later.isRelevant (h : d.Later d') (s : Scope) : d'.isRelevant s = d.isRelevant s := by
  rw [Differ.isRelevant, Differ.isRelevant, h.owner, h.seeds]

theorem Later.compared (h : d.Later d') (hc : d.Compared c) : d'.Compared c := by
  obtain ⟨x, hx⟩ := hc
  exact ⟨x, h.diffs hx⟩

/-- Comparisons spread along the same ways later on. -/
theorem Later.leads_iff (h : d.Later d') :
    d'.Leads graph labels r p c a b ↔ d.Leads graph labels r p c a b := by
  constructor
  · intro hleads
    induction hleads with
    | refl => exact .refl
    | step _ hb hl ha' hb' hr ih =>
      exact .step ih ((h.isRelevant _).symm.trans hb) hl (h.previous ▸ ha') hb' hr
  · intro hleads
    induction hleads with
    | refl => exact .refl
    | step _ hb hl ha' hb' hr ih =>
      exact .step ih ((h.isRelevant _).trans hb) hl (h.previous.symm ▸ ha') hb' hr

/-! ## Keeping track of the scopes that were taken -/

/-- Comparisons are decided by a renaming, and the scopes that were taken from the queue are known:
every scope with a partner waits, was taken or has been compared, and behind those that have been
compared everything has been found. -/
structure Tracks (d : Differ) (graph : ScopeGraph) (labels : List Label) (r : Renaming)
    (taken : List Scope) : Prop where
  decided : d.Decided graph labels r
  queued : ∀ {c}, c ∈ d.frontier → ∃ p, d.pairs.get? p = some c
  waiting : ∀ {p c}, d.pairs.get? p = some c → d.isRelevant c = true →
    c ∈ d.frontier ∨ d.Compared c ∨ c ∈ taken
  followed : ∀ {p c l a b}, d.Compared c → r.get? p = some c → l ∈ labels →
    a ∈ d.previous.targets p l → b ∈ graph.targets c l → r.get? a = some b →
    d.pairs.get? a = some b

/-- In the beginning nothing was taken. -/
theorem Decided.tracks_start {owner : UnitId} {previous : ScopeGraph} {pairs : Renaming}
    (h : (start owner previous pairs).Decided graph labels r) :
    (start owner previous pairs).Tracks graph labels r [] where
  decided := h
  queued hc := by
    obtain ⟨p, hp⟩ := Option.isSome_iff_exists.1
      (Std.ExtTreeMap.mem_iff_isSome_getElem?.1 (Std.ExtTreeMap.mem_keys.1 hc))
    exact ⟨p, Renaming.get?_eq_some_iff.2 hp⟩
  waiting hp _ := by
    refine .inl (Std.ExtTreeMap.mem_keys.2 (Std.ExtTreeMap.mem_iff_isSome_getElem?.2 ?_))
    exact Option.isSome_iff_exists.2 ⟨_, Renaming.get?_eq_some_iff.1 hp⟩
  followed hc := by
    obtain ⟨x, hx⟩ := hc
    exact absurd hx (by simp [diffOf?, start])

/-- A pair of the renaming may be told at any time, as it is when a sub-unit is handed a scope. -/
theorem Tracks.pair (h : d.Tracks graph labels r taken) (hr : r.get? a = some b) :
    (d.pair a b).Tracks graph labels r taken := by
  obtain ⟨hle, -⟩ := pairs_pair_of_le h.decided.le hr
  have hqueues := d.queues_pair a b
  refine ⟨h.decided.mono hqueues.owner hqueues.previous hqueues.pairs hle, ?_, ?_, ?_⟩
  · intro c hc
    rcases hqueues.paired hc with hc | hc
    · obtain ⟨p, hp⟩ := h.queued hc
      exact ⟨p, hqueues.pairs hp⟩
    · exact hc
  · intro p c hp hc
    rcases hqueues.queued hp with hp | hc'
    · rw [isRelevant, hqueues.owner, hqueues.seeds] at hc
      rcases h.waiting hp hc with hc' | hc' | hc'
      · exact .inl (hqueues.frontier hc')
      · exact .inr (.inl (by rwa [Compared, diffOf?, hqueues.diffs]))
      · exact .inr (.inr hc')
    · exact .inl hc'
  · intro p c l x y hc hp hl hx hy hxy
    rw [Compared, diffOf?, hqueues.diffs] at hc
    rw [hqueues.previous] at hx
    exact hqueues.pairs (h.followed hc hp hl hx hy hxy)

/-- So may several pairs, one after the other. -/
theorem Tracks.foldl_pair (h : d.Tracks graph labels r taken) {pairs : List (Scope × Scope)}
    (hr : ∀ e ∈ pairs, r.get? e.1 = some e.2) :
    (pairs.foldl (fun d e ↦ d.pair e.1 e.2) d).Tracks graph labels r taken ∧
      d.Later (pairs.foldl (fun d e ↦ d.pair e.1 e.2) d) := by
  induction pairs generalizing d with
  | nil => exact ⟨h, .refl d⟩
  | cons e pairs ih =>
    rw [List.forall_mem_cons] at hr
    obtain ⟨htracks, hlater⟩ := ih (h.pair hr.1) hr.2
    exact ⟨htracks, (d.queues_pair e.1 e.2).later.trans hlater⟩

/-! ### Taking a scope -/

/-- The queue holds on to everything that has still to be compared, but for the scope that is taken
from it. -/
theorem nextUnexplored_cases (d : Differ) :
    (∃ c rest, d.nextUnexplored = (some c, { d with frontier := rest }) ∧ c ∈ d.frontier ∧
      d.isRelevant c = true ∧ ¬ d.Compared c ∧ (∀ b ∈ rest, b ∈ d.frontier) ∧
      ∀ b ∈ d.frontier, d.isRelevant b = true → ¬ d.Compared b → b = c ∨ b ∈ rest) ∨
    d.nextUnexplored = (none, { d with frontier := [] }) ∧
      ∀ b ∈ d.frontier, d.isRelevant b = true → d.Compared b := by
  have hcompared : ∀ b, (!d.isRelevant b || d.diffs.contains b) = true ↔
      (d.isRelevant b = true → d.Compared b) := by
    intro b
    rw [Std.ExtTreeMap.contains_eq_isSome_getElem?, Compared, diffOf?,
      ← Option.isSome_iff_exists]
    cases d.isRelevant b <;> simp
  have hsplit := List.takeWhile_append_dropWhile (p := fun s ↦ !d.isRelevant s || d.diffs.contains s)
    (l := d.frontier)
  have hskipped : ∀ b ∈ d.frontier.takeWhile fun s ↦ !d.isRelevant s || d.diffs.contains s,
      d.isRelevant b = true → d.Compared b := by
    intro b hb
    exact (hcompared b).1 (List.all_eq_true.1 List.all_takeWhile b hb)
  rw [nextUnexplored]
  split
  · rename_i hnil
    refine .inr ⟨rfl, fun b hb ↦ hskipped b ?_⟩
    rw [hnil, List.append_nil] at hsplit
    rwa [hsplit]
  · rename_i c rest hcons
    have hhead : (!d.isRelevant c || d.diffs.contains c) = false := by
      have hne : d.frontier.dropWhile (fun s ↦ !d.isRelevant s || d.diffs.contains s) ≠ [] := by
        simp [hcons]
      have hnot := List.head_dropWhile_not _ hne
      simpa [hcons] using hnot
    rw [Bool.eq_false_iff, ne_eq, hcompared, Classical.not_imp] at hhead
    rw [hcons] at hsplit
    refine .inl ⟨c, rest, rfl, ?_, hhead.1, hhead.2, ?_, ?_⟩
    · rw [← hsplit]
      simp
    · intro b hb
      rw [← hsplit]
      simp [hb]
    · intro b hb hrelevant hnot
      rw [← hsplit, List.mem_append, List.mem_cons] at hb
      rcases hb with hb | hb
      · exact absurd (hskipped b hb hrelevant) hnot
      · exact hb

/-- Taking a scope. -/
theorem Tracks.take (h : d.Tracks graph labels r taken) (hnext : d.nextUnexplored = (some c, d')) :
    d'.Tracks graph labels r (c :: taken) ∧ d.Later d' ∧ d'.pairs = d.pairs ∧
      (∃ p, d.pairs.get? p = some c) ∧ d.isRelevant c = true ∧ ¬ d'.Compared c := by
  rcases d.nextUnexplored_cases with ⟨c', rest, heq, hmem, hrelevant, hnot, hrest, hkeeps⟩ | ⟨heq, -⟩
  · rw [hnext, Prod.mk.injEq, Option.some.injEq] at heq
    obtain ⟨rfl, rfl⟩ := heq
    refine ⟨⟨h.decided.mono rfl rfl d.pairs.le_refl h.decided.le, fun hc ↦ h.queued (hrest _ hc), ?_,
      h.followed⟩, ⟨⟨rfl, fun hx ↦ hx, d.pairs.le_refl⟩, rfl, rfl⟩, rfl, h.queued hmem, hrelevant, hnot⟩
    intro p b hp hb
    rcases h.waiting hp hb with hq | hq | hq
    · by_cases hcompared : d.Compared b
      · exact .inr (.inl hcompared)
      · rcases hkeeps b hq hb hcompared with rfl | hq
        · exact .inr (.inr List.mem_cons_self)
        · exact .inl hq
    · exact .inr (.inl hq)
    · exact .inr (.inr (List.mem_cons_of_mem _ hq))
  · rw [hnext] at heq
    exact absurd (Prod.mk.inj heq).1 nofun

/-- There may be nothing to take any more. -/
theorem Tracks.drain (h : d.Tracks graph labels r taken) (hnext : d.nextUnexplored = (none, d')) :
    d'.Tracks graph labels r taken ∧ d.Later d' ∧
      ∀ {p c}, d.pairs.get? p = some c → d.isRelevant c = true → d.Compared c ∨ c ∈ taken := by
  rcases d.nextUnexplored_cases with ⟨c', rest, heq, -⟩ | ⟨heq, hall⟩
  · rw [hnext] at heq
    exact absurd (Prod.mk.inj heq).1 nofun
  · obtain rfl := (Prod.mk.inj (hnext.symm.trans heq)).2
    have hidle : ∀ {p c}, d.pairs.get? p = some c → d.isRelevant c = true →
        d.Compared c ∨ c ∈ taken := by
      intro p c hp hc
      rcases h.waiting hp hc with hq | hq
      · exact .inl (hall c hq hc)
      · exact hq
    exact ⟨⟨h.decided.mono rfl rfl d.pairs.le_refl h.decided.le, fun hc ↦ absurd hc List.not_mem_nil,
      fun hp hc ↦ .inr (hidle hp hc), h.followed⟩, ⟨⟨rfl, fun hx ↦ hx, d.pairs.le_refl⟩, rfl, rfl⟩, hidle⟩

/-! ### Comparing a scope -/

/-- Comparing a scope with its counterpart for the first time. -/
theorem Tracks.diff_of_previousOf? (h : d.Tracks graph labels r taken)
    (hreads : now.ReadsAs graph s labels) (hnot : ¬ d.Compared s) (hp : d.previousOf? s = some p)
    (hr : r.get? p = some s) :
    (d.diff s now labels).2.Tracks graph labels r taken ∧ d.Later (d.diff s now labels).2 ∧
      (d.diff s now labels).2.Compared s ∧
      ∀ a b, (d.diff s now labels).2.pairs.get? a = some b ↔ d.pairs.get? a = some b ∨
        (a = p ∧ b = s) ∨ ∃ l ∈ labels,
          a ∈ d.previous.targets p l ∧ b ∈ graph.targets s l ∧ r.get? a = some b := by
  have hnone : d.diffOf? s = none := Option.eq_none_iff_forall_ne_some.2 fun x hx ↦ hnot ⟨x, hx⟩
  obtain ⟨e, x, heq, hqueues, hdecided, hget⟩ := h.decided.diff hnone hp hr hreads
  rw [heq]
  have hcompared : ∀ c, Compared { e with diffs := e.diffs.insert s x } c ↔ c = s ∨ d.Compared c := by
    intro c
    rw [Compared, Compared, diffOf?, diffOf?, SortedMap.getElem?_insert_eq, hqueues.diffs]
    by_cases hcs : s = c
    · simp [hcs]
    · simp [hcs, Ne.symm hcs]
  have hlater : d.Later { e with diffs := e.diffs.insert s x } := by
    refine ⟨⟨hqueues.previous, fun {c y} hy ↦ ?_, hqueues.pairs⟩, hqueues.owner, hqueues.seeds⟩
    rw [diffOf?, SortedMap.getElem?_insert_eq, hqueues.diffs, if_neg]
    · exact hy
    · rintro rfl
      exact hnot ⟨y, hy⟩
  refine ⟨⟨hdecided.mono rfl rfl e.pairs.le_refl hdecided.le, ?_, ?_, ?_⟩, hlater,
    (hcompared s).2 (.inl rfl), hget⟩
  · intro c hc
    rcases hqueues.paired hc with hc | hc
    · obtain ⟨p', hp'⟩ := h.queued hc
      exact ⟨p', hqueues.pairs hp'⟩
    · exact hc
  · intro p' c hp' hc
    rw [hcompared]
    rcases hqueues.queued hp' with hp' | hc'
    · rcases h.waiting hp' ((hlater.isRelevant c).symm.trans hc) with hc' | hc' | hc'
      · exact .inl (hqueues.frontier hc')
      · exact .inr (.inl (.inr hc'))
      · exact .inr (.inr hc')
    · exact .inl hc'
  · intro p' c l a b hc hp' hl ha hb hab
    rw [hlater.previous] at ha
    rcases (hcompared c).1 hc with rfl | hc
    · obtain rfl := Renaming.get?_inj hp' hr
      exact (hget a b).2 (.inr (.inr ⟨l, hl, ha, hb, hab⟩))
    · exact hqueues.pairs (h.followed hc hp' hl ha hb hab)

/-- Comparing a scope that waited in the queue changes nothing about what can be found. -/
theorem Tracks.finds_diff_iff (h : d.Tracks graph labels r taken)
    (hreads : now.ReadsAs graph s labels) (hrelevant : d.isRelevant s = true) (hnot : ¬ d.Compared s)
    (hp : d.pairs.get? p = some s) :
    (d.diff s now labels).2.Finds graph labels r a b ↔ d.Finds graph labels r a b := by
  obtain ⟨-, hlater, -, hget⟩ :=
    h.diff_of_previousOf? hreads hnot (previousOf?_of_get? hp) (h.decided.le hp)
  constructor
  · rintro ⟨x, y, hxy, hleads⟩
    rw [hlater.leads_iff] at hleads
    rcases (hget x y).1 hxy with hxy | ⟨rfl, rfl⟩ | ⟨l, hl, hx, hy, hxy⟩
    · exact hleads.finds hxy
    · exact hleads.finds hp
    · exact (Leads.refl.step hrelevant hl hx hy hxy).finds hp |>.trans hleads
  · rintro ⟨x, y, hxy, hleads⟩
    exact (hlater.leads_iff.2 hleads).finds (hlater.pairs hxy)

/-- Comparing a scope with its counterpart, if it has one. -/
theorem Tracks.diff (h : d.Tracks graph labels r taken) (hreads : now.ReadsAs graph s labels)
    (hr : ∀ p, d.previousOf? s = some p → r.get? p = some s) :
    (d.diff s now labels).2.Tracks graph labels r taken ∧ d.Later (d.diff s now labels).2 := by
  by_cases hcompared : d.Compared s
  · obtain ⟨x, hx⟩ := hcompared
    rw [Differ.diff, hx]
    exact ⟨h, .refl d⟩
  · have hnone : d.diffOf? s = none :=
      Option.eq_none_iff_forall_ne_some.2 fun x hx ↦ hcompared ⟨x, hx⟩
    cases hp : d.previousOf? s with
    | none =>
      rw [Differ.diff, hnone]
      simp only [hp]
      exact ⟨h, .refl d⟩
    | some p =>
      obtain ⟨htracks, hlater, -⟩ := h.diff_of_previousOf? hreads hcompared hp (hr p hp)
      exact ⟨htracks, hlater⟩

/-- A scope that has been compared need not be remembered. -/
theorem Tracks.forget (h : d.Tracks graph labels r (c :: taken)) (hc : d.Compared c) :
    d.Tracks graph labels r taken where
  decided := h.decided
  queued := h.queued
  followed := h.followed
  waiting hp hb := by
    rcases h.waiting hp hb with hq | hq | hq
    · exact .inl hq
    · exact .inr (.inl hq)
    · rcases List.mem_cons.1 hq with rfl | hq
      · exact .inr (.inl hc)
      · exact .inr (.inr hq)

/-! ## How much is left to compare -/

/-- The number of current scopes of a renaming that have not been compared. -/
def unexplored (d : Differ) (r : Renaming) : Nat :=
  (r.pairs.filter fun e ↦ (d.diffOf? e.2).isNone).length

/-- It gets smaller with every scope that is compared. -/
theorem Later.unexplored_lt (h : d.Later d') (hr : r.get? p = some c) (hnot : ¬ d.Compared c)
    (hc : d'.Compared c) : d'.unexplored r < d.unexplored r := by
  have hfilter : (r.pairs.filter fun e ↦ (d'.diffOf? e.2).isNone) =
      (r.pairs.filter fun e ↦ (d.diffOf? e.2).isNone).filter fun e ↦ (d'.diffOf? e.2).isNone := by
    rw [List.filter_filter]
    refine List.filter_congr fun e _ ↦ ?_
    cases hx : d.diffOf? e.2 with
    | none => simp
    | some x => simp [h.diffs hx]
  obtain ⟨x, hx⟩ := hc
  have hnone : d.diffOf? c = none := Option.eq_none_iff_forall_ne_some.2 fun y hy ↦ hnot ⟨y, hy⟩
  rw [unexplored, unexplored, hfilter, List.length_filter_lt_length_iff_exists]
  exact ⟨(p, c), List.mem_filter.2 ⟨Renaming.mem_pairs_iff.2 hr, by simp [hnone]⟩, by simp [hx]⟩

/-! ## What is not found yet -/

/-- **What is not found yet lies behind a scope that was taken.** If nothing waits in the queue and
comparisons would spread from a known pair to one that is not known, then the way leads through a
known pair whose current scope was taken and has not been compared. -/
theorem Tracks.exists_taken (h : d.Tracks graph labels r taken)
    (hidle : ∀ {p c}, d.pairs.get? p = some c → d.isRelevant c = true → d.Compared c ∨ c ∈ taken)
    (hp : d.pairs.get? p = some c) (hleads : d.Leads graph labels r p c a b)
    (hnot : d.pairs.get? a ≠ some b) :
    ∃ p' c', c' ∈ taken ∧ ¬ d.Compared c' ∧ d.Leads graph labels r p c p' c' ∧
      d.Leads graph labels r p' c' a b := by
  induction hleads with
  | refl => exact absurd hp hnot
  | @step a b a' b' l hleads hb hl ha' hb' hr ih =>
    by_cases hab : d.pairs.get? a = some b
    · by_cases hcompared : d.Compared b
      · exact absurd (h.followed hcompared (h.decided.le hab) hl ha' hb' hr) hnot
      · have htaken := (hidle hab hb).resolve_left hcompared
        exact ⟨a, b, htaken, hcompared, hleads, .step .refl hb hl ha' hb' hr⟩
    · obtain ⟨p', c', htaken, hcompared, hbefore, hafter⟩ := ih hab
      exact ⟨p', c', htaken, hcompared, hbefore, .step hafter hb hl ha' hb' hr⟩

end Differ

end ScopeGraphs
