import ScopeGraphs.Proofs.Diff.Candidates
import ScopeGraphs.Proofs.Engine.Finality
import ScopeGraphs.Proofs.Engine.Progress
import ScopeGraphs.Proofs.Units.Searching

/-!
# Searches that interfere with each other

Many tasks may search for counterparts in one unit at the same time. Each of them takes scopes from
the queue that they share, waits until such a scope is closed, and only then compares it. Where the
outcome of comparisons is decided by a renaming, the order in which they are carried out does not
matter. Still a search may end without an answer that it would have found alone, and this happens
exactly if another search has taken a scope behind which the answer lies, and has not compared it yet
(`Core.finds_counterpart_iff`). It does happen (`Core.not_always_finds_counterpart`).
-/

namespace ScopeGraphs

variable {γ : Type} {graph : ScopeGraph} {labels : List Label} {r : Renaming} {id : UnitId}
  {taken : List Scope} {s b : Scope} {u u₀ : UnitNode γ} {d d₀ : Differ}

/-! ## A search alone, as a program -/

namespace Core

section

variable {α β : Type} {c c' c'' : Core γ} {self : TaskId} {x : Flow γ α} {a : α} {a' : β}

/-- A process ends with a result the first time that it is polled. -/
def EndsWith (self : TaskId) (x : Flow γ α) (c : Core γ) (a : α) (c' : Core γ) : Prop :=
  Proc.poll self x.run c = (.done (.ok a), c')

theorem EndsWith.bind {f : α → Flow γ β} (h : EndsWith self x c a c')
    (h' : EndsWith self (f a) c' a' c'') : EndsWith self (x >>= f) c a' c'' := by
  change Proc.poll self (Proc.bind x.run (ExceptT.bindCont f)) c = _
  rw [Proc.poll_bind, h]
  exact h'

variable (self)

/-- An operation on a unit that has no effects on anything else. -/
theorem endsWith_onUnit {u : UnitNode γ} {op : UnitOp γ α} {t : Turn γ}
    (hu : c.units[id]? = some u) (hid : u.id = id)
    (hrun : op.run ⟨u, .none, c.setup.settings, c.channels, c.nextRequest⟩ = (a, t))
    (hquiet : t.effects = .none) :
    ∃ c', EndsWith self (Flow.onUnit id op) c a c' ∧ c'.units[id]? = some t.unit := by
  refine ⟨{ c with
    units := c.units.insert u.id t.unit, channels := t.channels, nextRequest := t.nextRequest }, ?_, ?_⟩
  · change Proc.poll self (.perform (.onUnit id op) .done) c = _
    rw [Proc.poll, perform, atUnit, hu]
    simp only [turn, hrun, hquiet]
    rfl
  · change (c.units.insert u.id t.unit)[id]? = _
    rw [SortedMap.getElem?_insert_eq, if_pos hid]

/-- Nobody waits for slots that are closed. -/
theorem endsWith_untilAllClosed {u : UnitNode γ} (hu : c.units[id]? = some u) (hid : u.id = id)
    {s : Scope} (hclosed : ∀ slot, u.isClosed s slot = true) (slots : List Slot) :
    ∃ c', EndsWith self (Confirming.untilAllClosed id s slots) c ⟨⟩ c' ∧ c'.units[id]? = some u := by
  induction slots generalizing c with
  | nil => exact ⟨c, rfl, hu⟩
  | cons slot slots ih =>
    have hgoes : (UnitOp.awaitClosed s slot).run
        ⟨u, .none, c.setup.settings, c.channels, c.nextRequest⟩ =
        (none, ⟨u, .none, c.setup.settings, c.channels, c.nextRequest⟩) := if_pos (hclosed slot)
    obtain ⟨c₁, hfirst, hu₁⟩ := endsWith_onUnit self hu hid hgoes rfl
    obtain ⟨c₂, hrest, hu₂⟩ := ih hu₁
    have hslot : EndsWith self (Flow.untilClosed id s slot) c ⟨⟩ c₁ := hfirst.bind rfl
    exact ⟨c₂, hslot.bind hrest, hu₂⟩

theorem endsWith_matchStep {t t' : Turn γ} {s : Scope} {next : MatchStep}
    (h : t.matchStep s = (next, t')) (hu : c.units[id]? = some t.unit) (hid : t.unit.id = id) :
    ∃ c', EndsWith self (Flow.onUnit id (.matchStep s)) c next c' ∧ c'.units[id]? = some t'.unit := by
  let t₀ : Turn γ := ⟨t.unit, .none, c.setup.settings, c.channels, c.nextRequest⟩
  have hunit : t₀.unit = t.unit := rfl
  have hrun : (UnitOp.matchStep s).run t₀ = (next, { t₀ with unit := t'.unit }) := by
    rw [UnitOp.run, Turn.matchStep_of_unit hunit, h]
  obtain ⟨c₁, hends, hu₁⟩ := endsWith_onUnit self hu hid hrun rfl
  exact ⟨c₁, hends, hu₁⟩

/-- A scope all of whose slots are closed is compared at once. -/
theorem endsWith_explore (setup : Setup) {t : Turn γ} {s : Scope} (hu : c.units[id]? = some t.unit)
    (hid : t.unit.id = id) (hclosed : ∀ slot, t.unit.isClosed s slot = true) :
    ∃ c', EndsWith self (Confirming.explore setup id s) c (t.diffScope s setup.labels).1 c' ∧
      c'.units[id]? = some (t.diffScope s setup.labels).2.unit := by
  obtain ⟨c₁, hwaits, hu₁⟩ :=
    endsWith_untilAllClosed self hu hid hclosed (setup.labels.map .edge ++ [.datum])
  let t₁ : Turn γ := ⟨t.unit, .none, c₁.setup.settings, c₁.channels, c₁.nextRequest⟩
  have hunit : t₁.unit = t.unit := rfl
  have hrun : (UnitOp.diffScope s setup.labels).run t₁ = ((t.diffScope s setup.labels).1,
      { t₁ with unit := (t.diffScope s setup.labels).2.unit }) :=
    Turn.diffScope_of_unit hunit s setup.labels
  obtain ⟨c₂, hcompares, hu₂⟩ := endsWith_onUnit self hu₁ hid hrun rfl
  exact ⟨c₂, hwaits.bind hcompares, hu₂⟩

/-- **A search alone is what the program does.** If all slots are closed, then the program that
searches for a counterpart ends the first time that it is polled, with the answer of the search,
provided that it may take enough rounds. -/
theorem endsWith_searchCounterpart {setup : Setup} {t : Turn γ} {s : Scope} {answer : Option Scope}
    (h : t.Searches setup.labels s answer) (hu : c.units[id]? = some t.unit) (hid : t.unit.id = id)
    (hclosed : ∀ s slot, t.unit.isClosed s slot = true) :
    ∃ n, ∀ m ≥ n, ∃ c', EndsWith self (Confirming.searchCounterpart setup id s m) c answer c' := by
  induction h generalizing c with
  | done hstep =>
    obtain ⟨c₁, hfirst, -⟩ := endsWith_matchStep self hstep hu hid
    refine ⟨1, fun m hm ↦ ?_⟩
    obtain ⟨m, rfl⟩ := Nat.exists_eq_add_of_le' hm
    exact ⟨c₁, hfirst.bind rfl⟩
  | @explore t t' b answer hstep hrest ih =>
    obtain ⟨x, hx⟩ := t.exists_differ_matchStep s
    rw [hstep] at hx
    obtain ⟨y, hy⟩ := t'.exists_differ_diffScope b setup.labels
    obtain ⟨c₁, hfirst, hu₁⟩ := endsWith_matchStep self hstep hu hid
    obtain ⟨c₂, hexplores, hu₂⟩ := endsWith_explore self setup (s := b) hu₁ (by rw [hx]; exact hid)
      (by rw [hx]; exact hclosed b)
    obtain ⟨n, hn⟩ := ih hu₂ (by rw [hy, hx]; exact hid) (by rw [hy, hx]; exact hclosed)
    refine ⟨n + 1, fun m hm ↦ ?_⟩
    obtain ⟨m, rfl⟩ := Nat.exists_eq_add_of_le' (Nat.le_of_add_left_le hm)
    obtain ⟨c₃, hends⟩ := hn m (Nat.le_of_succ_le_succ hm)
    have hcompares : EndsWith self (discard (Confirming.explore setup id b)) c₁ ⟨⟩ c₂ :=
      hexplores.bind rfl
    exact ⟨c₃, hfirst.bind (hcompares.bind hends)⟩

end

end Core

/-! ## What happens to a unit while counterparts are searched -/

/-- Whether a scope is taken from the queue of a unit in an operation. -/
def UnitOp.Takes (u : UnitNode γ) (b : Scope) : {α : Type} → UnitOp γ α → Prop
  | _, .matchStep s => ∃ t : Turn γ, t.unit = u ∧ (t.matchStep s).1 = .explore b
  | _, _ => False

/-- What may happen to a unit in which counterparts are searched: a search goes on, a scope is compared
once everything that the comparison reads is final, or something else happens that at most tells the
unit pairs of the renaming. -/
inductive UnitOp.Pursues (graph : ScopeGraph) (labels : List Label) (r : Renaming) (u : UnitNode γ) :
    {α : Type} → UnitOp γ α → Prop where
  /-- A search goes on. -/
  | search (s : Scope) : Pursues graph labels r u (.matchStep s)
  /-- A scope is compared, with the scope that the renaming takes to it. -/
  | compare {s : Scope} (hreads : u.wholeGraph.ReadsAs graph s labels)
      (hr : ∀ d p, u.differ = some d → d.previousOf? s = some p → r.get? p = some s) :
      Pursues graph labels r u (.diffScope s labels)
  /-- Nothing is compared. -/
  | other {α : Type} {op : UnitOp γ α} (h : ∀ t : Turn γ, t.unit = u → u.IsTold (op.run t).2.unit r) :
      Pursues graph labels r u op

/-- A sub-unit may be added if the renaming takes the root scopes of the previous one to its own. -/
theorem UnitOp.pursues_addSubUnit (name : String) (kind : UnitKind γ) {roots : List Scope}
    (changed : Bool)
    (hr : ∀ e ∈ (((u.previous.bind fun p ↦ p.sub? name).map Report.roots).getD []).zip roots,
      u.owns e.2 = true → r.get? e.1 = some e.2) :
    (act (.addSubUnit name kind roots changed)).Pursues graph labels r u := by
  refine .other fun t ht ↦ ?_
  subst ht
  change t.unit.IsTold (Attempt.addSubUnit name kind roots changed t).2.unit r
  rw [Attempt.addSubUnit, Attempt.requireLive_bind]
  split
  · exact t.isTold_addSubUnit name kind changed hr
  · exact (UnitNode.KnowsAs.refl _).isTold r

/-- Whether a scope is taken from the queue of a unit. -/
def Event.Takes (id : UnitId) (b : Scope) : Event γ → Prop
  | turn u op => u.id = id ∧ op.Takes u b
  | joined _ | other => False

/-- Whether something may happen while counterparts are searched in a unit. -/
def Event.Pursues (id : UnitId) (graph : ScopeGraph) (labels : List Label) (r : Renaming) :
    Event γ → Prop
  | turn u op => u.id = id → op.Pursues graph labels r u
  | joined _ | other => True

/-- The first unit has come out of the second one while counterparts were searched: it has gone on
comparing its scopes, some of which were taken, and may have been told pairs of the renaming. -/
structure UnitNode.Tracks (u u₀ : UnitNode γ) (d d₀ : Differ) (graph : ScopeGraph)
    (labels : List Label) (r : Renaming) (taken : List Scope) : Prop where
  differ : u.differ = some d
  tracks : d.Tracks graph labels r taken
  later : d₀.Later d
  shared : u₀.sharedPairs ≤ u.sharedPairs
  told : ∀ {a b}, u.sharedPairs.get? a = some b → u₀.sharedPairs.get? a = some b ∨ r.get? a = some b
  isRemoved : u.isRemoved = u₀.isRemoved

theorem UnitOp.isRemoved_of_takes {α : Type} {op : UnitOp γ α} (h : op.Takes u b) :
    u.isRemoved = false := by
  cases op with
  | matchStep s =>
    obtain ⟨t, rfl, hnext⟩ := h
    exact Turn.isRemoved_of_explore hnext
  | _ => exact h.elim

/-- What one operation does to a unit in which counterparts are searched. -/
theorem UnitNode.Tracks.run {α : Type} {op : UnitOp γ α} {t : Turn γ}
    (h : t.unit.Tracks u₀ d d₀ graph labels r taken) (hop : op.Pursues graph labels r t.unit) :
    ∃ d' taken', (op.run t).2.unit.Tracks u₀ d' d₀ graph labels r taken' ∧
      ∀ b ∈ taken', b ∈ taken ∨ op.Takes t.unit b := by
  cases hop with
  | search s =>
    obtain ⟨d', taken', hunit, htracks, hlater, htaken⟩ := t.tracks_matchStep h.differ h.tracks s
    refine ⟨d', taken', ?_, fun b hb ↦ (htaken b hb).imp_right fun hnext ↦ ⟨t, rfl, hnext⟩⟩
    change (t.matchStep s).2.unit.Tracks u₀ d' d₀ graph labels r taken'
    rw [hunit]
    exact ⟨rfl, htracks, h.later.trans hlater, h.shared, h.told, h.isRemoved⟩
  | @compare s hreads hr =>
    obtain ⟨d', hunit, htracks, hlater⟩ := Turn.tracks_diffScope h.differ h.tracks hreads (hr d · h.differ)
    refine ⟨d', taken, ?_, fun b hb ↦ .inl hb⟩
    change (t.diffScope s labels).2.unit.Tracks u₀ d' d₀ graph labels r taken
    rw [hunit]
    exact ⟨rfl, htracks, h.later.trans hlater, h.shared, h.told, h.isRemoved⟩
  | other hother =>
    obtain ⟨pairs, hpairs, hdiffer, hshared, hremoved⟩ := hother t rfl
    obtain ⟨htracks, hlater⟩ := h.tracks.foldl_pair hpairs
    rw [h.differ] at hdiffer
    refine ⟨_, taken, ⟨hdiffer, htracks, h.later.trans hlater, ?_, fun hab ↦ ?_,
      hremoved.trans h.isRemoved⟩, fun b hb ↦ .inl hb⟩
    · rw [hshared]
      exact Renaming.le_trans h.shared (Renaming.self_le_putEach _ _)
    · rw [hshared] at hab
      rcases Renaming.get?_or_mem_of_putEach hab with hab | hab
      · exact h.told hab
      · exact .inr (hpairs _ hab)

/-- What a search among others answers if there is a counterpart that can be found: this one, or none
because a scope on the way to it was taken and has not been compared. -/
theorem UnitNode.Tracks.answers {t : Turn γ} {answer : Option Scope}
    (h : t.unit.Tracks u₀ d d₀ graph labels r taken) (hanswer : (t.matchStep s).1 = .done answer)
    (hfind : u₀.CanFind d₀ graph labels r s b) :
    answer = some b ∨ answer = none ∧ ∃ p b', b' ∈ taken ∧ ¬ d.Compared b' ∧
      d₀.Finds graph labels r p b' ∧ d₀.Leads graph labels r p b' s b := by
  rcases hfind with htold | ⟨htold, hfinds⟩
  · -- What the unit was told once it still knows.
    have htold' := told?_eq_some_iff.2 (h.shared (told?_eq_some_iff.1 htold))
    rw [Turn.matchStep_of_told? htold'] at hanswer
    exact .inl (MatchStep.done.inj hanswer).symm
  have hle : d₀.pairs ≤ r := Renaming.le_trans h.later.pairs h.tracks.decided.le
  have hr : r.get? s = some b := hfinds.get? hle
  obtain ⟨a, htold', heq⟩ | ⟨-, ⟨b', hb', heq⟩ | ⟨hs, ⟨b', e, -, heq⟩ | ⟨e, hnext, heq⟩⟩⟩ :=
    Turn.matchStep_cases h.differ s
  · rw [heq] at hanswer
    obtain rfl := MatchStep.done.inj hanswer
    cases a with
    | some b' =>
      rcases h.told (told?_eq_some_iff.1 htold') with hold | hnew
      · exact absurd (htold.symm.trans (told?_eq_some_iff.2 hold)) nofun
      · exact .inl (hnew.symm.trans hr)
    | none =>
      have hgone : u₀.isRemoved = true := h.isRemoved ▸ isRemoved_of_told? htold'
      exact absurd hgone (isRemoved_of_told?_eq_none htold)
  · rw [heq] at hanswer
    obtain rfl := MatchStep.done.inj hanswer
    exact .inl ((h.tracks.decided.le hb').symm.trans hr)
  · rw [heq] at hanswer
    exact absurd hanswer nofun
  · -- The queue is empty, so the way to the counterpart leads through a scope that was taken.
    rw [heq] at hanswer
    obtain rfl := MatchStep.done.inj hanswer
    obtain ⟨-, -, hidle⟩ := h.tracks.drain hnext
    obtain ⟨p₀, b₀, hknown, hleads⟩ := hfinds
    obtain ⟨p, b', hmem, hnot, hbefore, hbehind⟩ := h.tracks.exists_taken hidle
      (h.later.pairs hknown) (h.later.leads_iff.2 hleads) (by simp [hs])
    exact .inr ⟨rfl, p, b', hmem, hnot, (h.later.leads_iff.1 hbefore).finds hknown,
      h.later.leads_iff.1 hbehind⟩

namespace Core

variable {c c' : Core γ}

/-- What one step of a run does to a unit in which counterparts are searched. -/
theorem Step.tracks {e : Event γ} (h : Step c e c') (hfiled : c.Filed) (hu : c.units[id]? = some u)
    (htracks : u.Tracks u₀ d d₀ graph labels r taken) (he : e.Pursues id graph labels r) :
    ∃ u' d' taken', c'.units[id]? = some u' ∧ u'.Tracks u₀ d' d₀ graph labels r taken' ∧
      (∀ b ∈ taken', b ∈ taken ∨ e.Takes id b) ∧ ∀ b, e.Takes id b → u₀.isRemoved = false := by
  have hid : u.id = id := hfiled id u hu
  cases h with
  | turn h op =>
    rename_i id' v _
    have hid' : v.id = id' := hfiled id' v h
    by_cases hsame : v.id = id
    · obtain rfl : id' = id := hid'.symm.trans hsame
      obtain rfl : u = v := Option.some.inj (hu.symm.trans h)
      obtain ⟨d', taken', htracks', htaken⟩ :=
        UnitNode.Tracks.run (t := ⟨u, .none, c.setup.settings, c.channels, c.nextRequest⟩) htracks
          (he hid)
      refine ⟨_, d', taken', ?_, htracks', fun b hb ↦ (htaken b hb).imp_right fun htakes ↦ ⟨hid, htakes⟩,
        fun b htakes ↦ htracks.isRemoved ▸ UnitOp.isRemoved_of_takes htakes.2⟩
      rw [units_turn, SortedMap.getElem?_insert_eq, if_pos hid]
    · refine ⟨u, d, taken, ?_, htracks, fun b hb ↦ .inl hb, fun b htakes ↦ absurd htakes.1 hsame⟩
      rw [units_turn, SortedMap.getElem?_insert_eq, if_neg hsame]
      exact hu
  | joined v =>
    exact ⟨u, d, taken, units_addUnit_eq_some_iff.2 (.inl hu), htracks, fun b hb ↦ .inl hb,
      fun _ ↦ False.elim⟩
  | other hunits _ =>
    exact ⟨u, d, taken, hunits ▸ hu, htracks, fun b hb ↦ .inl hb, fun _ ↦ False.elim⟩

/-- What a run does to a unit in which counterparts are searched. -/
theorem Run.tracks {tr : List (Event γ × Core γ)} (h : Run c tr c') (hfiled : c.Filed)
    (hu : c.units[id]? = some u) (htracks : u.Tracks u₀ d d₀ graph labels r taken)
    (htr : ∀ x ∈ tr, x.1.Pursues id graph labels r) :
    ∃ u' d' taken', c'.units[id]? = some u' ∧ u'.Tracks u₀ d' d₀ graph labels r taken' ∧
      (∀ b ∈ taken', b ∈ taken ∨ ∃ x ∈ tr, x.1.Takes id b) ∧
      ∀ x ∈ tr, ∀ b, x.1.Takes id b → u₀.isRemoved = false := by
  induction h generalizing u d taken with
  | nil => exact ⟨u, d, taken, hu, htracks, fun b hb ↦ .inl hb, List.forall_mem_nil _⟩
  | cons hstep hrun ih =>
    rw [List.forall_mem_cons] at htr
    obtain ⟨u', d', taken', hu', htracks', htaken, hremoved⟩ :=
      hstep.tracks hfiled hu htracks htr.1
    obtain ⟨u'', d'', taken'', hu'', htracks'', htaken', hremoved'⟩ :=
      ih (hstep.filed hfiled) hu' htracks' htr.2
    refine ⟨u'', d'', taken'', hu'', htracks'', fun b hb ↦ ?_,
      List.forall_mem_cons.2 ⟨hremoved, hremoved'⟩⟩
    rw [List.exists_mem_cons_iff, ← or_assoc]
    exact (htaken' b hb).imp_left (htaken b)

/-! ## The answers of searches -/

/-- A scope is being explored: a search has taken it from the queue of a unit in a run, and it has not
been compared. -/
def Explores (tr : List (Event γ × Core γ)) (u : UnitNode γ) (b : Scope) : Prop :=
  (∃ x ∈ tr, x.1.Takes u.id b) ∧ ∀ d, u.differ = some d → ¬ d.Compared b

/-- **When a search finds what it would find alone.** Counterparts are searched in a unit while other
things happen, in any order, and the comparisons are decided by a renaming. A search that nobody
interferes with has exactly one answer once the graph is complete. A search among others answers the
same whenever that is a scope, unless it answers that there is none while a scope is still being
explored from which comparisons spread to the one that is searched. -/
theorem finds_counterpart_iff {setup : Setup} {root : UnitId} {code : γ} {previous : Option Report}
    {before after : List (Event γ × Core γ)} {u u' : UnitNode γ} {d : Differ} {r : Renaming}
    {s : Scope} {answer : Option Scope} {finished : Turn γ}
    (hbefore : Run (start setup root code previous) before c) (hu : c.units[id]? = some u)
    (hd : u.differ = some d) (hfinished : finished.unit.KnowsAs u)
    (htracks : d.Tracks finished.unit.wholeGraph setup.labels r []) (hafter : Run c after c')
    (hpursues : ∀ x ∈ after, x.1.Pursues id finished.unit.wholeGraph setup.labels r)
    (hu' : c'.units[id]? = some u') (hanswer : (c'.turn u' (.matchStep s)).1 = .done answer) :
    ∃ alone, (∀ a, finished.Searches setup.labels s a ↔ a = alone) ∧
      ((∀ b, alone = some b → answer = some b) ↔
        ¬ (answer = none ∧ ∃ p b t, Explores after u' b ∧
          d.Finds finished.unit.wholeGraph setup.labels r p b ∧
          d.Leads finished.unit.wholeGraph setup.labels r p b s t)) := by
  have hfiled : c.Filed := hbefore.filed (filed_start setup root code previous)
  obtain ⟨v, d', taken, hv, htracks', htaken, hremoved⟩ :=
    hafter.tracks hfiled hu ⟨hd, htracks, .refl d, Renaming.le_refl _, fun h ↦ .inl h, rfl⟩ hpursues
  obtain rfl := Option.some.inj (hu'.symm.trans hv)
  have hid : u'.id = id := hafter.filed hfiled id u' hu'
  obtain ⟨alone, hsearches, halone⟩ :=
    Turn.exists_searches (hfinished.differ.trans hd) htracks s
  simp only [UnitNode.CanFind, hfinished.told?] at halone
  refine ⟨alone, fun a ↦ ⟨fun ha ↦ ha.unique hsearches, fun ha ↦ ha ▸ hsearches⟩, ?_⟩
  constructor
  · rintro hsame ⟨rfl, p, b, t, ⟨⟨x, hx, htakes⟩, -⟩, hfinds, hleads⟩
    cases htold : u.told? s with
    | none => exact absurd (hsame t ((halone t).2 (.inr ⟨htold, hfinds.trans hleads⟩))) (by simp)
    | some a =>
      cases a with
      | some b' => exact absurd (hsame b' ((halone b').2 (.inl htold))) (by simp)
      | none =>
        have hgone := UnitNode.isRemoved_of_told? htold
        exact absurd (hgone.symm.trans (hremoved x hx b (hid ▸ htakes))) (by simp)
  · intro hopen b hb
    obtain hfound | ⟨hnone, p, b', hmem, hnot, hbefore, hbehind⟩ :=
      htracks'.answers (t := ⟨u', .none, c'.setup.settings, c'.channels, c'.nextRequest⟩) hanswer
        ((halone b).1 hb)
    · exact hfound
    · refine absurd ⟨hnone, p, b', b, ⟨?_, fun e he ↦ ?_⟩, hbefore, hbehind⟩ hopen
      · rw [hid]
        exact (htaken b' hmem).resolve_left List.not_mem_nil
      · obtain rfl := Option.some.inj (he.symm.trans htracks'.differ)
        exact hnot

/-! ### A scope that is not closed yet -/

private def hub : UnitId := ⟨"hub"⟩

private def hubScope : Scope := ⟨hub, "x-0"⟩

private def rimScope : Scope := ⟨hub, "a-0"⟩

private def spoke : ScopeGraph := .of [⟨hubScope, "E", rimScope⟩] []

private def handedReport : Report :=
  .mk (hub.child "c") [hubScope] .empty .empty none [] [] none .initiallyStarted []

/-- The previous run, in which the scope was handed to a sub-unit. -/
private def hubReport : Report :=
  .mk hub [] spoke spoke none [("c", handedReport)] [] none .initiallyStarted []

private def hubSetup : Setup := ⟨.withReuse .simpleEnvironment, ["E"], 0⟩

private def atHub {α : Type} (c : Core Unit) (op : UnitOp Unit α) : Core Unit := (c.atUnit hub op).2

/-- The same is built again, and the sub-unit may still add edges to the scope. -/
private def hubBuilt : Core Unit :=
  let started := atHub (start hubSetup hub () (some hubReport)) (.handle (.start []))
  let created := atHub started (.act (.freshScope "x" ["E"] false false))
  let both := atHub created (.act (.freshScope "a" [] false false))
  let linked := atHub both (.act (.addEdge ⟨hubScope, "E", rimScope⟩))
  atHub linked (.act (.addSubUnit "c" (.checker ()) [hubScope] false))

private def hubUnit : UnitNode Unit :=
  (hubBuilt.units[hub]?).getD (.new hub none (.checker ()) none false false)

/-- A first search has taken the scope, and waits for it to be closed. -/
private def hubTaken : Core Unit := (hubBuilt.turn hubUnit (.matchStep rimScope)).2.2

private def takenUnit : UnitNode Unit :=
  (hubTaken.units[hub]?).getD (.new hub none (.checker ()) none false false)

private def hubPairs : Renaming := (Renaming.identity.put hubScope hubScope).put rimScope rimScope

/-- A search in the unit with the graph as it is. -/
private def hubTurn : Turn Unit := ⟨hubUnit, .none, hubSetup.settings, .empty, 0⟩

private theorem reaches_hubBuilt : Reaches (start hubSetup hub () (some hubReport)) hubBuilt :=
  ((((reaches_atUnit _ _ _).trans (reaches_atUnit _ _ _)).trans (reaches_atUnit _ _ _)).trans
    (reaches_atUnit _ _ _)).trans (reaches_atUnit _ _ _)

private theorem hubBuilt_units : hubBuilt.units[hub]? = some hubUnit := by rfl

private theorem hubTaken_units : hubTaken.units[hub]? = some takenUnit := by rfl

private theorem wholeGraph_hubTurn : hubTurn.unit.wholeGraph = spoke := by decide +kernel

/-- Comparisons start from the scope that was handed to the sub-unit. -/
private theorem differ_hubUnit :
    hubUnit.differ = some ((Differ.start hub spoke .identity).pair hubScope hubScope) := by
  decide +kernel

private theorem tracks_hubUnit :
    ((Differ.start hub spoke .identity).pair hubScope hubScope).Tracks hubTurn.unit.wholeGraph
      hubSetup.labels hubPairs [] := by
  rw [wholeGraph_hubTurn]
  have hpairs : ∀ e ∈ hubPairs.pairs, e.1 = e.2 := by decide +kernel
  have hedges : ∀ e ∈ spoke.edges.toList, hubPairs.get? e.target = some e.target := by
    decide +kernel
  have hdecided : (Differ.start hub spoke .identity).Decided spoke hubSetup.labels hubPairs := by
    refine (Differ.unambiguous_of_unchanged (fun {p c} hr ↦ ?_) fun {p l t} ht ↦ ?_).decided
    · exact hpairs (p, c) (Renaming.mem_pairs_iff.2 hr)
    · exact hedges ⟨p, l, t⟩ (Std.ExtTreeSet.mem_toList.2 (ScopeGraph.mem_targets.1 ht))
  exact hdecided.tracks_start.pair (by decide +kernel)

/-- Alone, the search compares the scope and finds the counterpart behind it. -/
private theorem searches_hubTurn : hubTurn.Searches hubSetup.labels rimScope (some rimScope) := by
  obtain ⟨a, hsearches, ha⟩ :=
    Turn.exists_searches (t := hubTurn) differ_hubUnit tracks_hubUnit rimScope
  have htarget : rimScope ∈ spoke.targets hubScope "E" := by decide +kernel
  have hleads : ((Differ.start hub spoke .identity).pair hubScope hubScope).Leads spoke
      hubSetup.labels hubPairs hubScope hubScope rimScope rimScope :=
    .step (l := "E") .refl (by decide) (by decide) htarget htarget (by decide +kernel)
  rw [wholeGraph_hubTurn] at ha
  have hfinds := hleads.finds (by decide +kernel)
  rwa [(ha rimScope).2 (.inr ⟨by decide +kernel, hfinds⟩)] at hsearches

private theorem run_hubTaken : ∃ e : Event Unit, Run hubBuilt [(e, hubTaken)] hubTaken ∧
    e.Pursues hub hubTurn.unit.wholeGraph hubSetup.labels hubPairs :=
  ⟨_, .cons (.turn hubBuilt_units (.matchStep rimScope)) (.nil _), fun _ ↦ .search _⟩

private theorem answer_hubTaken :
    (hubTaken.turn takenUnit (.matchStep rimScope)).1 = .done none := by rfl

/-- A second search finds the queue empty. The scope that the first one has taken is being explored,
and the counterpart lies behind it. -/
theorem finds_counterpart_iff_hub :
    (hubTaken.turn takenUnit (.matchStep rimScope)).1 = .done none ∧
      ∃ e b, Explores [(e, hubTaken)] takenUnit b := by
  obtain ⟨before, hbefore⟩ := reaches_hubBuilt
  obtain ⟨e, hafter, hpursues⟩ := run_hubTaken
  have hknows : hubTurn.unit.KnowsAs hubUnit := ⟨rfl, rfl, rfl⟩
  obtain ⟨alone, halone, hsame⟩ := finds_counterpart_iff hbefore hubBuilt_units differ_hubUnit
    hknows tracks_hubUnit hafter (List.forall_mem_singleton.2 hpursues)
    hubTaken_units answer_hubTaken
  obtain rfl := (halone _).1 searches_hubTurn
  obtain ⟨-, p, b, t, hexplores, -⟩ : none = none ∧ _ :=
    not_not.1 fun hnot ↦ absurd (hsame.2 hnot rimScope rfl) nofun
  exact ⟨answer_hubTaken, e, b, hexplores⟩

/-- **A search among others may find less than it would alone.** It may answer that there is no
counterpart because another search is still waiting for a scope. -/
theorem not_always_finds_counterpart :
    ¬ ∀ (setup : Setup) (root id : UnitId) (previous : Option Report)
      (before after : List (Event Unit × Core Unit)) (c c' : Core Unit) (u u' : UnitNode Unit)
      (d : Differ) (r : Renaming) (s b : Scope) (answer : Option Scope) (finished : Turn Unit),
      Run (start setup root () previous) before c → c.units[id]? = some u → u.differ = some d →
      finished.unit.KnowsAs u → d.Tracks finished.unit.wholeGraph setup.labels r [] →
      Run c after c' →
      (∀ x ∈ after, x.1.Pursues id finished.unit.wholeGraph setup.labels r) →
      c'.units[id]? = some u' → (c'.turn u' (.matchStep s)).1 = .done answer →
      finished.Searches setup.labels s (some b) → answer = some b := by
  intro h
  obtain ⟨before, hbefore⟩ := reaches_hubBuilt
  obtain ⟨e, hafter, hpursues⟩ := run_hubTaken
  have hsame := h hubSetup hub hub (some hubReport) before [(e, hubTaken)] hubBuilt hubTaken hubUnit
    takenUnit _ hubPairs rimScope rimScope none hubTurn hbefore hubBuilt_units differ_hubUnit
    ⟨rfl, rfl, rfl⟩ tracks_hubUnit hafter (List.forall_mem_singleton.2 hpursues) hubTaken_units
    answer_hubTaken searches_hubTurn
  exact absurd hsame nofun

end Core

end ScopeGraphs
