import ScopeGraphs.Confirm.Fixed
import ScopeGraphs.Proofs.Diff.Differences
import ScopeGraphs.Proofs.Resolution.FixedGraph

/-!
# What a walk over differences finds

A walk goes from the end of a path along matched edges, and takes down the pair and the changes of
every scope of the unit that it comes to. What it returns is told in terms of the differences that
are known in the end: exactly the pairs and changes that are found at the places it visits
(`EnvDiff.Gathers`). The differences of these places are stored, so it does not matter that the
differ learns more while the walk goes on.

Between fixed graphs the walk never fails (`FixedGraphs.runs_walk`). If all scopes belong to the
unit, it has listed every change that a query could see from the path (`EnvDiff.Accounts`).
-/

namespace ScopeGraphs

/-! ## Where a walk comes -/

namespace EnvDiff

variable {owner : UnitId} {d d' : Differ} {ed ed' : EnvDiff} {rule : DataRule QueryParams}
  {path q q' : Path} {p next p' : Pattern} {x : ScopeDiff}

/-- From one path a walk comes to another one, along matched edges of scopes of the unit, as far as
the pattern and the paths allow. -/
inductive Visits (owner : UnitId) (d : Differ) : Path → Pattern → Path → Pattern → Prop where
  | here (path : Path) (p : Pattern) : Visits owner d path p path p
  | there {path q q' : Path} {p next p' : Pattern} {x : ScopeDiff} {l : Label} {t : Scope}
      (howner : path.target.owner = owner) (hx : d.diffOf? path.target = some x)
      (ht : (l, t) ∈ x.matched) (hp : p.step? l = some next) (hq : path.step? l t = some q)
      (h : Visits owner d q next q' p') : Visits owner d path p q' p'

/-- A walk goes on behind one of some edges. -/
def Behind (owner : UnitId) (d : Differ) (path : Path) (p : Pattern) (es : List (Label × Scope))
    (q' : Path) (p' : Pattern) : Prop :=
  ∃ e ∈ es, ∃ q next, p.step? e.1 = some next ∧ path.step? e.1 e.2 = some q ∧
    Visits owner d q next q' p'

theorem visits_iff (howner : path.target.owner = owner) (hx : d.diffOf? path.target = some x) :
    Visits owner d path p q' p' ↔
      (q' = path ∧ p' = p) ∨ Behind owner d path p x.matched q' p' := by
  constructor
  · rintro (_ | ⟨-, hy, ht, hp, hq, h⟩)
    · exact .inl ⟨rfl, rfl⟩
    · obtain rfl := Option.some.inj (hx.symm.trans hy)
      exact .inr ⟨_, ht, _, _, hp, hq, h⟩
  · rintro (⟨rfl, rfl⟩ | ⟨e, ht, q, next, hp, hq, h⟩)
    · exact .here _ _
    · exact .there howner hx ht hp hq h

/-- Where there is no difference, the walk goes no further. -/
theorem visits_iff_eq (hend : path.target.owner = owner → d.diffOf? path.target = none) :
    Visits owner d path p q' p' ↔ q' = path ∧ p' = p := by
  constructor
  · rintro (_ | ⟨howner, hx, -, -, -, -⟩)
    · exact ⟨rfl, rfl⟩
    · exact absurd ((hend howner).symm.trans hx) nofun
  · rintro ⟨rfl, rfl⟩
    exact .here _ _

theorem behind_cons {e : Label × Scope} {es : List (Label × Scope)} :
    Behind owner d path p (e :: es) q' p' ↔
      (∃ q next, p.step? e.1 = some next ∧ path.step? e.1 e.2 = some q ∧
        Visits owner d q next q' p') ∨ Behind owner d path p es q' p' := by
  simp [Behind]

theorem Visits.trans (h : Visits owner d path p q next) (h' : Visits owner d q next q' p') :
    Visits owner d path p q' p' := by
  induction h with
  | here => exact h'
  | there howner hx ht hp hq _ ih => exact .there howner hx ht hp hq (ih h')

/-- All scopes of the unit at some places have a difference. -/
def Known (owner : UnitId) (d : Differ) (S : Path → Pattern → Prop) : Prop :=
  ∀ {q p}, S q p → q.target.owner = owner → ∃ x, d.diffOf? q.target = some x

theorem Known.mono {S : Path → Pattern → Prop} (h : Known owner d S) (hd : d.Grows d') :
    Known owner d' S := by
  intro q p hS howner
  obtain ⟨x, hx⟩ := h hS howner
  exact ⟨x, hd.diffs hx⟩

/-- What the differ learns later leads nowhere else. -/
theorem Known.visits_iff (h : Known owner d (Visits owner d path p)) (hd : d.Grows d') :
    Visits owner d' path p q' p' ↔ Visits owner d path p q' p' := by
  constructor
  · intro hvisits
    induction hvisits with
    | here => exact .here _ _
    | there howner hx ht hp hq _ ih =>
      obtain ⟨y, hy⟩ := h (.here _ _) howner
      obtain rfl := Option.some.inj ((hd.diffs hy).symm.trans hx)
      exact .there howner hy ht hp hq (ih fun hv ↦ h (.there howner hy ht hp hq hv))
  · intro hvisits
    clear h
    induction hvisits with
    | here => exact .here _ _
    | there howner hx ht hp hq _ ih => exact .there howner (hd.diffs hx) ht hp hq ih

/-! ## What is found on the way -/

/-- What a walk takes down at the end of a path. -/
def foundAt (owner : UnitId) (d : Differ) (rule : DataRule QueryParams) (path : Path)
    (p : Pattern) : EnvDiff :=
  if path.target.owner ≠ owner then ⟨.identity, [⟨.external, path, p, rule⟩]⟩
  else
    match d.diffOf? path.target with
    | none => ⟨.identity, [⟨.added, path, p, rule⟩]⟩
    | some x => ⟨Renaming.identity.put x.previous x.current, changesAt path p rule x⟩

theorem foundAt_of_ne (howner : path.target.owner ≠ owner) :
    foundAt owner d rule path p = ⟨.identity, [⟨.external, path, p, rule⟩]⟩ :=
  if_pos howner

theorem foundAt_of_diffOf?_eq_none (howner : path.target.owner = owner)
    (hx : d.diffOf? path.target = none) :
    foundAt owner d rule path p = ⟨.identity, [⟨.added, path, p, rule⟩]⟩ := by
  rw [foundAt, if_neg (not_not_intro howner), hx]

theorem foundAt_of_diffOf? (howner : path.target.owner = owner)
    (hx : d.diffOf? path.target = some x) : foundAt owner d rule path p =
      ⟨Renaming.identity.put x.previous x.current, changesAt path p rule x⟩ := by
  rw [foundAt, if_neg (not_not_intro howner), hx]

theorem Known.foundAt_eq {S : Path → Pattern → Prop} (h : Known owner d S) (hS : S q p)
    (hd : d.Grows d') : foundAt owner d' rule q p = foundAt owner d rule q p := by
  by_cases howner : q.target.owner = owner
  · obtain ⟨x, hx⟩ := h hS howner
    rw [foundAt_of_diffOf? howner hx, foundAt_of_diffOf? howner (hd.diffs hx)]
  · rw [foundAt_of_ne howner, foundAt_of_ne howner]

variable {a b : Scope}

/-- Only the scopes of the unit that have a difference are paired. -/
theorem get?_foundAt : (foundAt owner d rule path p).pairs.get? a = some b ↔
    path.target.owner = owner ∧
      ∃ x, d.diffOf? path.target = some x ∧ x.previous = a ∧ x.current = b := by
  have hnone : ¬ Renaming.identity.get? a = some b := by simp [Renaming.get?, Renaming.identity]
  by_cases howner : path.target.owner = owner
  · cases hx : d.diffOf? path.target with
    | none =>
      rw [foundAt_of_diffOf?_eq_none howner hx]
      refine iff_of_false hnone ?_
      rintro ⟨-, y, hy, -⟩
      exact Option.some_ne_none y hy.symm
    | some x =>
      have hput : ∃ r, Renaming.identity.put? x.previous x.current = some r :=
        Renaming.put?_isSome (.inr ⟨rfl, rfl⟩)
      obtain ⟨r, hr⟩ := hput
      rw [foundAt_of_diffOf? howner hx, Renaming.put, hr, Option.getD_some,
        Renaming.get?_of_put? hr, or_iff_right hnone]
      constructor
      · rintro ⟨rfl, rfl⟩
        exact ⟨howner, x, rfl, rfl, rfl⟩
      · rintro ⟨-, y, hy, rfl, rfl⟩
        obtain rfl := Option.some.inj hy
        exact ⟨rfl, rfl⟩
  · rw [foundAt_of_ne howner]
    exact iff_of_false hnone fun h ↦ howner h.1

/-- The pairs and changes are exactly those that are found at some places. -/
structure Gathers (owner : UnitId) (d : Differ) (rule : DataRule QueryParams) (ed : EnvDiff)
    (S : Path → Pattern → Prop) : Prop where
  pairs : ∀ {a b}, ed.pairs.get? a = some b ↔
    ∃ q p, S q p ∧ (foundAt owner d rule q p).pairs.get? a = some b
  changes : ∀ {c}, c ∈ ed.changes ↔ ∃ q p, S q p ∧ c ∈ (foundAt owner d rule q p).changes

namespace Gathers

variable {S S' : Path → Pattern → Prop}

theorem foundAt (owner : UnitId) (d : Differ) (rule : DataRule QueryParams) (path : Path)
    (p : Pattern) : Gathers owner d rule (foundAt owner d rule path p)
      fun q p' ↦ q = path ∧ p' = p where
  pairs := ⟨fun h ↦ ⟨path, p, ⟨rfl, rfl⟩, h⟩, by rintro ⟨_, _, ⟨rfl, rfl⟩, h⟩; exact h⟩
  changes := ⟨fun h ↦ ⟨path, p, ⟨rfl, rfl⟩, h⟩, by rintro ⟨_, _, ⟨rfl, rfl⟩, h⟩; exact h⟩

theorem congr (h : Gathers owner d rule ed S) (hS : ∀ q p, S q p ↔ S' q p) :
    Gathers owner d rule ed S' := by
  obtain rfl : S = S' := funext fun q ↦ funext fun p ↦ propext (hS q p)
  exact h

theorem mono (h : Gathers owner d rule ed S) (hS : Known owner d S) (hd : d.Grows d') :
    Gathers owner d' rule ed S where
  pairs := h.pairs.trans <| exists_congr fun q ↦ exists_congr fun p ↦
    and_congr_right fun hq ↦ by rw [hS.foundAt_eq hq hd]
  changes := h.changes.trans <| exists_congr fun q ↦ exists_congr fun p ↦
    and_congr_right fun hq ↦ by rw [hS.foundAt_eq hq hd]

/-- All pairs are known to the differ. -/
theorem pairs_le (h : Gathers owner d rule ed S) {before now : ScopeGraph} {labels : List Label}
    (hd : Differ.Reached owner before now labels d) : ed.pairs ≤ d.pairs := by
  intro a b hab
  obtain ⟨q, p, -, hfound⟩ := h.pairs.1 hab
  obtain ⟨-, x, hx, rfl, rfl⟩ := get?_foundAt.1 hfound
  exact (hd.diffs hx).edges.pair

/-- What was found by two walks is taken over by one if all pairs are known to one differ. -/
theorem absorb (h : Gathers owner d rule ed S) (h' : Gathers owner d rule ed' S') {r : Renaming}
    (hr : ed.pairs ≤ r) (hr' : ed'.pairs ≤ r) :
    Gathers owner d rule (ed.absorb ed') fun q p ↦ S q p ∨ S' q p where
  pairs := by
    intro a b
    rw [EnvDiff.absorb, Renaming.get?_putEach_pairs_iff hr hr', h.pairs, h'.pairs]
    simp only [or_and_right, exists_or]
  changes := by
    intro c
    rw [EnvDiff.absorb, List.mem_append, h.changes, h'.changes]
    simp only [or_and_right, exists_or]

end Gathers

/-! ## Accounting -/

/-- The changes and pairs of a walk account for what a query can see from a path: the end of the
path has a difference, the changes there are listed, its scopes are paired, and the same holds after
every step along a matched edge that the pattern and the path allow. -/
inductive Accounts (d : Differ) (rule : DataRule QueryParams) (ed : EnvDiff) :
    Path → Pattern → Prop where
  | intro {path : Path} {p : Pattern} {x : ScopeDiff} (hx : d.diffOf? path.target = some x)
      (hpair : ed.pairs.get? x.previous = some x.current)
      (hhere : ∀ c ∈ changesAt path p rule x, c ∈ ed.changes)
      (hbehind : ∀ {l t next q}, (l, t) ∈ x.matched → p.step? l = some next →
        path.step? l t = some q → Accounts d rule ed q next) : Accounts d rule ed path p

/-- No change leads to another unit, and all are about one rule for data. -/
def Local (rule : DataRule QueryParams) (ed : EnvDiff) : Prop :=
  ∀ c ∈ ed.changes, c.kind ≠ .external ∧ c.dataRule = rule

theorem local_changesAt (pairs : Renaming) (path : Path) (p : Pattern)
    (rule : DataRule QueryParams) (x : ScopeDiff) :
    Local rule ⟨pairs, changesAt path p rule x⟩ := by
  have hedges : ∀ {kind : ChangeKind} {path : Path} {edges : List (Label × Scope)},
      kind ≠ .external → ∀ c ∈ edgeChanges kind path p rule edges,
        c.kind ≠ .external ∧ c.dataRule = rule := by
    intro kind path edges hkind c hc
    obtain ⟨e, -, he⟩ := List.mem_filterMap.1 hc
    split at he
    · obtain rfl := Option.some.inj he
      exact ⟨hkind, rfl⟩
    · exact absurd he (by simp)
  intro c hc
  rcases List.mem_append.1 hc with hc | hc
  · rcases List.mem_append.1 hc with hc | hc
    · rw [datumChanges] at hc
      split at hc
      · rcases List.mem_append.1 hc with hc | hc
        · split at hc
          · obtain rfl := List.mem_singleton.1 hc
            exact ⟨by simp, rfl⟩
          · exact absurd hc List.not_mem_nil
        · split at hc
          · obtain rfl := List.mem_singleton.1 hc
            exact ⟨by simp, rfl⟩
          · exact absurd hc List.not_mem_nil
      · exact absurd hc List.not_mem_nil
    · exact hedges (by simp) c hc
  · exact hedges (by simp) c hc

/-- If all current scopes belong to the unit, a walk never leaves it. -/
theorem Visits.owner_eq {before now : ScopeGraph} {labels : List Label}
    (h : Visits owner d path p q p') (hd : Differ.Reached owner before now labels d)
    (howned : ∀ s ∈ now.scopes, s.owner = owner) (howner : path.target.owner = owner) :
    q.target.owner = owner := by
  induction h with
  | here => exact howner
  | there _ hx ht _ hq _ ih =>
    refine ih ?_
    rw [Path.target_of_step? hq]
    exact howned _ (ScopeGraph.mem_scopes_of_mem_targets ((hd.diffs hx).edges.matched ht).1)

namespace Gathers

variable {before now : ScopeGraph} {labels : List Label}

/-- What a walk takes down within the unit accounts for what can be seen from its path. -/
theorem accounts (h : Gathers owner d rule ed (Visits owner d path p))
    (hknown : Known owner d (Visits owner d path p))
    (hd : Differ.Reached owner before now labels d)
    (howned : ∀ s ∈ now.scopes, s.owner = owner) (howner : path.target.owner = owner) :
    ed.Accounts d rule path p := by
  -- Every step takes away from the room of a path, wherever the walk has come to.
  have haccounts : ∀ {depth : Nat} {q : Path} {p' : Pattern},
      View.room now.scopes.toList q < depth → Visits owner d path p q p' →
        ed.Accounts d rule q p' := by
    intro depth
    induction depth with
    | zero => intro q p' hroom; omega
    | succ depth ih =>
      intro q p' hroom hvisits
      have hq := hvisits.owner_eq hd howned howner
      obtain ⟨x, hx⟩ := hknown hvisits hq
      refine .intro hx (h.pairs.2 ⟨q, p', hvisits, get?_foundAt.2 ⟨hq, x, hx, rfl, rfl⟩⟩) ?_ ?_
      · intro c hc
        exact h.changes.2 ⟨q, p', hvisits, by rwa [foundAt_of_diffOf? hq hx]⟩
      · intro l t next longer ht hp hlonger
        have hmem := ScopeGraph.mem_scopes_of_mem_targets ((hd.diffs hx).edges.matched ht).1
        have hlt := View.room_lt_of_step? (Std.ExtTreeSet.mem_toList.2 hmem) hlonger
        exact ih (by omega) (hvisits.trans (.there hq hx ht hp hlonger (.here _ _)))
  exact haccounts (Nat.lt_succ_self _) (.here _ _)

/-- Within the unit no change leads to another one. -/
theorem isLocal (h : Gathers owner d rule ed (Visits owner d path p))
    (hknown : Known owner d (Visits owner d path p))
    (hd : Differ.Reached owner before now labels d)
    (howned : ∀ s ∈ now.scopes, s.owner = owner) (howner : path.target.owner = owner) :
    ed.Local rule := by
  intro c hc
  obtain ⟨q, p', hvisits, hfound⟩ := h.changes.1 hc
  have hq := hvisits.owner_eq hd howned howner
  obtain ⟨x, hx⟩ := hknown hvisits hq
  rw [foundAt_of_diffOf? hq hx] at hfound
  exact local_changesAt .identity q p' rule x c hfound

end Gathers

end EnvDiff

/-! ## Running -/

namespace FixedGraphs

/-- The computation succeeds with a result and leaves a state. -/
def Runs {α : Type} (x : FixedM α) (σ : FixedState) (a : α) (σ' : FixedState) : Prop :=
  x.run.run σ = (.ok a, σ')

theorem Runs.pure {α : Type} (a : α) (σ : FixedState) : Runs (Pure.pure a) σ a σ := rfl

theorem Runs.bind {α β : Type} {x : FixedM α} {f : α → FixedM β} {σ σ' σ'' : FixedState} {a : α}
    {b : β} (hx : Runs x σ a σ') (hf : Runs (f a) σ' b σ'') : Runs (x >>= f) σ b σ'' := by
  rw [Runs, ExceptT.run_bind, StateT.run_bind, hx]
  exact hf

variable (g : FixedGraphs) {σ σ' : FixedState} {rule : DataRule QueryParams} {path : Path}
  {p : Pattern}

/-- The differ of a state has come about by comparing the two graphs. -/
def Reached (σ : FixedState) : Prop :=
  Differ.Reached g.owner g.previous g.current g.labels σ.differ

/-- What a walk returns is what is found at the places it comes to, in terms of the differ that it
leaves. -/
structure Walked (rule : DataRule QueryParams) (path : Path) (p : Pattern) (σ : FixedState)
    (ed : EnvDiff) (σ' : FixedState) : Prop where
  reached : g.Reached σ'
  grows : σ.differ.Grows σ'.differ
  gathers : ed.Gathers g.owner σ'.differ rule (EnvDiff.Visits g.owner σ'.differ path p)
  known : (path.target.owner = g.owner → ∃ y, σ.differ.previousOf? path.target = some y) →
    EnvDiff.Known g.owner σ'.differ (EnvDiff.Visits g.owner σ'.differ path p)
  source : ∀ {y}, path.target.owner = g.owner → σ.differ.previousOf? path.target = some y →
    σ'.differ.pairs.get? y = some path.target

variable {g}

/-- Diffing a scope. If it has a counterpart, there is a difference, and the two are paired. -/
theorem runs_scopeDiff (hσ : g.Reached σ) (s : Scope) :
    ∃ σ', Runs (g.scopeDiff s) σ (σ'.differ.diffOf? s) σ' ∧ g.Reached σ' ∧
      σ.differ.Grows σ'.differ ∧ ∀ {y}, σ.differ.previousOf? s = some y →
        ∃ x, σ'.differ.diffOf? s = some x ∧ σ'.differ.pairs.get? y = some s := by
  obtain ⟨hgrows, heq⟩ := σ.differ.grows_diff s g.current g.labels
  refine ⟨⟨(σ.differ.diff s g.current g.labels).2, σ.calls⟩, ?_,
    hσ.diff s (List.Subset.refl _), hgrows, fun hy ↦ ?_⟩
  · rw [← heq]
    rfl
  · rw [← heq]
    exact Differ.Reached.diff_of_previousOf? hσ (List.Subset.refl _) hy

/-- Following edges to paired scopes one after the other takes over what is found behind them. -/
theorem runs_behind {descend : Path → Pattern → FixedM EnvDiff} {edges : List (Label × Scope)}
    (hdescend : ∀ {σ l t q} (next : Pattern), g.Reached σ → (l, t) ∈ edges →
      path.step? l t = some q →
        ∃ ed σ', Runs (descend q next) σ ed σ' ∧ g.Walked rule q next σ ed σ')
    {es : List (Label × Scope)} (hes : es ⊆ edges) (hσ : g.Reached σ)
    (hpaired : ∀ {l t}, (l, t) ∈ edges → ∃ y, σ.differ.pairs.get? y = some t)
    {out : EnvDiff} {S : Path → Pattern → Prop} (hout : out.Gathers g.owner σ.differ rule S)
    (hS : EnvDiff.Known g.owner σ.differ S) :
    ∃ ed σ', Runs (DiffContext.behind descend path p es out) σ ed σ' ∧ g.Reached σ' ∧
      σ.differ.Grows σ'.differ ∧
      ed.Gathers g.owner σ'.differ rule (fun q p' ↦
        S q p' ∨ EnvDiff.Behind g.owner σ'.differ path p es q p') ∧
      EnvDiff.Known g.owner σ'.differ (EnvDiff.Behind g.owner σ'.differ path p es) := by
  induction es generalizing σ out S with
  | nil =>
    refine ⟨out, σ, Runs.pure _ _, hσ, .refl _, hout.congr ?_, ?_⟩
    · simp [EnvDiff.Behind]
    · simp [EnvDiff.Known, EnvDiff.Behind]
  | cons e es ih =>
    obtain ⟨he, hes⟩ := List.cons_subset.1 hes
    rw [DiffContext.behind]
    split
    · rename_i next q hnext hq
      obtain ⟨y, hy⟩ := hpaired he
      obtain ⟨sub, σ₁, hrun, hwalked⟩ := hdescend next hσ he hq
      have hknown : EnvDiff.Known g.owner σ₁.differ (EnvDiff.Visits g.owner σ₁.differ q next) := by
        refine hwalked.known fun _ ↦ ⟨y, ?_⟩
        rw [Path.target_of_step? hq]
        exact Differ.previousOf?_of_get? hy
      have hout' := hout.mono hS hwalked.grows
      obtain ⟨ed, σ₂, hrun', hσ₂, hgrows, hed, hbehind⟩ := ih hes hwalked.reached
        (fun ht ↦ (hpaired ht).imp fun _ ↦ (hwalked.grows.pairs ·))
        (hout'.absorb hwalked.gathers (hout'.pairs_le hwalked.reached)
          (hwalked.gathers.pairs_le hwalked.reached))
        (fun hS' howner ↦ hS'.elim (hS.mono hwalked.grows · howner) (hknown · howner))
      have hiff (q' : Path) (p' : Pattern) :
          EnvDiff.Behind g.owner σ₂.differ path p (e :: es) q' p' ↔
            EnvDiff.Visits g.owner σ₁.differ q next q' p' ∨
              EnvDiff.Behind g.owner σ₂.differ path p es q' p' := by
        rw [EnvDiff.behind_cons, ← hknown.visits_iff hgrows]
        simp [hnext, hq]
      refine ⟨ed, σ₂, hrun.bind hrun', hσ₂, hwalked.grows.trans hgrows, hed.congr ?_, ?_⟩
      · intro q' p'
        rw [hiff, or_assoc]
      · intro q' p' hvisits howner
        rcases (hiff q' p').1 hvisits with hvisits | hvisits
        · exact hknown.mono hgrows hvisits howner
        · exact hbehind hvisits howner
    -- The pattern does not go on with the label, or the path has been at the target before.
    · rename_i hskip
      obtain ⟨ed, σ₂, hrun', hσ₂, hgrows, hed, hbehind⟩ := ih hes hσ hpaired hout hS
      have hiff (q' : Path) (p' : Pattern) :
          EnvDiff.Behind g.owner σ₂.differ path p (e :: es) q' p' ↔
            EnvDiff.Behind g.owner σ₂.differ path p es q' p' := by
        rw [EnvDiff.behind_cons, or_iff_right]
        rintro ⟨q, next, hnext, hq, -⟩
        exact hskip next q hnext hq
      refine ⟨ed, σ₂, hrun', hσ₂, hgrows, hed.congr fun q' p' ↦ ?_, ?_⟩
      · rw [hiff]
      · intro q' p' hvisits howner
        exact hbehind ((hiff q' p').1 hvisits) howner

/-- Where there is no difference, a walk takes down what is found there. -/
theorem walked_end (hσ : g.Reached σ') (hgrows : σ.differ.Grows σ'.differ)
    (hend : path.target.owner = g.owner → σ'.differ.diffOf? path.target = none)
    (hno : ∀ {y}, path.target.owner = g.owner → σ.differ.previousOf? path.target ≠ some y) :
    g.Walked rule path p σ (EnvDiff.foundAt g.owner σ'.differ rule path p) σ' where
  reached := hσ
  grows := hgrows
  gathers := (EnvDiff.Gathers.foundAt g.owner σ'.differ rule path p).congr fun _ _ ↦
    (EnvDiff.visits_iff_eq hend).symm
  known hy := by
    intro q p' hvisits howner
    obtain ⟨rfl, rfl⟩ := (EnvDiff.visits_iff_eq hend).1 hvisits
    obtain ⟨y, hy⟩ := hy howner
    exact absurd hy (hno howner)
  source howner hy := absurd hy (hno howner)

/-- Where there is a difference, a walk takes down what is found there, and what is found behind the
matched edges. -/
theorem walked_through {ed : EnvDiff} {x : ScopeDiff} (hσ : g.Reached σ')
    (hgrows : σ.differ.Grows σ'.differ) (howner : path.target.owner = g.owner)
    (hx : σ'.differ.diffOf? path.target = some x)
    (hed : ed.Gathers g.owner σ'.differ rule fun q p' ↦
      (q = path ∧ p' = p) ∨ EnvDiff.Behind g.owner σ'.differ path p x.matched q p')
    (hbehind : EnvDiff.Known g.owner σ'.differ
      (EnvDiff.Behind g.owner σ'.differ path p x.matched))
    (hsource : ∀ {y}, σ.differ.previousOf? path.target = some y →
      σ'.differ.pairs.get? y = some path.target) : g.Walked rule path p σ ed σ' where
  reached := hσ
  grows := hgrows
  gathers := hed.congr fun _ _ ↦ (EnvDiff.visits_iff howner hx).symm
  known _ := by
    intro q p' hvisits hq
    rcases (EnvDiff.visits_iff howner hx).1 hvisits with ⟨rfl, rfl⟩ | hvisits
    · exact ⟨x, hx⟩
    · exact hbehind hvisits hq
  source _ hy := hsource hy

/-- **A walk finds what is to be found.** It never fails: a path can only be extended as long as
there are scopes that it has not been at. -/
theorem runs_walk (rule : DataRule QueryParams) (p : Pattern) {depth : Nat} (hσ : g.Reached σ)
    (hroom : View.room g.current.scopes.toList path < depth) :
    ∃ ed σ', Runs (DiffContext.walk ⟨g.owner, g.scopeDiff⟩ rule depth path p) σ ed σ' ∧
      g.Walked rule path p σ ed σ' := by
  induction depth generalizing σ path p with
  | zero => omega
  | succ depth ih =>
    rw [DiffContext.walk]
    by_cases howner : path.target.owner = g.owner
    · rw [if_neg (not_not_intro howner)]
      obtain ⟨σ₁, hrun, hσ₁, hgrows, hcounterpart⟩ := runs_scopeDiff hσ path.target
      cases hx : σ₁.differ.diffOf? path.target with
      | none =>
        rw [hx] at hrun
        refine ⟨EnvDiff.foundAt g.owner σ₁.differ rule path p, σ₁, hrun.bind ?_,
          walked_end hσ₁ hgrows (fun _ ↦ hx) ?_⟩
        · rw [EnvDiff.foundAt_of_diffOf?_eq_none howner hx]
          exact Runs.pure _ _
        · intro y _ hy
          obtain ⟨x, hx', -⟩ := hcounterpart hy
          exact absurd (hx.symm.trans hx') nofun
      | some x =>
        rw [hx] at hrun
        have hedges := (Differ.Reached.diffs hσ₁ hx).edges
        -- Matched targets are scopes of the graph, so the walk goes on from each of them.
        have hdescend {σ : FixedState} {l : Label} {t : Scope} {q : Path} (next : Pattern)
            (hσ : g.Reached σ) (ht : (l, t) ∈ x.matched) (hq : path.step? l t = some q) :
            ∃ ed σ', Runs (DiffContext.walk ⟨g.owner, g.scopeDiff⟩ rule depth q next) σ ed σ' ∧
              g.Walked rule q next σ ed σ' := by
          have hmem := ScopeGraph.mem_scopes_of_mem_targets (hedges.matched ht).1
          have hlt := View.room_lt_of_step? (Std.ExtTreeSet.mem_toList.2 hmem) hq
          exact ih next hσ (by omega)
        have hpaired {l : Label} {t : Scope} (ht : (l, t) ∈ x.matched) :
            ∃ y, σ₁.differ.pairs.get? y = some t := by
          obtain ⟨-, y, -, hy⟩ := hedges.matched ht
          exact ⟨y, hy⟩
        have hhere : EnvDiff.Known g.owner σ₁.differ fun q p' ↦ q = path ∧ p' = p := by
          rintro _ _ ⟨rfl, rfl⟩ -
          exact ⟨x, hx⟩
        obtain ⟨ed, σ₂, hrun', hσ₂, hgrows', hed, hbehind⟩ := runs_behind hdescend
          (List.Subset.refl x.matched) hσ₁ hpaired
          (EnvDiff.Gathers.foundAt g.owner σ₁.differ rule path p) hhere
        rw [EnvDiff.foundAt_of_diffOf? howner hx] at hrun'
        refine ⟨ed, σ₂, hrun.bind hrun', walked_through hσ₂ (hgrows.trans hgrows') howner
          (hgrows'.diffs hx) hed hbehind fun hy ↦ ?_⟩
        obtain ⟨-, -, hget⟩ := hcounterpart hy
        exact hgrows'.pairs hget
    · rw [if_pos howner]
      refine ⟨EnvDiff.foundAt g.owner σ.differ rule path p, σ, ?_,
        walked_end hσ (.refl _) (fun h ↦ absurd h howner) (fun h ↦ absurd h howner)⟩
      rw [EnvDiff.foundAt_of_ne howner]
      exact Runs.pure _ _

/-- Looking for what changed always succeeds. -/
theorem runs_envDiff (hσ : g.Reached σ) (path : Path) (p : Pattern)
    (rule : DataRule QueryParams) :
    ∃ ed σ', Runs (g.envDiff path p rule) σ ed σ' ∧ g.Walked rule path p σ ed σ' := by
  have hroom := ScopeGraph.room_lt_size (g := g.current) path
  exact runs_walk rule p hσ (by omega)

end FixedGraphs

end ScopeGraphs
