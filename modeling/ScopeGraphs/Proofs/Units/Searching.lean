import ScopeGraphs.Proofs.Diff.Spreading
import ScopeGraphs.Units.Asking

/-!
# Searching for counterparts

Whoever wants to know the current counterpart of a previous scope asks the unit again and again, and
compares the scope that it is told to compare each time, until there is an answer. A search that
nobody interferes with always ends, with what the comparisons of the unit find if they are carried to
the end (`Turn.exists_searches`).

Searches share the differ of the unit. What one of them does to the differ when it takes a scope, and
when it compares one, is said by `Turn.tracks_matchStep` and `Turn.tracks_diffScope`.
-/

namespace ScopeGraphs

variable {γ : Type}

namespace UnitNode

/-- The graph that a unit compares with the one of its previous run. -/
def wholeGraph (u : UnitNode γ) : ScopeGraph := u.graph.union u.localGraph

/-- What a unit knows about the counterpart of a scope without comparing anything: scopes that were
handed to sub-units have known ones, and a stand-in for a unit that is gone has none. -/
def told? (u : UnitNode γ) (s : Scope) : Option (Option Scope) :=
  match u.sharedPairs.get? s with
  | some current => some (some current)
  | none => if u.isRemoved then some none else none

/-- There is no counterpart only if the unit is gone. -/
theorem isRemoved_of_told? {u : UnitNode γ} {s : Scope} (h : u.told? s = some none) :
    u.isRemoved = true := by
  rw [told?] at h
  split at h
  · exact absurd h (by simp)
  · split at h
    · assumption
    · exact absurd h nofun

theorem isRemoved_of_told?_eq_none {u : UnitNode γ} {s : Scope} (h : u.told? s = none) :
    ¬ u.isRemoved = true := by
  rw [told?] at h
  split at h
  · exact absurd h nofun
  · split at h
    · exact absurd h nofun
    · assumption

theorem told?_eq_some_iff {u : UnitNode γ} {s b : Scope} :
    u.told? s = some (some b) ↔ u.sharedPairs.get? s = some b := by
  rw [told?]
  split
  · rename_i hshared
    rw [hshared, Option.some.injEq]
  · rename_i hshared
    rw [hshared]
    split <;> simp

/-- The answers of two units about counterparts come from the same knowledge. -/
structure KnowsAs (u v : UnitNode γ) : Prop where
  differ : u.differ = v.differ
  sharedPairs : u.sharedPairs = v.sharedPairs
  isRemoved : u.isRemoved = v.isRemoved

theorem KnowsAs.refl (u : UnitNode γ) : u.KnowsAs u := ⟨rfl, rfl, rfl⟩

theorem KnowsAs.trans {u v w : UnitNode γ} (h : u.KnowsAs v) (h' : v.KnowsAs w) : u.KnowsAs w :=
  ⟨h.differ.trans h'.differ, h.sharedPairs.trans h'.sharedPairs, h.isRemoved.trans h'.isRemoved⟩

theorem KnowsAs.told? {u v : UnitNode γ} (h : u.KnowsAs v) (s : Scope) : u.told? s = v.told? s := by
  rw [UnitNode.told?, UnitNode.told?, h.sharedPairs, h.isRemoved]

/-- The first unit may have handed scopes to sub-units, and has become the second one. It was told
pairs of a renaming, and nothing else about counterparts. -/
def IsTold (u v : UnitNode γ) (r : Renaming) : Prop :=
  ∃ pairs : List (Scope × Scope), (∀ e ∈ pairs, r.get? e.1 = some e.2) ∧
    v.differ = u.differ.map (pairs.foldl fun d e ↦ d.pair e.1 e.2) ∧
    v.sharedPairs = u.sharedPairs.putEach pairs ∧ v.isRemoved = u.isRemoved

/-- A unit that was told nothing. -/
theorem KnowsAs.isTold {u v : UnitNode γ} (h : v.KnowsAs u) (r : Renaming) : u.IsTold v r :=
  ⟨[], List.forall_mem_nil _, h.differ.trans Option.map_id'.symm, h.sharedPairs, h.isRemoved⟩

/-- What is not about counterparts may change afterwards. -/
theorem IsTold.of_knowsAs {u v w : UnitNode γ} {r : Renaming} (h : u.IsTold v r)
    (hknows : w.KnowsAs v) : u.IsTold w r := by
  obtain ⟨pairs, hpairs, hdiffer, hshared, hremoved⟩ := h
  exact ⟨pairs, hpairs, hknows.differ.trans hdiffer, hknows.sharedPairs.trans hshared,
    hknows.isRemoved.trans hremoved⟩

/-- The counterpart that can be found in a unit: it was told, or comparisons spread to it. -/
def CanFind (u : UnitNode γ) (d : Differ) (graph : ScopeGraph) (labels : List Label) (r : Renaming)
    (s b : Scope) : Prop :=
  u.told? s = some (some b) ∨ u.told? s = none ∧ d.Finds graph labels r s b

end UnitNode

namespace Turn

variable {t t' : Turn γ} {d : Differ} {graph : ScopeGraph} {labels : List Label} {r : Renaming}
  {taken : List Scope} {s : Scope} {a a' : Option Scope}

/-! ## One step of a search -/

/-- The turn with another differ. -/
def withDiffer (t : Turn γ) (d : Differ) : Turn γ := t.edit fun u ↦ { u with differ := some d }

@[simp] theorem differ_withDiffer : (t.withDiffer d).unit.differ = some d := rfl

@[simp] theorem wholeGraph_withDiffer : (t.withDiffer d).unit.wholeGraph = t.unit.wholeGraph := rfl

@[simp] theorem told?_withDiffer : (t.withDiffer d).unit.told? s = t.unit.told? s := rfl

theorem matchStep_of_told? (h : t.unit.told? s = some a) : t.matchStep s = (.done a, t) := by
  rw [UnitNode.told?] at h
  rw [matchStep]
  cases hshared : t.unit.sharedPairs.get? s with
  | some current =>
    rw [hshared] at h
    obtain rfl := Option.some.inj h
    rfl
  | none =>
    simp only [hshared] at h
    split at h
    · obtain rfl := Option.some.inj h
      rename_i hremoved
      exact if_pos hremoved
    · contradiction

theorem matchStep_of_differ (htold : t.unit.told? s = none) (hd : t.unit.differ = some d) :
    t.matchStep s = match d.pairs.get? s with
      | some b => (.done (some b), t)
      | none => ((d.nextUnexplored.1.map .explore).getD (.done none), t.withDiffer d.nextUnexplored.2) := by
  rw [UnitNode.told?] at htold
  rw [matchStep]
  cases hshared : t.unit.sharedPairs.get? s with
  | some current =>
    rw [hshared] at htold
    exact absurd htold (by simp)
  | none =>
    simp only [hshared] at htold
    split at htold
    · exact absurd htold (by simp)
    · rename_i hremoved
      simp only [hremoved, hd, Differ.matchOf?]
      rfl

/-- What a step of a search does depends on the unit only. -/
theorem matchStep_of_unit (h : t'.unit = t.unit) (s : Scope) :
    t'.matchStep s = ((t.matchStep s).1, { t' with unit := (t.matchStep s).2.unit }) := by
  rw [matchStep, matchStep, h]
  dsimp only
  split
  · rw [← h]
  · split
    · rw [← h]
    · split
      · split
        · rw [← h]
        · rw [edit, edit, h]
      · split <;> rw [← h]

/-- A step of a search changes nothing but the differ. -/
theorem exists_differ_matchStep (t : Turn γ) (s : Scope) :
    ∃ x, (t.matchStep s).2.unit = { t.unit with differ := x } := by
  rw [matchStep]
  dsimp only
  split
  · exact ⟨_, rfl⟩
  · split
    · exact ⟨_, rfl⟩
    · split
      · split <;> exact ⟨_, rfl⟩
      · split <;> exact ⟨_, rfl⟩

/-- **How a search goes on.** The unit was told the counterpart, or the differ knows it, or a scope is
taken from the queue, or the queue is empty. -/
theorem matchStep_cases (hd : t.unit.differ = some d) (s : Scope) :
    (∃ a, t.unit.told? s = some a ∧ t.matchStep s = (.done a, t)) ∨
    t.unit.told? s = none ∧
      ((∃ b, d.pairs.get? s = some b ∧ t.matchStep s = (.done (some b), t)) ∨
      d.pairs.get? s = none ∧
        ((∃ b d', d.nextUnexplored = (some b, d') ∧ t.matchStep s = (.explore b, t.withDiffer d')) ∨
        ∃ d', d.nextUnexplored = (none, d') ∧ t.matchStep s = (.done none, t.withDiffer d'))) := by
  cases htold : t.unit.told? s with
  | some a => exact .inl ⟨a, rfl, matchStep_of_told? htold⟩
  | none =>
    rw [matchStep_of_differ htold hd]
    refine .inr ⟨rfl, ?_⟩
    cases hs : d.pairs.get? s with
    | some b => exact .inl ⟨b, rfl, rfl⟩
    | none =>
      refine .inr ⟨rfl, ?_⟩
      obtain ⟨next, d'⟩ := d.nextUnexplored
      cases next with
      | some b => exact .inl ⟨b, d', rfl, rfl⟩
      | none => exact .inr ⟨d', rfl, rfl⟩

/-- What a comparison does depends on the unit only. -/
theorem diffScope_of_unit (h : t'.unit = t.unit) (s : Scope) (labels : List Label) :
    t'.diffScope s labels =
      ((t.diffScope s labels).1, { t' with unit := (t.diffScope s labels).2.unit }) := by
  rw [diffScope, diffScope, h]
  split
  · rw [← h]
  · simp only [edit, h]

/-- A comparison changes nothing but the differ. -/
theorem exists_differ_diffScope (t : Turn γ) (s : Scope) (labels : List Label) :
    ∃ x, (t.diffScope s labels).2.unit = { t.unit with differ := x } := by
  rw [diffScope]
  split <;> exact ⟨_, rfl⟩

theorem diffScope_of_differ (hd : t.unit.differ = some d) (s : Scope) (labels : List Label) :
    t.diffScope s labels = ((d.diff s t.unit.wholeGraph labels).1,
      t.withDiffer (d.diff s t.unit.wholeGraph labels).2) := by
  rw [diffScope, hd]
  rfl

/-- A step of a search takes at most one scope from the queue, and tells which. -/
theorem tracks_matchStep (hd : t.unit.differ = some d) (h : d.Tracks graph labels r taken)
    (s : Scope) :
    ∃ d' taken', (t.matchStep s).2.unit = { t.unit with differ := some d' } ∧
      d'.Tracks graph labels r taken' ∧ d.Later d' ∧
      ∀ b ∈ taken', b ∈ taken ∨ (t.matchStep s).1 = .explore b := by
  have hstays : t.unit = { t.unit with differ := some d } := by rw [← hd]
  obtain ⟨a, -, heq⟩ | ⟨-, ⟨b, -, heq⟩ | ⟨-, ⟨b, d', hnext, heq⟩ | ⟨d', hnext, heq⟩⟩⟩ :=
    matchStep_cases hd s
  · rw [heq]
    exact ⟨d, taken, hstays, h, .refl d, fun b hb ↦ .inl hb⟩
  · rw [heq]
    exact ⟨d, taken, hstays, h, .refl d, fun b hb ↦ .inl hb⟩
  · obtain ⟨htracks, hlater, -⟩ := h.take hnext
    rw [heq]
    refine ⟨d', b :: taken, rfl, htracks, hlater, fun b' hb ↦ ?_⟩
    rcases List.mem_cons.1 hb with rfl | hb
    · exact .inr rfl
    · exact .inl hb
  · obtain ⟨htracks, hlater, -⟩ := h.drain hnext
    rw [heq]
    exact ⟨d', taken, rfl, htracks, hlater, fun b hb ↦ .inl hb⟩

/-- Only a unit that is not gone tells to compare a scope. -/
theorem isRemoved_of_explore {b : Scope} (h : (t.matchStep s).1 = .explore b) :
    t.unit.isRemoved = false := by
  rw [matchStep] at h
  split at h
  · exact absurd h nofun
  · split at h
    · exact absurd h nofun
    · rename_i hremoved
      exact Bool.eq_false_iff.2 hremoved

/-- A comparison whose outcome is decided keeps track of everything. -/
theorem tracks_diffScope (hd : t.unit.differ = some d) (h : d.Tracks graph labels r taken)
    (hreads : t.unit.wholeGraph.ReadsAs graph s labels)
    (hr : ∀ p, d.previousOf? s = some p → r.get? p = some s) :
    ∃ d', (t.diffScope s labels).2.unit = { t.unit with differ := some d' } ∧
      d'.Tracks graph labels r taken ∧ d.Later d' := by
  rw [diffScope_of_differ hd]
  exact ⟨_, rfl, h.diff hreads hr⟩

/-- Handing scopes to a sub-unit tells the unit their counterparts. -/
theorem isTold_pairRoots {pairs : List (Scope × Scope)}
    (hr : ∀ e ∈ pairs, t.unit.owns e.2 = true → r.get? e.1 = some e.2) :
    t.unit.IsTold (t.pairRoots pairs).unit r := by
  refine ⟨pairs.filter fun e ↦ t.unit.owns e.2, fun e he ↦ ?_, rfl, rfl, rfl⟩
  rw [List.mem_filter] at he
  exact hr e he.1 he.2

theorem knowsAs_handRoots (child : UnitId) (roots : List Scope) (t : Turn γ) :
    (roots.foldl (handRoot child) t).unit.KnowsAs t.unit := by
  induction roots generalizing t with
  | nil => exact .refl _
  | cons root roots ih =>
    have hroot : (handRoot child t root).unit.KnowsAs t.unit := by
      rw [handRoot]
      split <;> exact ⟨rfl, rfl, rfl⟩
    exact (ih _).trans hroot

/-- Adding a sub-unit tells the unit the counterparts of the scopes that the sub-unit of the same
name had in the previous run, and nothing if it is refused. -/
theorem isTold_addSubUnit (name : String) (kind : UnitKind γ) {roots : List Scope} (changed : Bool)
    (hr : ∀ e ∈ (((t.unit.previous.bind fun p ↦ p.sub? name).map Report.roots).getD []).zip roots,
      t.unit.owns e.2 = true → r.get? e.1 = some e.2) :
    t.unit.IsTold (t.addSubUnit name kind roots changed).2.unit r := by
  unfold addSubUnit
  extract_lets u child previous before paired node node' handed waiting started
  split
  · exact (UnitNode.KnowsAs.refl _).isTold r
  · split
    · exact (UnitNode.KnowsAs.refl _).isTold r
    · have hpaired : t.unit.IsTold paired.unit r := isTold_pairRoots hr
      have hhanded : handed.unit.KnowsAs paired.unit := knowsAs_handRoots child roots paired
      exact hpaired.of_knowsAs ⟨hhanded.differ, hhanded.sharedPairs, hhanded.isRemoved⟩

/-! ## A search that nobody interferes with -/

/-- The answer of a search of which nothing comes in between: scopes are compared as they are taken. -/
inductive Searches (labels : List Label) (s : Scope) : Turn γ → Option Scope → Prop where
  /-- There is an answer. -/
  | done {t t' : Turn γ} {a : Option Scope} (h : t.matchStep s = (.done a, t')) :
      Searches labels s t a
  /-- The scope that was taken is compared, and the search goes on. -/
  | explore {t t' : Turn γ} {b : Scope} {a : Option Scope} (h : t.matchStep s = (.explore b, t'))
      (hrest : Searches labels s (t'.diffScope b labels).2 a) : Searches labels s t a

/-- A search has one answer only. -/
theorem Searches.unique (h : t.Searches labels s a) (h' : t.Searches labels s a') : a = a' := by
  induction h with
  | done heq =>
    cases h' with
    | done heq' => exact MatchStep.done.inj (Prod.mk.inj (heq.symm.trans heq')).1
    | explore heq' _ => exact absurd (Prod.mk.inj (heq.symm.trans heq')).1 nofun
  | explore heq _ ih =>
    cases h' with
    | done heq' => exact absurd (Prod.mk.inj (heq.symm.trans heq')).1 nofun
    | explore heq' hrest' =>
      obtain ⟨hnext, rfl⟩ := Prod.mk.inj (heq.symm.trans heq')
      obtain rfl := MatchStep.explore.inj hnext
      exact ih hrest'

private theorem exists_searches_of_not_told (hd : t.unit.differ = some d)
    (htold : t.unit.told? s = none) (htracks : d.Tracks t.unit.wholeGraph labels r []) :
    ∃ a, t.Searches labels s a ∧ ∀ b, a = some b ↔ d.Finds t.unit.wholeGraph labels r s b := by
  -- With every scope that is taken there are fewer to be compared.
  induction hn : d.unexplored r using Nat.strongRecOn generalizing t d with
  | ind n ih =>
    obtain ⟨a, htold', -⟩ | ⟨-, ⟨b, hb, heq⟩ | ⟨hs, ⟨b, d', hnext, heq⟩ | ⟨d', hnext, heq⟩⟩⟩ :=
      matchStep_cases hd s
    · exact absurd (htold.symm.trans htold') nofun
    · refine ⟨some b, .done heq, fun b' ↦ ?_⟩
      constructor
      · rintro ⟨⟩
        exact Differ.Leads.refl.finds hb
      · intro hfinds
        exact (htracks.decided.le hb).symm.trans (hfinds.get? htracks.decided.le)
    · obtain ⟨htracks', hlater, hpairs, ⟨p, hp⟩, hrelevant, hnot⟩ := htracks.take hnext
      have hp' : d'.pairs.get? p = some b := hpairs ▸ hp
      have hr : r.get? p = some b := htracks.decided.le hp
      have hreads := ScopeGraph.ReadsAs.refl t.unit.wholeGraph b labels
      obtain ⟨htracks'', hlater', hcompared, -⟩ :=
        htracks'.diff_of_previousOf? hreads hnot (Differ.previousOf?_of_get? hp') hr
      have hless := (hlater.trans hlater').unexplored_lt hr
        (fun hcompared ↦ hnot (hlater.compared hcompared)) hcompared
      obtain ⟨a, hsearches, ha⟩ := ih _ (hn ▸ hless)
        (t := (t.withDiffer d').withDiffer (d'.diff b t.unit.wholeGraph labels).2)
        rfl htold (htracks''.forget hcompared) rfl
      refine ⟨a, .explore heq ?_, fun b' ↦ ?_⟩
      · rwa [diffScope_of_differ rfl]
      · rw [ha, wholeGraph_withDiffer, wholeGraph_withDiffer,
          htracks'.finds_diff_iff hreads ((hlater.isRelevant b).trans hrelevant) hnot hp']
        constructor
        · rintro ⟨x, y, hxy, hleads⟩
          exact (hlater.leads_iff.1 hleads).finds (hpairs ▸ hxy)
        · rintro ⟨x, y, hxy, hleads⟩
          exact (hlater.leads_iff.2 hleads).finds (hpairs ▸ hxy)
    · obtain ⟨-, -, hidle⟩ := htracks.drain hnext
      refine ⟨none, .done heq, fun b ↦ ?_⟩
      constructor
      · exact nofun
      · rintro ⟨x, y, hxy, hleads⟩
        obtain ⟨_, _, hmem, -⟩ := htracks.exists_taken hidle hxy hleads (by simp [hs])
        exact absurd hmem List.not_mem_nil

/-- **A search alone finds what can be found.** It ends, and its answer is the counterpart that the
unit was told or to which comparisons spread from the pairs that are known when it begins. -/
theorem exists_searches (hd : t.unit.differ = some d)
    (htracks : d.Tracks t.unit.wholeGraph labels r []) (s : Scope) :
    ∃ a, t.Searches labels s a ∧
      ∀ b, a = some b ↔ t.unit.CanFind d t.unit.wholeGraph labels r s b := by
  cases htold : t.unit.told? s with
  | some a =>
    refine ⟨a, .done (matchStep_of_told? htold), fun b ↦ ?_⟩
    simp [UnitNode.CanFind, htold]
  | none =>
    obtain ⟨a, hsearches, ha⟩ := exists_searches_of_not_told hd htold htracks
    refine ⟨a, hsearches, fun b ↦ (ha b).trans ?_⟩
    simp [UnitNode.CanFind, htold]

end Turn

end ScopeGraphs
