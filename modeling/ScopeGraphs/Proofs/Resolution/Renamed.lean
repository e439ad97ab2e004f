import Mathlib.Data.Set.Function
import ScopeGraphs.Proofs.Contents
import ScopeGraphs.Proofs.Resolution.Verdicts

/-!
# Queries on renamed graphs

Resolution commutes with renaming: from the renamed source in the renamed graph, a query gets the
renamed answer (`ScopeGraph.resolve_rename`). That is why an answer recorded in a previous run can
be used again with its scopes renamed, instead of being resolved anew.

The renaming has to keep the scopes of the graph and the source apart from each other. Scopes that
are only mentioned inside data may become one, so different data may become the same. That does no
harm because the datum of a resolved path is determined by the scope it leads to.

## Two runs side by side

The two resolutions do not go through the scopes in the same order, since a renamed graph lists its
edges in the order of the new scopes. So they are compared as sets throughout. `View.Renames` says
what the two graphs have to do with each other as far as a resolution reads them, and each function
of the resolver is shown to commute with the renaming from the environments of the extended paths
upwards.
-/

namespace ScopeGraphs

variable {p : Renaming} {U : Set Scope}

/-! ## Renamed paths -/

namespace Path

variable {path q : Path}

theorem scopes_rename (p : Renaming) (path : Path) :
    (path.rename p).scopes = path.scopes.map p.apply := by
  simp [rename, scopes, Function.comp_def]

theorem target_rename (p : Renaming) (path : Path) :
    (path.rename p).target = p.apply path.target := by
  obtain ⟨s, steps⟩ := path
  induction steps generalizing s with
  | nil => rfl
  | cons e steps ih =>
    rw [target_cons, ← ih e.2, rename, List.map_cons, target_cons]
    rfl

/-- A renamed path takes the steps that the path takes. -/
theorem step?_rename (hinj : Set.InjOn p.apply U) (hpath : ∀ s ∈ path.scopes, s ∈ U) {l : Label}
    {t : Scope} (ht : t ∈ U) :
    (path.rename p).step? l (p.apply t) = (path.step? l t).map (rename p) := by
  have hmem : p.apply t ∈ (path.rename p).scopes ↔ t ∈ path.scopes := by
    rw [scopes_rename, List.mem_map]
    constructor
    · rintro ⟨s, hs, heq⟩
      exact hinj (hpath s hs) ht heq ▸ hs
    · intro h
      exact ⟨t, h, rfl⟩
  rw [step?, step?, contains, contains]
  simp only [hmem, decide_eq_true_eq]
  split
  · rfl
  · simp [rename]

theorem rename_injOn (hinj : Set.InjOn p.apply U) :
    Set.InjOn (rename p) {path | ∀ s ∈ path.scopes, s ∈ U} := by
  let back := Function.invFunOn p.apply U
  have hback : ∀ s ∈ U, back (p.apply s) = s := fun s hs ↦ hinj.leftInvOn_invFunOn hs
  have hleft : Set.LeftInvOn
      (fun q : Path ↦ (⟨back q.source, q.steps.map fun e ↦ (e.1, back e.2)⟩ : Path)) (rename p)
      {path | ∀ s ∈ path.scopes, s ∈ U} := by
    intro path hpath
    have hsteps : path.steps.map (fun e ↦ (e.1, back (p.apply e.2))) = path.steps := by
      rw [List.map_congr_left (g := id), List.map_id]
      intro e he
      rw [hback e.2 (hpath _ (List.mem_cons_of_mem _ (List.mem_map_of_mem he)))]
      rfl
    simp [rename, hsteps, Function.comp_def, hback _ (hpath _ List.mem_cons_self)]
  exact hleft.injOn

end Path

/-! ## Renamed graphs -/

namespace ScopeGraph

variable {g : ScopeGraph} {s : Scope}

/-- The targets in a renamed graph are the renamed targets. -/
theorem mem_targets_rename (hinj : Set.InjOn p.apply U) (hscopes : ∀ s ∈ g.scopes, s ∈ U)
    (hs : s ∈ U) {l : Label} {t' : Scope} :
    t' ∈ (g.rename p).targets (p.apply s) l ↔ ∃ t ∈ g.targets s l, p.apply t = t' := by
  simp only [mem_targets, mem_edges_rename]
  constructor
  · rintro ⟨⟨s', l', t⟩, he, heq⟩
    obtain ⟨hs', rfl, rfl⟩ := Edge.mk.inj heq
    obtain rfl := hinj (hscopes s' (mem_scopes.2 (.inl ⟨_, he, .inl rfl⟩))) hs hs'
    exact ⟨t, he, rfl⟩
  · rintro ⟨t, he, rfl⟩
    exact ⟨_, he, rfl⟩

/-- The datum in a renamed graph is the renamed datum. -/
theorem datum?_rename (hinj : Set.InjOn p.apply U) (hscopes : ∀ s ∈ g.scopes, s ∈ U)
    (hs : s ∈ U) : (g.rename p).datum? (p.apply s) = (g.datum? s).map (Datum.rename p) := by
  refine SortedMap.getElem?_ofList_map g.data p.apply (Datum.rename p) ?_
  intro e he heq
  refine hinj (hscopes e.1 (mem_scopes.2 (.inr ?_))) hs heq
  rw [← Std.ExtTreeMap.mem_keys, ← Std.ExtTreeMap.map_fst_toList_eq_keys]
  exact List.mem_map_of_mem he

theorem mem_scopes_rename : s ∈ (g.rename p).scopes ↔ ∃ t ∈ g.scopes, p.apply t = s := by
  have hdata : s ∈ (g.rename p).data ↔ ∃ t ∈ g.data, p.apply t = s := by
    rw [rename, of, SortedMap.ofList, Std.ExtTreeMap.mem_ofList, List.contains_eq_mem,
      decide_eq_true_eq, List.map_map]
    simp only [← Std.ExtTreeMap.mem_keys, ← Std.ExtTreeMap.map_fst_toList_eq_keys, List.mem_map,
      exists_exists_and_eq_and, Function.comp_apply]
  rw [mem_scopes, hdata]
  simp only [mem_scopes, mem_edges_rename, exists_exists_and_eq_and]
  constructor
  · rintro (⟨e, he, rfl | rfl⟩ | ⟨t, ht, rfl⟩)
    · exact ⟨e.source, .inl ⟨e, he, .inl rfl⟩, rfl⟩
    · exact ⟨e.target, .inl ⟨e, he, .inr rfl⟩, rfl⟩
    · exact ⟨t, .inr ht, rfl⟩
  · rintro ⟨t, ⟨e, he, rfl | rfl⟩ | ht, rfl⟩
    · exact .inl ⟨e, he, .inl rfl⟩
    · exact .inl ⟨e, he, .inr rfl⟩
    · exact .inr ⟨t, ht, rfl⟩

/-- A renamed graph has as many scopes, unless two of them become one. -/
theorem size_scopes_rename (hinj : Set.InjOn p.apply U) (hscopes : ∀ s ∈ g.scopes, s ∈ U) :
    (g.rename p).scopes.size = g.scopes.size := by
  have hnodup : (g.scopes.toList.map p.apply).Nodup := by
    refine List.Nodup.map_on ?_ g.scopes.nodup_toList
    intro a ha b hb hab
    exact hinj (hscopes a (Std.ExtTreeSet.mem_toList.1 ha))
      (hscopes b (Std.ExtTreeSet.mem_toList.1 hb)) hab
  rw [SortedSet.size_eq_length hnodup, List.length_map, Std.ExtTreeSet.length_toList]
  intro s
  rw [mem_scopes_rename, List.mem_map]
  simp only [Std.ExtTreeSet.mem_toList]

end ScopeGraph

/-! ## Renamed views -/

/-- Whether a resolved path stays among some scopes and has the datum of the scope it leads to. -/
structure ResolvedPath.Within (f : ResolvedPath) (U : Set Scope) (datum? : Scope → Option Datum) :
    Prop where
  scopes : ∀ s ∈ f.path.scopes, s ∈ U
  datum : datum? f.path.target = some f.datum

/-- On paths that know their data it suffices to keep scopes apart, even if data become the
same. -/
theorem ResolvedPath.rename_injOn (hinj : Set.InjOn p.apply U) {datum? : Scope → Option Datum} :
    Set.InjOn (rename p) {f | f.Within U datum?} := by
  rintro ⟨path, d⟩ hf ⟨path', d'⟩ hf' heq
  obtain ⟨hpath, -⟩ := mk.inj heq
  obtain rfl := Path.rename_injOn hinj hf.scopes hf'.scopes hpath
  obtain rfl : d = d' := Option.some.inj (hf.datum.symm.trans hf'.datum)
  rfl

namespace View

/-- The second view is the first one with scopes renamed, as far as it can be read from the given
scopes. -/
structure Renames (v w : View) (p : Renaming) (U : Set Scope) : Prop where
  injOn : Set.InjOn p.apply U
  labels : w.labels = v.labels
  preference : w.preference = v.preference
  coversAll : w.coversAll = v.coversAll
  within : ∀ {s l t}, t ∈ v.targets s l → t ∈ U
  targets : ∀ {s l t'}, s ∈ U →
    (t' ∈ w.targets (p.apply s) l ↔ ∃ t ∈ v.targets s l, p.apply t = t')
  datum : ∀ {s}, s ∈ U → w.datum? (p.apply s) = (v.datum? s).map (Datum.rename p)
  accepts : ∀ {s d}, v.datum? s = some d → w.accepts (d.rename p) = v.accepts d
  covers : ∀ {s s' d d'}, v.datum? s = some d → v.datum? s' = some d' →
    w.covers (d.rename p) (d'.rename p) = v.covers d d'

variable {v w : View} {path : Path} {pat : Pattern} {f : ResolvedPath}
  {descend descend' : Path → Pattern → Env} {slots : List Slot}

/-- What is found from a path among some scopes stays among them. -/
theorem Finds.within (hU : ∀ {s l t}, t ∈ v.targets s l → t ∈ U) (hf : v.Finds path pat f)
    (hpath : ∀ s ∈ path.scopes, s ∈ U) : f.Within U v.datum? := by
  induction hf with
  | here _ hd _ => exact ⟨hpath, hd⟩
  | there _ _ ht hq _ ih =>
    refine ih ?_
    rw [Path.scopes_of_step? hq, List.forall_mem_append]
    exact ⟨hpath, List.forall_mem_singleton.2 (hU ht)⟩

namespace Renames

/-- Shadowing commutes with renaming. -/
theorem shadow (h : v.Renames w p U) {e c : Env} (he : ∀ f, e.Judges f → f.Within U v.datum?)
    (hc : ∀ f, c.Judges f → f.Within U v.datum?) :
    (Resolver.shadow (m := Id) w.covers (e.rename p) (c.rename p)).run =
      (Resolver.shadow (m := Id) v.covers e c).run.rename p := by
  have hcovers : ∀ f ∈ c.accepted, ∀ f' ∈ e.accepted,
      w.covers (f.rename p).datum (f'.rename p).datum = v.covers f.datum f'.datum :=
    fun f hf f' hf' ↦ h.covers (hc f (.inl hf)).datum (he f' (.inl hf')).datum
  have hmem : ∀ f ∈ c.accepted, f.rename p ∈ (e.rename p).accepted ↔ f ∈ e.accepted := by
    intro f hf
    rw [Env.mem_accepted_rename]
    constructor
    · rintro ⟨f', hf', heq⟩
      exact ResolvedPath.rename_injOn h.injOn (he f' (.inl hf')) (hc f (.inl hf)) heq ▸ hf'
    · intro hf
      exact ⟨f, hf, rfl⟩
  refine Env.ext_mem (fun r ↦ ?_) fun r ↦ ?_
  · rw [mem_accepted_shadow, Env.mem_accepted_rename, Env.mem_accepted_rename,
      Env.mem_accepted_rename]
    simp only [mem_accepted_shadow]
    constructor
    · rintro (⟨f, hf, rfl⟩ | ⟨⟨f, hf, rfl⟩, hno⟩)
      · exact ⟨f, .inl hf, rfl⟩
      · refine ⟨f, .inr ⟨hf, fun f' hf' ↦ ?_⟩, rfl⟩
        rw [← hcovers f hf f' hf']
        exact hno _ (Env.mem_accepted_rename.2 ⟨f', hf', rfl⟩)
    · rintro ⟨f, hf | ⟨hf, hno⟩, rfl⟩
      · exact .inl ⟨f, hf, rfl⟩
      · refine .inr ⟨⟨f, hf, rfl⟩, ?_⟩
        intro r' hr'
        obtain ⟨f', hf', rfl⟩ := Env.mem_accepted_rename.1 hr'
        rw [hcovers f hf f' hf', hno f' hf']
  · rw [mem_rejected_shadow, Env.mem_rejected_rename, Env.mem_rejected_rename,
      Env.mem_accepted_rename, Env.mem_rejected_rename]
    simp only [mem_rejected_shadow]
    constructor
    · rintro (⟨f, hf, rfl⟩ | ⟨f, hf, rfl⟩ | ⟨⟨f, hf, rfl⟩, hnot, r', hr', hcov⟩)
      · exact ⟨f, .inl hf, rfl⟩
      · exact ⟨f, .inr (.inl hf), rfl⟩
      · obtain ⟨f', hf', rfl⟩ := Env.mem_accepted_rename.1 hr'
        rw [hcovers f hf f' hf'] at hcov
        exact ⟨f, .inr (.inr ⟨hf, mt (hmem f hf).2 hnot, f', hf', hcov⟩), rfl⟩
    · rintro ⟨f, hf | hf | ⟨hf, hnot, f', hf', hcov⟩, rfl⟩
      · exact .inl ⟨f, hf, rfl⟩
      · exact .inr (.inl ⟨f, hf, rfl⟩)
      · refine .inr (.inr ⟨⟨f, hf, rfl⟩, mt (hmem f hf).1 hnot, f'.rename p,
          Env.mem_accepted_rename.2 ⟨f', hf', rfl⟩, ?_⟩)
        rw [hcovers f hf f' hf', hcov]

/-- What is resolved through a slot commutes with renaming if the environments of the extended paths
do. -/
theorem ofSlot (h : v.Renames w p U) (hpath : ∀ s ∈ path.scopes, s ∈ U)
    (hdescend : ∀ {l t q next}, t ∈ v.targets path.target l → path.step? l t = some q →
      descend' (q.rename p) next = (descend q next).rename p) (a : Slot) :
    w.ofSlot descend' (path.rename p) pat a = (v.ofSlot descend path pat a).rename p := by
  have htarget : path.target ∈ U := hpath _ path.target_mem_scopes
  cases a with
  | datum =>
    rw [ofSlot_datum, ofSlot_datum, Path.target_rename, h.datum htarget]
    cases hd : v.datum? path.target with
    | none => simp
    | some d =>
      simp only [Option.map_some, h.accepts hd]
      split
      · rw [Env.rename_single]
        rfl
      · simp
  | edge l =>
    cases hp : pat.step? l with
    | none => rw [ofSlot_edge_of_none hp, ofSlot_edge_of_none hp, Env.rename_empty]
    | some next =>
      rw [ofSlot_edge_of_some hp, ofSlot_edge_of_some hp, Env.rename_unions, Path.target_rename]
      refine Env.unions_congr fun e ↦ ?_
      simp only [List.mem_map, List.mem_filterMap, exists_exists_and_eq_and, h.targets htarget]
      constructor
      · rintro ⟨q', ⟨t, ht, hq'⟩, rfl⟩
        rw [Path.step?_rename h.injOn hpath (h.within ht)] at hq'
        obtain ⟨q, hq, rfl⟩ := Option.map_eq_some_iff.1 hq'
        exact ⟨q, ⟨t, ht, hq⟩, (hdescend ht hq).symm⟩
      · rintro ⟨q, ⟨t, ht, hq⟩, rfl⟩
        refine ⟨q.rename p, ⟨t, ht, ?_⟩, hdescend ht hq⟩
        rw [Path.step?_rename h.injOn hpath (h.within ht), hq, Option.map_some]

/-- So does what is resolved through several slots. -/
theorem layered (h : v.Renames w p U)
    (hslot : ∀ a, w.ofSlot descend' (path.rename p) pat a =
      (v.ofSlot descend path pat a).rename p)
    (hwithin : ∀ a f, (v.ofSlot descend path pat a).Judges f → f.Within U v.datum?) (n : Nat) :
    w.layered descend' (path.rename p) pat n slots =
      (v.layered descend path pat n slots).rename p := by
  induction n generalizing slots with
  | zero => exact (Env.rename_empty p).symm
  | succ n ih =>
    rw [layered_succ, layered_succ, Env.rename_unions, List.map_map, h.preference, h.coversAll]
    refine congrArg Env.unions (List.map_congr_left fun a _ ↦ ?_)
    rw [Function.comp_apply, ih, Env.isEmpty_rename]
    split
    · rfl
    · rw [hslot]
      refine h.shadow ?_ (hwithin a)
      intro f hf
      obtain ⟨b, -, hf⟩ := judges_layered hf
      exact hwithin b f hf

/-- **Resolution commutes with renaming**, however deep it goes. -/
theorem env (h : v.Renames w p U) (n : Nat) (path : Path) (hpath : ∀ s ∈ path.scopes, s ∈ U)
    (pat : Pattern) : w.env n (path.rename p) pat = (v.env n path pat).rename p := by
  induction n generalizing path pat with
  | zero => exact (Env.rename_empty p).symm
  | succ n ih =>
    have hstep : ∀ {l t q}, t ∈ v.targets path.target l → path.step? l t = some q →
        ∀ s ∈ q.scopes, s ∈ U := by
      intro l t q ht hq
      rw [Path.scopes_of_step? hq, List.forall_mem_append]
      exact ⟨hpath, List.forall_mem_singleton.2 (h.within ht)⟩
    rw [env_succ, env_succ, h.labels]
    refine h.layered (h.ofSlot hpath fun ht hq ↦ ih _ (hstep ht hq) _) ?_ _
    intro a f hf
    cases a with
    | datum =>
      obtain ⟨d, hd, -, rfl⟩ :=
        mem_accepted_ofSlot_datum.1 (hf.resolve_right not_mem_rejected_ofSlot_datum)
      exact ⟨hpath, hd⟩
    | edge l =>
      obtain ⟨next, -, t, ht, q, hq, hf⟩ := judges_ofSlot_edge.1 hf
      exact (Finds.of_judges hf).within h.within (hstep ht hq)

end Renames

end View

/-! ## The answer in a renamed graph -/

namespace ScopeGraph

/-- **Resolution commutes with renaming.** Let a renaming keep the scopes of a graph and the source
apart from each other, and let the rules of a query not tell data of the graph from their renamed
forms. Then the query has in the renamed graph, from the renamed source, the answer that it has in
the graph with all its scopes renamed: the same paths are accepted, and the same are rejected. -/
theorem resolve_rename (g : ScopeGraph) (labels : List Label) (source : Scope) (q : QueryParams)
    (p : Renaming) (accepts : Datum → Bool) (covers : Datum → Datum → Bool)
    (hinj : Set.InjOn p.apply {s | s = source ∨ s ∈ g.scopes})
    (hacc : ∀ d, q.dataRule.holds noQueries d = .ok (accepts d))
    (hcov : ∀ d₁ d₂, q.coverRule.covers noQueries d₁ d₂ = .ok (covers d₁ d₂))
    (hacc_rename : ∀ s d, g.datum? s = some d → accepts (d.rename p) = accepts d)
    (hcov_rename : ∀ s₁ s₂ d₁ d₂, g.datum? s₁ = some d₁ → g.datum? s₂ = some d₂ →
      covers (d₁.rename p) (d₂.rename p) = covers d₁ d₂) :
    ∃ env, g.resolve labels source q = .ok env ∧
      (g.rename p).resolve labels (p.apply source) q = .ok (env.rename p) := by
  have hscopes : ∀ s ∈ g.scopes, s ∈ {s | s = source ∨ s ∈ g.scopes} := fun _ ↦ .inr
  have hrenames : (g.view labels q accepts covers).Renames ((g.rename p).view labels q accepts covers)
      p {s | s = source ∨ s ∈ g.scopes} :=
    { injOn := hinj
      labels := rfl
      preference := rfl
      coversAll := rfl
      within := fun ht ↦ .inr (mem_scopes_of_mem_targets ht)
      targets := fun hs ↦ mem_targets_rename hinj hscopes hs
      datum := fun hs ↦ datum?_rename hinj hscopes hs
      accepts := fun hd ↦ hacc_rename _ _ hd
      covers := fun hd₁ hd₂ ↦ hcov_rename _ _ _ _ hd₁ hd₂ }
  refine ⟨_, envOf_eq_ok hacc hcov (.start source), ?_⟩
  have hnow : (g.rename p).resolve labels (p.apply source) q =
      .ok (((g.rename p).view labels q accepts covers).env ((g.rename p).scopes.size + 1)
        (.start (p.apply source)) q.pattern) := envOf_eq_ok hacc hcov _
  rw [hnow, size_scopes_rename hinj hscopes]
  refine congrArg Except.ok (hrenames.env (g.scopes.size + 1) (.start source) ?_ q.pattern)
  rw [Path.scopes_start, List.forall_mem_singleton]
  exact .inl rfl

/-- A scope of a unit with two declarations. -/
private def scopeCalled (name : String) : Scope := ⟨⟨"u"⟩, name⟩

/-- An import of one declaration and another declaration nearby, both pointing at the same scope. -/
private def twoDeclarations : ScopeGraph :=
  .of [⟨scopeCalled "s", "I", scopeCalled "a"⟩, ⟨scopeCalled "a", "P", scopeCalled "b"⟩,
      ⟨scopeCalled "s", "P", scopeCalled "c"⟩]
    [(scopeCalled "b", .scope (scopeCalled "c")), (scopeCalled "c", .scope (scopeCalled "c"))]

/-- The imported unit and the scope pointed at get new names, and the order of scopes changes. -/
private def newNames : Renaming :=
  (Renaming.identity.put (scopeCalled "a") (scopeCalled "z")).put (scopeCalled "c") (scopeCalled "a")

/-- The import hides the declaration nearby, under the old names as well as under the new ones. -/
theorem resolve_rename_twoDeclarations :
    let q : QueryParams := .mk (.ofAutomaton (.of [(0, "I", 0), (0, "P", 0)] [0])) .lexical .any
      (.test "same" fun a b ↦ a = b)
    Set.InjOn newNames.apply {s | s = scopeCalled "s" ∨ s ∈ twoDeclarations.scopes} ∧
      (∀ d, q.dataRule.holds noQueries d = .ok true) ∧
      (∀ d₁ d₂, q.coverRule.covers noQueries d₁ d₂ = .ok (decide (d₁ = d₂))) ∧
      (∀ s d, twoDeclarations.datum? s = some d → true = true) ∧
      (∀ s₁ s₂ d₁ d₂, twoDeclarations.datum? s₁ = some d₁ → twoDeclarations.datum? s₂ = some d₂ →
        decide (d₁.rename newNames = d₂.rename newNames) = decide (d₁ = d₂)) ∧
      ∃ env, twoDeclarations.resolve ["I", "P"] (scopeCalled "s") q = .ok env ∧
        (twoDeclarations.rename newNames).resolve ["I", "P"] (newNames.apply (scopeCalled "s")) q =
          .ok (env.rename newNames) := by
  intro q
  have hinj : Set.InjOn newNames.apply
      {s | s = scopeCalled "s" ∨ s ∈ twoDeclarations.scopes} := by
    have hlist : twoDeclarations.scopes.toList =
        [scopeCalled "a", scopeCalled "b", scopeCalled "c", scopeCalled "s"] := by rfl
    have hall : ∀ a ∈ twoDeclarations.scopes.toList, ∀ b ∈ twoDeclarations.scopes.toList,
        newNames.apply a = newNames.apply b → a = b := by
      rw [hlist]
      decide
    have hmem : ∀ s, s = scopeCalled "s" ∨ s ∈ twoDeclarations.scopes →
        s ∈ twoDeclarations.scopes.toList := by
      rintro s (rfl | hs)
      · rw [hlist]
        decide
      · exact Std.ExtTreeSet.mem_toList.2 hs
    intro a ha b hb hab
    exact hall a (hmem a ha) b (hmem b hb) hab
  have hdata : ∀ s d, twoDeclarations.datum? s = some d → d = .scope (scopeCalled "c") := by
    intro s d hd
    have hlist : twoDeclarations.data.toList = [(scopeCalled "b", .scope (scopeCalled "c")),
        (scopeCalled "c", .scope (scopeCalled "c"))] := by rfl
    have hmem : (s, d) ∈ twoDeclarations.data.toList :=
      Std.ExtTreeMap.mem_toList_iff_getElem?_eq_some.2 hd
    rw [hlist] at hmem
    rcases List.mem_pair.1 hmem with heq | heq <;> exact (Prod.mk.inj heq).2
  have hcovers : ∀ s₁ s₂ d₁ d₂, twoDeclarations.datum? s₁ = some d₁ →
      twoDeclarations.datum? s₂ = some d₂ →
      decide (d₁.rename newNames = d₂.rename newNames) = decide (d₁ = d₂) := by
    intro s₁ s₂ d₁ d₂ hd₁ hd₂
    rw [hdata s₁ d₁ hd₁, hdata s₂ d₂ hd₂]
    decide
  refine ⟨hinj, fun _ ↦ rfl, fun _ _ ↦ rfl, fun _ _ _ ↦ rfl, hcovers, ?_⟩
  exact resolve_rename twoDeclarations ["I", "P"] (scopeCalled "s") q newNames (fun _ ↦ true)
    (fun a b ↦ decide (a = b)) hinj (fun _ ↦ rfl) (fun _ _ ↦ rfl) (fun _ _ _ ↦ rfl) hcovers

end ScopeGraph

end ScopeGraphs
