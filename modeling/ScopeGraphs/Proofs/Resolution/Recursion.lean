import Mathlib.Order.Filter.AtTopBot.Basic
import Mathlib.Order.Filter.Finite
import ScopeGraphs.Proofs.Resolution.FixedGraph

/-!
# The recursion of a resolution

`Resolver.env` and `Resolver.layered` call each other, and both carry a bound on how deep the calls
may go. This module looks at the recursion without the bounds: `Resolver.body` is what a call does
with the answers of the calls it makes, and `Resolver.Calls` says which calls these are, whatever
the short cut may save. A function on calls that agrees with the body everywhere is a resolution
without bounds.

Two things get smaller. A call on slots calls itself on the slots below one that is maximal, and
that slot is not below itself, however inconsistent the preference is: the lists get shorter.
In between, paths are extended by scopes that they have not visited, and in a fixed graph there are
only so many of them. So the calls are well founded (`ScopeGraph.resolution_ends`), there is exactly
one resolution without bounds, and `ScopeGraph.envOf` computes it.

Where the graph is not known to be finite, a path may have all its calls below it accessible. Then
the bounds stop mattering from some depth on (`Resolver.exists_eventually_value`).
-/

namespace ScopeGraphs

namespace Resolver

open Filter

/-! ## Calls -/

/-- A call of one of the two functions that make up a resolution. -/
inductive Call where
  /-- The environment of a path under a pattern is asked for. -/
  | env (path : Path) (p : Pattern)
  /-- The environment of a path under a pattern through some slots is asked for. -/
  | layered (path : Path) (p : Pattern) (slots : List Slot)

/-- The path that is resolved by a call. -/
def Call.path : Call → Path
  | .env path _ => path
  | .layered path _ _ => path

variable (r : Resolver (Except Fault))

/-- The paths that extend a path along an edge under a label, each with the pattern that is left. -/
def extensions (path : Path) (p : Pattern) (l : Label) : List (Path × Pattern) :=
  match p.step? l, r.targets path.target l with
  | some next, .ok targets => (targets.filterMap (path.step? l)).map fun q ↦ (q, next)
  | _, _ => []

/-- Which call makes which ones. -/
inductive Calls : Call → Call → Prop where
  /-- What is not resolved elsewhere is resolved through all slots of the path. -/
  | here {path : Path} {p : Pattern} (h : r.elsewhere path p = .ok none) :
      Calls (.env path p) (.layered path p (slots r.labels p))
  /-- The slots below a maximal one are resolved before it. -/
  | below {path : Path} {p : Pattern} {slots : List Slot} {a : Slot}
      (h : a ∈ r.preference.maximal slots) :
      Calls (.layered path p slots) (.layered path p (r.preference.below slots a))
  /-- Through a maximal label go the extensions of the path. -/
  | extend {path : Path} {p : Pattern} {slots : List Slot} {l : Label} {e : Path × Pattern}
      (h : .edge l ∈ r.preference.maximal slots) (he : e ∈ r.extensions path p l) :
      Calls (.layered path p slots) (.env e.1 e.2)

/-- What a call answers, given what the calls it makes answer. -/
def body (f : Call → Except Fault Env) : Call → Except Fault Env
  | .env path p => do
    match ← r.elsewhere path p with
    | some found => pure found
    | none => f (.layered path p (slots r.labels p))
  | .layered path p slots => do
    let maximal := r.preference.maximal slots
    let parts ← r.together maximal.length (maximal.map fun slot ↦ do
      let preferred ← f (.layered path p (r.preference.below slots slot))
      if !preferred.isEmpty && r.coversAll then pure preferred
      else
        let own ← r.ofSlot (fun q next ↦ f (.env q next)) path p slot
        shadow r.covers preferred own)
    pure (.unions parts)

/-- The answer to a call with a bound on the extensions of its path. -/
def value (depth : Nat) : Call → Except Fault Env
  | .env path p => r.env depth path p
  | .layered path p slots => r.layered (r.env depth) path p slots.length slots

variable {r} {path q : Path} {p next : Pattern} {slots : List Slot} {a : Slot} {l : Label}

theorem mem_extensions {e : Path × Pattern} : e ∈ r.extensions path p l ↔
    ∃ next targets, p.step? l = some next ∧ r.targets path.target l = .ok targets ∧
      ∃ t ∈ targets, ∃ q, path.step? l t = some q ∧ e = (q, next) := by
  rw [extensions]
  split
  · rename_i next targets hp ht
    simp only [hp, ht, List.mem_map, List.mem_filterMap, Option.some.injEq, Except.ok.injEq]
    constructor
    · rintro ⟨q, ⟨t, ht, hq⟩, rfl⟩
      exact ⟨next, targets, rfl, rfl, t, ht, q, hq, rfl⟩
    · rintro ⟨_, _, rfl, rfl, t, ht, q, hq, rfl⟩
      exact ⟨q, ⟨t, ht, hq⟩, rfl⟩
  · rename_i hno
    simp only [List.not_mem_nil, false_iff]
    rintro ⟨next, targets, hp, ht, -⟩
    exact hno next targets hp ht

/-- A maximal slot is not below itself, so fewer slots are below it than there are. -/
theorem length_below_lt_of_maximal (h : a ∈ r.preference.maximal slots) :
    (r.preference.below slots a).length < slots.length := by
  obtain ⟨hmem, hmax⟩ := List.mem_filter.1 h
  refine List.length_filter_lt_length_iff_exists.2 ⟨a, hmem, fun hself ↦ ?_⟩
  rw [Bool.not_eq_true', List.any_eq_false] at hmax
  exact hmax a hmem hself

/-- Extending a path by the edges of one slot is finitely many calls. -/
theorem finite_extending (r : Resolver (Except Fault)) (path : Path) (p : Pattern) (a : Slot) :
    {c | ∃ l, a = .edge l ∧ ∃ e ∈ r.extensions path p l, c = Call.env e.1 e.2}.Finite := by
  cases a with
  | datum =>
    refine Set.finite_empty.subset ?_
    rintro _ ⟨_, ⟨⟩, _⟩
  | edge l =>
    have hedges := (List.finite_toSet (r.extensions path p l)).image fun e ↦ Call.env e.1 e.2
    refine hedges.subset ?_
    rintro _ ⟨_, ⟨⟩, e, he, rfl⟩
    exact Set.mem_image_of_mem _ he

/-- A call makes finitely many calls. -/
theorem finite_calls (c : Call) : {c' | r.Calls c c'}.Finite := by
  cases c with
  | env path p =>
    refine (Set.finite_singleton (Call.layered path p (Resolver.slots r.labels p))).subset ?_
    rintro _ ⟨_⟩
    rfl
  | layered path p slots =>
    have hslots : {a | a ∈ r.preference.maximal slots}.Finite := List.finite_toSet _
    have hbelow := hslots.image fun a ↦ Call.layered path p (r.preference.below slots a)
    have hextend := hslots.biUnion fun a _ ↦ r.finite_extending path p a
    refine (hbelow.union hextend).subset fun c' hc ↦ ?_
    cases hc with
    | below h => exact .inl (Set.mem_image_of_mem _ h)
    | extend h he => exact .inr (Set.mem_biUnion h ⟨_, rfl, _, he, rfl⟩)

/-! ## The body of a call -/

section

variable {f g : Call → Except Fault Env}

theorem ofEdges_congr {descend descend' : Path → Pattern → Except Fault Env}
    (h : ∀ e ∈ r.extensions path p l, descend e.1 e.2 = descend' e.1 e.2) :
    r.ofEdges descend path p l = r.ofEdges descend' path p l := by
  rw [ofEdges, ofEdges]
  cases hp : p.step? l with
  | none => rfl
  | some next =>
    cases ht : r.targets path.target l with
    | error e => rfl
    | ok targets =>
      have hparts : ((targets.filterMap (path.step? l)).map fun q ↦ descend q next) =
          (targets.filterMap (path.step? l)).map fun q ↦ descend' q next := by
        refine List.map_congr_left fun q hq ↦ ?_
        obtain ⟨t, htmem, hq⟩ := List.mem_filterMap.1 hq
        exact h (q, next) (mem_extensions.2 ⟨next, targets, hp, ht, t, htmem, q, hq, rfl⟩)
      change (do
        let parts ← r.together targets.length
          ((targets.filterMap (path.step? l)).map fun q ↦ descend q next)
        pure (Env.unions parts)) = _
      rw [hparts]
      rfl

/-- The body of a call asks only for the answers of the calls it makes. -/
theorem body_congr {c : Call} (h : ∀ c', r.Calls c c' → f c' = g c') : r.body f c = r.body g c := by
  cases c with
  | env path p =>
    rw [body, body]
    cases he : r.elsewhere path p with
    | error e => rfl
    | ok found =>
      cases found with
      | none => exact h _ (.here he)
      | some found => rfl
  | layered path p slots =>
    have hparts : ∀ a ∈ r.preference.maximal slots,
        r.ofSlot (fun q next ↦ f (.env q next)) path p a =
          r.ofSlot (fun q next ↦ g (.env q next)) path p a := by
      intro a ha
      cases a with
      | datum => rfl
      | edge l => exact ofEdges_congr fun e he ↦ h _ (.extend ha he)
    rw [body, body]
    refine congrArg (· >>= _) (congrArg _ (List.map_congr_left fun a ha ↦ ?_))
    rw [h _ (.below ha), hparts a ha]

theorem value_env (depth : Nat) (path : Path) (p : Pattern) :
    r.value (depth + 1) (.env path p) = r.body (r.value depth) (.env path p) := rfl

variable (htogether : ∀ n es, r.together n es = es.mapM id)

include htogether

/-- Once the bound on layers covers the slots, it does not matter. -/
theorem layered_eq {descend : Path → Pattern → Except Fault Env} {n : Nat}
    (hn : slots.length ≤ n) :
    r.layered descend path p n slots = r.layered descend path p slots.length slots := by
  induction n using Nat.strong_induction_on generalizing slots with
  | _ n ih =>
    cases n with
    | zero => rw [Nat.le_zero.1 hn]
    | succ n =>
      cases hlen : slots.length with
      | zero =>
        obtain rfl := List.eq_nil_of_length_eq_zero hlen
        rw [layered, layered, htogether]
        rfl
      | succ k =>
        rw [layered, layered]
        refine congrArg (· >>= _) (congrArg _ (List.map_congr_left fun a ha ↦ ?_))
        have hlt := length_below_lt_of_maximal ha
        rw [ih n (by omega) (by omega), ih k (by omega) (by omega)]

theorem value_layered (depth : Nat) (path : Path) (p : Pattern) (slots : List Slot) :
    r.value depth (.layered path p slots) = r.body (r.value depth) (.layered path p slots) := by
  cases hlen : slots.length with
  | zero =>
    obtain rfl := List.eq_nil_of_length_eq_zero hlen
    rw [value, body, htogether]
    rfl
  | succ k =>
    rw [value, body, hlen, layered]
    refine congrArg (· >>= _) (congrArg _ (List.map_congr_left fun a ha ↦ ?_))
    have hlt := length_below_lt_of_maximal ha
    rw [layered_eq htogether (by omega : (r.preference.below slots a).length ≤ k)]
    rfl

/-- If the calls below a call come to an end, its answer is the same from some depth on. -/
theorem exists_eventually_value {c : Call} (hc : Acc (fun c' c ↦ r.Calls c c') c) :
    ∃ x, ∀ᶠ depth in atTop, r.value depth c = x := by
  induction hc with
  | intro c _ ih =>
    choose! answer hanswer using ih
    have hcalls : ∀ᶠ depth in atTop, ∀ c' ∈ {c' | r.Calls c c'}, r.value depth c' = answer c' :=
      (eventually_all_finite (finite_calls c)).2 hanswer
    have hbody : ∀ᶠ depth in atTop, r.body (r.value depth) c = r.body answer c :=
      hcalls.mono fun depth h ↦ body_congr h
    refine ⟨r.body answer c, ?_⟩
    cases c with
    | env path p =>
      rw [← map_add_atTop_eq_nat 1, eventually_map]
      exact hbody
    | layered path p slots =>
      exact hbody.mono fun depth h ↦ (value_layered htogether depth path p slots).trans h

end

/-! ## Calls come to an end -/

/-- If all extensions of a path come to an end, so does a call on its slots. -/
theorem acc_layered (h : ∀ l, ∀ e ∈ r.extensions path p l,
    Acc (fun c' c ↦ r.Calls c c') (.env e.1 e.2)) :
    Acc (fun c' c ↦ r.Calls c c') (.layered path p slots) := by
  induction hn : slots.length using Nat.strong_induction_on generalizing slots with
  | _ n ih =>
    refine ⟨_, fun c' hc ↦ ?_⟩
    cases hc with
    | below ha => exact ih _ (hn ▸ length_below_lt_of_maximal ha) rfl
    | extend _ he => exact h _ _ he

/-- If all extensions of a path come to an end, so does the call that resolves it. -/
theorem acc_env (h : ∀ l, ∀ e ∈ r.extensions path p l,
    Acc (fun c' c ↦ r.Calls c c') (.env e.1 e.2)) :
    Acc (fun c' c ↦ r.Calls c c') (.env path p) := by
  refine ⟨_, fun c' hc ↦ ?_⟩
  cases hc with
  | here => exact acc_layered h

/-- The depth that a call needs if its path can only be extended by some scopes. -/
def Call.need (U : List Scope) : Call → Nat
  | .env path _ => View.room U path + 1
  | .layered path _ _ => View.room U path

end Resolver

/-! ## Calls in a fixed graph -/

namespace ScopeGraph

open Resolver

variable {g : ScopeGraph} {labels : List Label} {q : QueryParams}
  {ctx : PredicateContext (Except Fault)} {c c' : Call} {path : Path} {p : Pattern} {l : Label}

/-- In a fixed graph a path is extended by a scope of the graph that it has not visited. -/
theorem exists_step?_of_mem_extensions {e : Path × Pattern}
    (he : e ∈ (g.resolver labels q ctx).extensions path p l) :
    ∃ t ∈ g.scopes.toList, path.step? l t = some e.1 := by
  obtain ⟨next, targets, -, htargets, t, ht, q', hq', rfl⟩ := mem_extensions.1 he
  obtain rfl : g.targets path.target l = targets := Except.ok.inj htargets
  exact ⟨t, Std.ExtTreeSet.mem_toList.2 (mem_scopes_of_mem_targets ht), hq'⟩

theorem room_lt_of_mem_extensions {e : Path × Pattern}
    (he : e ∈ (g.resolver labels q ctx).extensions path p l) :
    View.room g.scopes.toList e.1 < View.room g.scopes.toList path := by
  obtain ⟨t, ht, hstep⟩ := exists_step?_of_mem_extensions he
  exact View.room_lt_of_step? ht hstep

/-- Every call in a fixed graph comes to an end. -/
theorem acc_calls (g : ScopeGraph) (labels : List Label) (q : QueryParams)
    (ctx : PredicateContext (Except Fault)) (c : Call) :
    Acc (fun c' c ↦ (g.resolver labels q ctx).Calls c c') c := by
  have henv : ∀ path p, Acc (fun c' c ↦ (g.resolver labels q ctx).Calls c c') (.env path p) := by
    intro path p
    induction hn : View.room g.scopes.toList path using Nat.strong_induction_on
      generalizing path p with
    | _ n ih => exact acc_env fun l e he ↦ ih _ (hn ▸ room_lt_of_mem_extensions he) e.1 e.2 rfl
  cases c with
  | env path p => exact henv path p
  | layered path p slots => exact acc_layered fun _ e _ ↦ henv e.1 e.2

/-- A call trades the room of its path for steps. -/
theorem length_add_room_le (h : (g.resolver labels q ctx).Calls c c') :
    c'.path.length + View.room g.scopes.toList c'.path ≤
      c.path.length + View.room g.scopes.toList c.path := by
  cases h with
  | here => exact le_rfl
  | below => exact le_rfl
  | @extend path p slots l e _ he =>
    have hroom := room_lt_of_mem_extensions he
    obtain ⟨t, -, hstep⟩ := exists_step?_of_mem_extensions he
    have hlength : e.1.length = path.length + 1 := by
      rw [Path.length, Path.steps_of_step? hstep, List.length_append, Path.length]
      rfl
    simp only [Call.path]
    omega

theorem length_add_room_le_of_reflTransGen
    (h : Relation.ReflTransGen (g.resolver labels q ctx).Calls c c') :
    c'.path.length + View.room g.scopes.toList c'.path ≤
      c.path.length + View.room g.scopes.toList c.path := by
  induction h with
  | refl => exact le_rfl
  | tail _ hcall ih => exact (length_add_room_le hcall).trans ih

/-- Depths that a call has enough of are as good as each other. -/
theorem value_eq_of_need_le {m n : Nat} (hm : c.need g.scopes.toList ≤ m)
    (hn : c.need g.scopes.toList ≤ n) :
    (g.resolver labels q ctx).value m c = (g.resolver labels q ctx).value n c := by
  induction acc_calls g labels q ctx c generalizing m n with
  | intro c _ ih =>
    cases c with
    | env path p =>
      obtain ⟨m, rfl⟩ := Nat.exists_eq_add_of_lt hm
      obtain ⟨n, rfl⟩ := Nat.exists_eq_add_of_lt hn
      rw [value_env, value_env]
      refine body_congr fun c' hc ↦ ih c' hc ?_ ?_ <;>
      · cases hc
        simp only [Call.need]
        omega
    | layered path p slots =>
      rw [value_layered fun _ _ ↦ rfl, value_layered fun _ _ ↦ rfl]
      have hneed : ∀ c', (g.resolver labels q ctx).Calls (.layered path p slots) c' →
          c'.need g.scopes.toList ≤ Call.need g.scopes.toList (.layered path p slots) := by
        intro c' hc
        cases hc with
        | below => exact le_rfl
        | extend _ he => exact room_lt_of_mem_extensions he
      exact body_congr fun c' hc ↦ ih c' hc ((hneed c' hc).trans hm) ((hneed c' hc).trans hn)

theorem need_le (c : Call) : c.need g.scopes.toList ≤ g.scopes.size + 1 := by
  cases c with
  | env path p => exact room_lt_size path
  | layered path p slots => exact (room_lt_size path).le

/-- With as much depth as the graph has scopes, resolution agrees with its body. -/
theorem value_eq_body (c : Call) :
    (g.resolver labels q ctx).value (g.scopes.size + 1) c =
      (g.resolver labels q ctx).body ((g.resolver labels q ctx).value (g.scopes.size + 1)) c := by
  cases c with
  | env path p =>
    rw [value_env]
    refine body_congr fun c' hc ↦ value_eq_of_need_le ?_ (need_le c')
    cases hc
    exact Nat.lt_succ_iff.1 (room_lt_size path)
  | layered path p slots => exact value_layered (fun _ _ ↦ rfl) _ _ _ _

/-- Two resolutions without bounds agree. -/
theorem eq_of_eq_body {f f' : Call → Except Fault Env}
    (hf : ∀ c, f c = (g.resolver labels q ctx).body f c)
    (hf' : ∀ c, f' c = (g.resolver labels q ctx).body f' c) : f = f' := by
  funext c
  induction acc_calls g labels q ctx c with
  | intro c _ ih => rw [hf, hf', body_congr ih]

/-- **Resolution ends**, in every graph, for every pattern and for every relation as a preference.
The calls it makes are well founded: no path on the way has more steps than the graph has scopes,
and a call on slots calls itself on strictly fewer slots. What a call answers depends on nothing but
the calls it makes, so exactly one function resolves every call, and the depth that is set for
queries on a fixed graph is enough to compute it. -/
theorem resolution_ends (g : ScopeGraph) (labels : List Label) (q : QueryParams)
    (ctx : PredicateContext (Except Fault)) :
    WellFounded (fun c' c ↦ (g.resolver labels q ctx).Calls c c') ∧
      (∀ source p c, Relation.ReflTransGen (g.resolver labels q ctx).Calls
        (.env (.start source) p) c → c.path.length ≤ g.scopes.size) ∧
      (∀ path p slots path' p' slots', (g.resolver labels q ctx).Calls
        (.layered path p slots) (.layered path' p' slots') → slots'.length < slots.length) ∧
      (∀ f f' c, (∀ c', (g.resolver labels q ctx).Calls c c' → f c' = f' c') →
        (g.resolver labels q ctx).body f c = (g.resolver labels q ctx).body f' c) ∧
      (∃! f, ∀ c, f c = (g.resolver labels q ctx).body f c) ∧
      ∀ f, (∀ c, f c = (g.resolver labels q ctx).body f c) →
        ∀ path, f (.env path q.pattern) = g.envOf labels path q ctx := by
  refine ⟨⟨acc_calls g labels q ctx⟩, fun source p c h ↦ ?_, fun path p slots path' p' slots' h ↦ ?_,
    fun f f' c ↦ body_congr, ⟨_, value_eq_body, fun f hf ↦ eq_of_eq_body hf value_eq_body⟩,
    fun f hf path ↦ ?_⟩
  · have hle := length_add_room_le_of_reflTransGen h
    have hroom := room_lt_size (g := g) (.start source)
    have hstart : (Path.start source).length = 0 := rfl
    simp only [Call.path, hstart] at hle ⊢
    omega
  · cases h with
    | below ha => exact length_below_lt_of_maximal ha
  · rw [eq_of_eq_body hf value_eq_body]
    rfl

end ScopeGraph

end ScopeGraphs
