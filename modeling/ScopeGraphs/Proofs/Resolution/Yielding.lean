import Mathlib.Data.List.Forall2
import ScopeGraphs.Proofs.Resolution.Views

/-!
# Resolvers that follow a view

Resolvers with effects are compared to views by a `Yielding`: a relation between computations and
their results that is kept by returning a value and by sequencing. For computations that can only
fail it says that they succeed with that result; for processes it says what they end with once all
they wait for has arrived.

`Resolver.Follows` says of a resolver, part by part, that it yields what a view reads. It need not
do so for every path: the paths that matter are described by an invariant that resolution keeps,
together with how often such a path can still be extended. Then the resolver yields the environments
of the view (`Resolver.Follows.env`).
-/

namespace ScopeGraphs

universe u

/-- A relation between computations and their results that is kept by returning a value and by
sequencing. -/
structure Yielding (m : Type → Type u) [Monad m] where
  /-- Whether a computation yields a result. -/
  yields : {α : Type} → m α → α → Prop
  /-- What is returned is yielded. -/
  pure : ∀ {α : Type} (a : α), yields (Pure.pure a) a
  /-- What is yielded is handed on. -/
  bind : ∀ {α β : Type} {x : m α} {a : α} {f : α → m β} {b : β},
    yields x a → yields (f a) b → yields (x >>= f) b

variable {m : Type → Type u} [Monad m]

/-- Computations that are run one after the other yield the list of their results. -/
theorem Yielding.mapM_id (Y : Yielding m) {α : Type} {xs : List (m α)} {as : List α}
    [LawfulMonad m] (h : List.Forall₂ Y.yields xs as) : Y.yields (xs.mapM id) as := by
  induction h with
  | nil => exact Y.pure []
  | cons hx _ ih =>
    rw [List.mapM_cons]
    exact Y.bind hx (Y.bind ih (Y.pure _))

namespace Resolver

variable {Y : Yielding m}

/-! ## Shadowing -/

section

variable {covers : Datum → Datum → m Bool} {covers' : Datum → Datum → Bool}

theorem yields_isShadowed (h : ∀ d₁ d₂, Y.yields (covers d₁ d₂) (covers' d₁ d₂))
    (r : ResolvedPath) (ws : List ResolvedPath) :
    Y.yields (isShadowed covers r ws) (isShadowed (m := Id) covers' r ws).run := by
  induction ws with
  | nil => exact Y.pure false
  | cons w ws ih =>
    refine Y.bind (h _ _) ?_
    change Y.yields _ (Id.run (if covers' r.datum w.datum = true then _ else _))
    split
    · exact Y.pure true
    · exact ih

theorem yields_addCandidates (h : ∀ d₁ d₂, Y.yields (covers d₁ d₂) (covers' d₁ d₂))
    (ws rs : List ResolvedPath) (e : Env) :
    Y.yields (addCandidates covers ws rs e) (addCandidates (m := Id) covers' ws rs e).run := by
  induction rs generalizing e with
  | nil => exact Y.pure e
  | cons r rs ih =>
    refine Y.bind (yields_isShadowed h r ws) ?_
    change Y.yields _ (Id.run (if (isShadowed (m := Id) covers' r ws).run = true then _ else _))
    split
    · exact ih _
    · exact ih _

theorem yields_shadow (h : ∀ d₁ d₂, Y.yields (covers d₁ d₂) (covers' d₁ d₂))
    (preferred candidates : Env) :
    Y.yields (shadow covers preferred candidates)
      (shadow (m := Id) covers' preferred candidates).run :=
  yields_addCandidates h _ _ _

end

/-! ## Environments -/

/-- The parts of a resolver that do not depend on the path yield what a view reads. -/
structure Agrees (r : Resolver m) (Y : Yielding m) (v : View) : Prop where
  labels : r.labels = v.labels
  preference : r.preference = v.preference
  coversAll : r.coversAll = v.coversAll
  accepts : ∀ d, Y.yields (r.accepts d) (v.accepts d)
  covers : ∀ d₁ d₂, Y.yields (r.covers d₁ d₂) (v.covers d₁ d₂)
  together : ∀ {n : Nat} {xs : List (m Env)} {es : List Env},
    List.Forall₂ Y.yields xs es → Y.yields (r.together n xs) es

/-- The end of a path is resolved here, and reading it yields what a view reads. -/
structure Reads (r : Resolver m) (Y : Yielding m) (v : View) (path : Path) (p : Pattern) :
    Prop where
  here : Y.yields (r.elsewhere path p) none
  datum? : Y.yields (r.datum? path.target) (v.datum? path.target)
  targets : ∀ l, Y.yields (r.targets path.target l) (v.targets path.target l)

section

variable {r : Resolver m} {v : View} {path : Path} {p : Pattern}
  {descend : Path → Pattern → m Env} {descend' : Path → Pattern → Env}

theorem Agrees.ofDatum (h : r.Agrees Y v) (hr : r.Reads Y v path p) :
    Y.yields (r.ofDatum path) (v.ofSlot descend' path p .datum) := by
  rw [View.ofSlot_datum]
  refine Y.bind hr.datum? ?_
  cases v.datum? path.target with
  | none => exact Y.pure _
  | some d =>
    refine Y.bind (h.accepts d) ?_
    dsimp only
    split
    · exact Y.pure _
    · exact Y.pure _

theorem Agrees.ofEdges (h : r.Agrees Y v) (hr : r.Reads Y v path p) {l : Label}
    (hd : ∀ {next t q}, p.step? l = some next → t ∈ v.targets path.target l →
      path.step? l t = some q → Y.yields (descend q next) (descend' q next)) :
    Y.yields (r.ofEdges descend path p l) (v.ofSlot descend' path p (.edge l)) := by
  rw [Resolver.ofEdges]
  cases hnext : p.step? l with
  | none =>
    rw [View.ofSlot_edge_of_none hnext]
    exact Y.pure _
  | some next =>
    rw [View.ofSlot_edge_of_some hnext]
    refine Y.bind (hr.targets l) (Y.bind (h.together ?_) (Y.pure _))
    refine List.forall₂_map_left_iff.2 (List.forall₂_map_right_iff.2 (List.forall₂_same.2 ?_))
    intro q hq
    obtain ⟨t, ht, hq⟩ := List.mem_filterMap.1 hq
    exact hd hnext ht hq

/-- Layers of slots yield what they find in the view, if the single slots do. -/
theorem Agrees.layered (h : r.Agrees Y v) (n : Nat) (slots : List Slot)
    (hs : ∀ a ∈ slots, Y.yields (r.ofSlot descend path p a) (v.ofSlot descend' path p a)) :
    Y.yields (r.layered descend path p n slots) (v.layered descend' path p n slots) := by
  induction n generalizing slots with
  | zero => exact Y.pure _
  | succ n ih =>
    rw [Resolver.layered, h.preference, h.coversAll]
    refine Y.bind (h.together ?_) (Y.pure _)
    refine List.forall₂_map_left_iff.2 (List.forall₂_map_right_iff.2 (List.forall₂_same.2 ?_))
    intro a ha
    have hbelow : ∀ b ∈ v.preference.below slots a,
        Y.yields (r.ofSlot descend path p b) (v.ofSlot descend' path p b) :=
      fun b hb ↦ hs b (List.mem_of_mem_filter hb)
    refine Y.bind (ih _ hbelow) ?_
    change Y.yields _ (Id.run (if (!(v.layered descend' path p n
      (v.preference.below slots a)).isEmpty && v.coversAll) = true then _ else _))
    split
    · exact Y.pure _
    · exact Y.bind (hs a (List.mem_of_mem_filter ha)) (yields_shadow h.covers _ _)

end

/-- The resolver follows a view on the paths of an invariant, which says how often they can be
extended in the resolver and in the view. It either reads the end of such a path, and extended
paths satisfy the invariant again, or yields what the view finds there by other means. -/
structure Follows (r : Resolver m) (Y : Yielding m) (v : View)
    (I : Nat → Nat → Path → Pattern → Prop) : Prop extends r.Agrees Y v where
  not_zero : ∀ {k path p}, ¬ I 0 k path p
  reads : ∀ {n k path p}, I (n + 1) k path p →
    (∃ j, k = j + 1 ∧ r.Reads Y v path p ∧ ∀ {l next t q}, l ∈ v.labels → p.step? l = some next →
      t ∈ v.targets path.target l → path.step? l t = some q → I n j q next) ∨
    Y.yields (r.elsewhere path p) (some (v.env k path p))

/-- **A resolver that follows a view yields its environments.** -/
theorem Follows.env {r : Resolver m} {v : View} {I : Nat → Nat → Path → Pattern → Prop}
    (h : r.Follows Y v I) {n k : Nat} {path : Path} {p : Pattern} (hI : I n k path p) :
    Y.yields (r.env n path p) (v.env k path p) := by
  induction n generalizing k path p with
  | zero => exact absurd hI h.not_zero
  | succ n ih =>
    rw [Resolver.env]
    rcases h.reads hI with ⟨j, rfl, hr, hnext⟩ | hfound
    · refine Y.bind hr.here ?_
      rw [View.env_succ, h.labels]
      refine h.layered _ _ fun a ha ↦ ?_
      cases a with
      | datum => exact h.ofDatum hr
      | edge l =>
        have hl := (View.mem_slots_edge.1 ha).1
        exact h.ofEdges hr fun hp ht hq ↦ ih (hnext hl hp ht hq)
    · exact Y.bind hfound (Y.pure _)

end Resolver

end ScopeGraphs
