import ScopeGraphs.Resolution.Resolver

/-!
# Resolvers with a parameter

Some resolvers need a value that is made only when resolution begins, such as the ledger into which
a unit enters the queries that it forwards. Resolution treats the value as a parameter: to resolve
with it is to resolve in the monad that reads it (`Resolver.run_env`). So what holds of all ledgers
at once can be proved once.
-/

namespace ScopeGraphs

namespace Resolver

universe u

variable {m : Type → Type u} [Monad m] {ρ : Type}

/-- Resolvers for every value of a parameter as one resolver that reads the parameter. -/
def reading [Inhabited ρ] (r : ρ → Resolver m) : Resolver (ReaderT ρ m) where
  labels := (r default).labels
  preference := (r default).preference
  elsewhere path p := fun x ↦ (r x).elsewhere path p
  targets s l := fun x ↦ (r x).targets s l
  datum? s := fun x ↦ (r x).datum? s
  accepts d := fun x ↦ (r x).accepts d
  covers d₁ d₂ := fun x ↦ (r x).covers d₁ d₂
  coversAll := (r default).coversAll
  together n es := fun x ↦ (r x).together n (es.map fun e ↦ e.run x)

/-- What does not have an effect does not depend on the parameter. -/
structure Uniform [Inhabited ρ] (r : ρ → Resolver m) : Prop where
  labels : ∀ x, (r x).labels = (r default).labels
  preference : ∀ x, (r x).preference = (r default).preference
  coversAll : ∀ x, (r x).coversAll = (r default).coversAll

theorem run_isShadowed {covers : Datum → Datum → ReaderT ρ m Bool} (x : ρ) (r : ResolvedPath)
    (ws : List ResolvedPath) :
    (isShadowed covers r ws).run x = isShadowed (fun d₁ d₂ ↦ (covers d₁ d₂).run x) r ws := by
  induction ws with
  | nil => rfl
  | cons w ws ih =>
    rw [isShadowed, isShadowed, ReaderT.run_bind]
    refine congrArg _ (funext fun b ↦ ?_)
    cases b
    · exact ih
    · rfl

theorem run_addCandidates {covers : Datum → Datum → ReaderT ρ m Bool} (x : ρ)
    (winners rs : List ResolvedPath) (env : Env) :
    (addCandidates covers winners rs env).run x =
      addCandidates (fun d₁ d₂ ↦ (covers d₁ d₂).run x) winners rs env := by
  induction rs generalizing env with
  | nil => rfl
  | cons r rs ih =>
    rw [addCandidates, addCandidates, ReaderT.run_bind, run_isShadowed]
    refine congrArg _ (funext fun b ↦ ?_)
    cases b
    · exact ih _
    · exact ih _

variable [Inhabited ρ] {r : ρ → Resolver m}

theorem run_ofSlot (x : ρ) (descend : Path → Pattern → ReaderT ρ m Env) (path : Path) (p : Pattern)
    (slot : Slot) :
    ((reading r).ofSlot descend path p slot).run x =
      (r x).ofSlot (fun path p ↦ (descend path p).run x) path p slot := by
  cases slot with
  | datum =>
    refine (ReaderT.run_bind ..).trans (congrArg _ (funext fun d ↦ ?_))
    cases d with
    | none => rfl
    | some d =>
      refine (ReaderT.run_bind ..).trans (congrArg _ (funext fun b ↦ ?_))
      cases b <;> rfl
  | edge l =>
    rw [ofSlot, ofSlot, ofEdges, ofEdges]
    cases p.step? l with
    | none => rfl
    | some next =>
      refine (ReaderT.run_bind ..).trans (congrArg _ (funext fun ts ↦ ?_))
      refine (ReaderT.run_bind ..).trans (congrArg (· >>= _) ?_)
      change (r x).together _ _ = _
      rw [List.map_map]
      rfl

theorem run_layered (h : Uniform r) (x : ρ) (descend : Path → Pattern → ReaderT ρ m Env)
    (path : Path) (p : Pattern) (n : Nat) (slots : List Slot) :
    ((reading r).layered descend path p n slots).run x =
      (r x).layered (fun path p ↦ (descend path p).run x) path p n slots := by
  induction n generalizing slots with
  | zero => rfl
  | succ n ih =>
    rw [layered, layered, h.preference, h.coversAll]
    refine (ReaderT.run_bind ..).trans (congrArg (· >>= _) ?_)
    change (r x).together _ _ = _
    rw [List.map_map]
    refine congrArg _ (List.map_congr_left fun slot _ ↦ ?_)
    refine (ReaderT.run_bind ..).trans ?_
    rw [ih]
    refine congrArg _ (funext fun preferred ↦ ?_)
    by_cases hcut : (!preferred.isEmpty && (r default).coversAll) = true
    · rw [if_pos hcut]
      exact congrArg (ReaderT.run · x) (if_pos hcut)
    · rw [if_neg hcut]
      refine (congrArg (ReaderT.run · x) (if_neg hcut)).trans ((ReaderT.run_bind ..).trans ?_)
      rw [run_ofSlot]
      exact congrArg _ (funext fun own ↦ run_addCandidates ..)

/-- Reading the parameter commutes with resolution. -/
theorem run_env (h : Uniform r) (x : ρ) (n : Nat) (path : Path) (p : Pattern) :
    ((reading r).env n path p).run x = (r x).env n path p := by
  induction n generalizing path p with
  | zero => rfl
  | succ n ih =>
    rw [env, env]
    refine (ReaderT.run_bind ..).trans (congrArg _ (funext fun found ↦ ?_))
    cases found with
    | some env => rfl
    | none =>
      dsimp only
      rw [run_layered h, h.labels]
      exact congrArg (fun d ↦ (r x).layered d path p _ _) (funext fun path ↦ funext (ih path))

end Resolver

end ScopeGraphs
