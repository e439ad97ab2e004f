import ScopeGraphs.Ident

/-!
# Renamings

A renaming pairs scopes of a previous run (*old*) with scopes of the current run (*new*), one to
one. Scopes without an entry keep their identity when a renaming is applied, so the empty renaming
is the identity.

Both directions are stored, and the proof that they are inverse to each other is a part of the
value: `Renaming.get?_eq_some_iff`. A pair is recorded by `Renaming.put?`, which refuses a pair
that would bind a scope twice, and two renamings are joined by `Renaming.merge?`.
-/

namespace ScopeGraphs

/-- A one-to-one relation between old and new scopes. -/
structure Renaming where
  /-- From old to new. -/
  forward : SortedMap Scope Scope
  /-- From new to old. -/
  backward : SortedMap Scope Scope
  /-- Each direction is the inverse of the other. -/
  inverse : ∀ a b : Scope, forward[a]? = some b ↔ backward[b]? = some a

namespace Renaming

instance : DecidableEq Renaming := fun p q ↦
  if h : p.forward = q.forward ∧ p.backward = q.backward then
    .isTrue (by cases p; cases q; simp_all)
  else .isFalse fun e ↦ h (e ▸ ⟨rfl, rfl⟩)

/-- The renaming that changes nothing. -/
def identity : Renaming where
  forward := ∅
  backward := ∅
  inverse a b := by simp

instance : Inhabited Renaming := ⟨identity⟩

/-! ## Looking up -/

/-- The new scope paired with an old one. -/
def get? (p : Renaming) (old : Scope) : Option Scope := p.forward[old]?

/-- The old scope paired with a new one. -/
def getInverse? (p : Renaming) (new : Scope) : Option Scope := p.backward[new]?

/-- Whether an old scope is paired. -/
def containsOld (p : Renaming) (old : Scope) : Bool := (p.get? old).isSome

/-- Whether a new scope is paired. -/
def containsNew (p : Renaming) (new : Scope) : Bool := (p.getInverse? new).isSome

theorem get?_eq_some_iff {p : Renaming} {old new : Scope} :
    p.get? old = some new ↔ p.getInverse? new = some old :=
  p.inverse old new

/-- Two renamings with the same pairs are equal. -/
theorem ext {p q : Renaming} (h : ∀ old, p.get? old = q.get? old) : p = q := by
  obtain ⟨pf, pb, hp⟩ := p
  obtain ⟨qf, qb, hq⟩ := q
  have hf : pf = qf := Std.ExtTreeMap.ext_getElem? h
  subst hf
  have hb : pb = qb := Std.ExtTreeMap.ext_getElem? fun b ↦ by
    apply Option.ext
    intro a
    rw [← hp, ← hq]
  subst hb
  rfl

/-- The pairs, sorted by old scope. -/
def pairs (p : Renaming) : List (Scope × Scope) := p.forward.toList

/-- The number of pairs. -/
def size (p : Renaming) : Nat := p.forward.size

/-- Whether there are no pairs. -/
def isEmpty (p : Renaming) : Bool := p.forward.isEmpty

/-- Whether every pair is of a scope with itself. -/
def isIdentity (p : Renaming) : Bool := p.pairs.all fun e ↦ e.1 = e.2

/-! ## Recording pairs -/

/-- Binds two unbound scopes to each other, in both directions. -/
def insertNew (p : Renaming) (old new : Scope) (hold : p.get? old = none)
    (hnew : p.getInverse? new = none) : Renaming where
  forward := p.forward.insert old new
  backward := p.backward.insert new old
  inverse a b := by
    simp only [get?, getInverse?] at hold hnew
    rw [Std.ExtTreeMap.getElem?_insert, Std.ExtTreeMap.getElem?_insert]
    simp only [Keyed.compare_eq_iff]
    have hab := p.inverse a b
    have hao := p.inverse a new
    have hob := p.inverse old b
    grind

/-- Records that `old` becomes `new`. A pair that is already there is fine; a pair that would
bind one of the two scopes a second time is refused. -/
def put? (p : Renaming) (old new : Scope) : Option Renaming :=
  match ho : p.get? old, hn : p.getInverse? new with
  | none, none => some (p.insertNew old new ho hn)
  | some n, _ => if n = new then some p else none
  | none, some _ => none

/-- Records a pair, or changes nothing when it is refused. -/
def put (p : Renaming) (old new : Scope) : Renaming := (p.put? old new).getD p

/-- Records pairs one after the other. -/
def putAll? (p : Renaming) : List (Scope × Scope) → Option Renaming
  | [] => some p
  | (old, new) :: rest => (p.put? old new).bind fun q ↦ q.putAll? rest

/-- The renaming with the given pairs, if they are one to one. -/
def of? (pairs : List (Scope × Scope)) : Option Renaming := identity.putAll? pairs

/-- The union of two renamings, if it is one to one. -/
def merge? (p q : Renaming) : Option Renaming := p.putAll? q.pairs

/-- Records those of the pairs that are not refused, one after the other. -/
def putEach (p : Renaming) (pairs : List (Scope × Scope)) : Renaming :=
  pairs.foldl (fun q e ↦ q.put e.1 e.2) p

/-! ## Applying -/

/-- The current identity of an old scope. -/
def apply (p : Renaming) (old : Scope) : Scope := (p.get? old).getD old

/-- The previous identity of a current scope. -/
def inverseApply (p : Renaming) (new : Scope) : Scope := (p.getInverse? new).getD new

end Renaming

end ScopeGraphs
