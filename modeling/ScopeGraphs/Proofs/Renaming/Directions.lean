import ScopeGraphs.Proofs.Renaming.Merging

/-!
# The two directions of a renaming

A renaming carries the proof that its two directions are inverse to each other. What is looked up
and written down while pairs are recorded are two maps, however, and whether these stay inverse is a
question of its own. `ScopeMaps` are two maps that nothing ties together, and their operations read
and write both of them as they find them.

Whatever can be made of them, starting from nothing, by recording pairs and by merging, accepted or
refused, is a renaming after all, and every renaming can be made in that way
(`ScopeMaps.made_iff`). On the way the operations of renamings turn out to be those of their maps
(`Renaming.put_maps`, `Renaming.merge?_maps`), so `Renaming.put_keepsDirections` is about the maps
as much as about renamings.
-/

namespace ScopeGraphs

/-- A map from old scopes to new ones, and one from new scopes to old ones. -/
structure ScopeMaps where
  /-- From old to new. -/
  forward : SortedMap Scope Scope
  /-- From new to old. -/
  backward : SortedMap Scope Scope

namespace ScopeMaps

/-- The maps without entries. -/
def empty : ScopeMaps := ⟨∅, ∅⟩

/-- Enters two scopes in both maps if neither of them has an entry. Tells whether they are each
other's entries now. -/
def put (m : ScopeMaps) (old new : Scope) : Bool × ScopeMaps :=
  match m.forward[old]?, m.backward[new]? with
  | none, none => (true, ⟨m.forward.insert old new, m.backward.insert new old⟩)
  | some n, some o => (decide (n = new ∧ o = old), m)
  | some _, none => (false, m)
  | none, some _ => (false, m)

/-- Enters pairs one after the other, until one is refused. -/
def putAll? (m : ScopeMaps) : List (Scope × Scope) → Option ScopeMaps
  | [] => some m
  | e :: pairs => if (m.put e.1 e.2).1 = true then (m.put e.1 e.2).2.putAll? pairs else none

/-- The maps with the given pairs, if none is refused. -/
def of? (pairs : List (Scope × Scope)) : Option ScopeMaps := empty.putAll? pairs

/-- Enters everything from other maps, if none of it is refused. -/
def merge? (m n : ScopeMaps) : Option ScopeMaps := m.putAll? n.forward.toList

/-- What can be made by entering pairs one by one or several at once and by merging. A pair that is
refused leaves the maps as they are. -/
inductive Made : ScopeMaps → Prop
  | of {pairs : List (Scope × Scope)} {m : ScopeMaps} : of? pairs = some m → Made m
  | put {m : ScopeMaps} (old new : Scope) : Made m → Made (m.put old new).2
  | merge {m n k : ScopeMaps} : Made m → Made n → m.merge? n = some k → Made k

end ScopeMaps

/-! ## Renamings and their maps -/

namespace Renaming

variable {p q : Renaming} {old new : Scope}

/-- The two directions, without the proof that they are inverse. -/
def maps (p : Renaming) : ScopeMaps := ⟨p.forward, p.backward⟩

theorem put?_of_unbound (hold : p.get? old = none) (hnew : p.getInverse? new = none) :
    p.put? old new = some (p.insertNew old new hold hnew) := by
  rw [put?]
  split <;> simp_all

theorem put?_of_get? {n : Scope} (h : p.get? old = some n) :
    p.put? old new = if n = new then some p else none := by
  rw [put?]
  split <;> simp_all

theorem put?_of_getInverse? {o : Scope} (hold : p.get? old = none)
    (h : p.getInverse? new = some o) : p.put? old new = none := by
  rw [put?]
  split <;> simp_all

/-- A pair is entered in both maps exactly if it is recorded. -/
theorem put_maps (p : Renaming) (old new : Scope) :
    p.maps.put old new = ((p.put? old new).isSome, (p.put old new).maps) := by
  have hlookups : p.maps.put old new = match p.get? old, p.getInverse? new with
      | none, none => (true, ⟨p.forward.insert old new, p.backward.insert new old⟩)
      | some n, some o => (decide (n = new ∧ o = old), p.maps)
      | some _, none => (false, p.maps)
      | none, some _ => (false, p.maps) := rfl
  rw [hlookups, put]
  cases hn : p.get? old with
  | none =>
    cases ho : p.getInverse? new with
    | none =>
      rw [put?_of_unbound hn ho]
      rfl
    | some o =>
      rw [put?_of_getInverse? hn ho]
      rfl
  | some n =>
    rw [put?_of_get? hn]
    by_cases hnew : n = new
    · -- The old scope is found under its new one, so that one is found under the old one.
      subst hnew
      have ho : p.getInverse? n = some old := get?_eq_some_iff.1 hn
      simp [ho]
    · cases ho : p.getInverse? new <;> simp [hnew]

theorem putAll?_maps (p : Renaming) (pairs : List (Scope × Scope)) :
    p.maps.putAll? pairs = (p.putAll? pairs).map maps := by
  induction pairs generalizing p with
  | nil => rfl
  | cons e pairs ih =>
    rw [ScopeMaps.putAll?, put_maps, putAll?, put]
    cases p.put? e.1 e.2 with
    | none => rfl
    | some q => exact ih q

theorem of?_maps (pairs : List (Scope × Scope)) : ScopeMaps.of? pairs = (of? pairs).map maps :=
  putAll?_maps identity pairs

theorem merge?_maps (p q : Renaming) : p.maps.merge? q.maps = (p.merge? q).map maps :=
  putAll?_maps p q.pairs

end Renaming

/-- **Renamings are what can be made**, accepting or refusing one pair after the other: the two maps
are inverse to each other whatever is done to them. -/
theorem ScopeMaps.made_iff {m : ScopeMaps} : m.Made ↔ ∃ p : Renaming, p.maps = m := by
  constructor
  · intro h
    induction h with
    | of h =>
      rw [Renaming.of?_maps] at h
      obtain ⟨p, -, rfl⟩ := Option.map_eq_some_iff.1 h
      exact ⟨p, rfl⟩
    | put old new _ ih =>
      obtain ⟨p, rfl⟩ := ih
      exact ⟨p.put old new, by rw [Renaming.put_maps]⟩
    | merge _ _ h ihm ihn =>
      obtain ⟨p, rfl⟩ := ihm
      obtain ⟨q, rfl⟩ := ihn
      rw [Renaming.merge?_maps] at h
      obtain ⟨r, -, rfl⟩ := Option.map_eq_some_iff.1 h
      exact ⟨r, rfl⟩
  · rintro ⟨p, rfl⟩
    have hpairs : of? p.pairs = some p.maps := by
      rw [Renaming.of?_maps, Renaming.of?_pairs, Option.map_some]
    exact .of hpairs

namespace Renaming

variable {p q : Renaming} {old new : Scope}

/-! ## One pair -/

/-- A pair that is recorded is there in both directions. -/
theorem lookups_of_put? (h : p.put? old new = some q) :
    q.get? old = some new ∧ q.getInverse? new = some old :=
  ⟨get?_self_of_put? h, get?_eq_some_iff.1 (get?_self_of_put? h)⟩

/-- Nothing else changes from old to new. -/
theorem get?_of_put?_of_ne (h : p.put? old new = some q) {s : Scope} (hs : s ≠ old) :
    q.get? s = p.get? s := by
  refine Option.ext fun b ↦ ?_
  rw [get?_of_put? h, or_iff_left fun heq ↦ hs heq.1]

/-- Nothing else changes from new to old. -/
theorem getInverse?_of_put?_of_ne (h : p.put? old new = some q) {s : Scope} (hs : s ≠ new) :
    q.getInverse? s = p.getInverse? s := by
  refine Option.ext fun a ↦ ?_
  rw [← get?_eq_some_iff, ← get?_eq_some_iff, get?_of_put? h, or_iff_left fun heq ↦ hs heq.2]

/-- **Both directions are kept in step.** Two maps that are made by recording pairs, one by one or
several at once, and by merging, are inverse to each other, and they are exactly the maps of
renamings; each operation on renamings is the one on their maps. A pair is accepted exactly if
neither of its scopes is bound to another one. It is there afterwards and nothing else has changed,
and if it is refused nothing has changed at all. -/
theorem put_keepsDirections :
    (∀ m : ScopeMaps, m.Made →
      ∀ a b : Scope, m.forward[a]? = some b ↔ m.backward[b]? = some a) ∧
    (∀ m : ScopeMaps, m.Made ↔ ∃ p : Renaming, p.maps = m) ∧
    (∀ pairs, ScopeMaps.of? pairs = (of? pairs).map maps) ∧
    (∀ p q : Renaming, p.maps.merge? q.maps = (p.merge? q).map maps) ∧
    ∀ (p : Renaming) (old new : Scope),
      p.maps.put old new = ((p.put? old new).isSome, (p.put old new).maps) ∧
      ((p.put? old new).isSome = true ↔
        (∀ n, p.get? old = some n → n = new) ∧ ∀ o, p.getInverse? new = some o → o = old) ∧
      (∀ q, p.put? old new = some q →
        q.get? old = some new ∧ q.getInverse? new = some old ∧
          (∀ s, s ≠ old → q.get? s = p.get? s) ∧
          ∀ s, s ≠ new → q.getInverse? s = p.getInverse? s) ∧
      (p.put? old new = none → p.put old new = p) := by
  refine ⟨?_, fun _ ↦ ScopeMaps.made_iff, of?_maps, merge?_maps, fun p old new ↦ ?_⟩
  · intro m hm a b
    obtain ⟨p, rfl⟩ := ScopeMaps.made_iff.1 hm
    exact p.inverse a b
  · refine ⟨put_maps p old new, put?_isSome_iff, fun q hq ↦ ?_, fun hnone ↦ ?_⟩
    · obtain ⟨hget, hinverse⟩ := lookups_of_put? hq
      exact ⟨hget, hinverse, fun _ ↦ get?_of_put?_of_ne hq, fun _ ↦ getInverse?_of_put?_of_ne hq⟩
    · rw [put, hnone, Option.getD_none]

/-- A chain of new names: the pairs after the first two are refused, known, or of a scope with
itself. -/
example :
    (((((identity.put ⟨⟨"u"⟩, "a"⟩ ⟨⟨"u"⟩, "b"⟩).put ⟨⟨"u"⟩, "b"⟩ ⟨⟨"u"⟩, "c"⟩).put
      ⟨⟨"u"⟩, "a"⟩ ⟨⟨"u"⟩, "c"⟩).put ⟨⟨"u"⟩, "a"⟩ ⟨⟨"u"⟩, "b"⟩).put
      ⟨⟨"u"⟩, "d"⟩ ⟨⟨"u"⟩, "d"⟩).pairs.map (fun e ↦ (e.1.name, e.2.name)) =
      [("a", "b"), ("b", "c"), ("d", "d")] := by
  decide

end Renaming

end ScopeGraphs
