import ScopeGraphs.Renaming

/-!
# Data

The values that scopes carry and that checkers return. A datum may mention scopes, and when a
previous result is reused those follow its renaming (`Datum.rename`).

Data are ordered by kind first, in the order of the constructors, and then by content; the absent
and the present optional datum are of one kind. `Datum.key` writes this order down as a key.
-/

namespace ScopeGraphs

/-- A value attached to a scope or returned by a checker. -/
inductive Datum where
  /-- The value without content. -/
  | unit
  /-- A truth value. -/
  | bool (b : Bool)
  /-- An integer. -/
  | int (i : Int)
  /-- A text. -/
  | text (s : String)
  /-- A scope. -/
  | scope (s : Scope)
  /-- A list. -/
  | list (ds : List Datum)
  /-- A pair. -/
  | pair (a b : Datum)
  /-- An absent optional value. -/
  | none
  /-- A present optional value. -/
  | some (d : Datum)
  deriving Inhabited, Repr

namespace Datum

/-! ## Order -/

mutual

/-- The key of a datum: its kind, then the keys of its parts. -/
def key : Datum → List Int
  | unit => [0]
  | bool b => 1 :: Keyed.key b
  | int i => 2 :: Keyed.key i
  | text s => 3 :: Keyed.key s
  | scope s => 4 :: Keyed.key s
  | list ds => 5 :: keys ds
  | pair a b => 6 :: (key a ++ key b)
  | none => [7]
  | some d => 8 :: key d

/-- The key of a list of data: each datum after a marker, then an end that sorts below it. -/
def keys : List Datum → List Int
  | [] => [-1]
  | d :: ds => 0 :: (key d ++ keys ds)

end

mutual

private theorem key_append_inj' : ∀ {a b : Datum} {r s : List Int},
    key a ++ r = key b ++ s → a = b ∧ r = s
  | unit, b, _, _, h => by cases b <;> simp_all [key]
  | bool _, b, _, _, h => by
    cases b <;> simp [key] at h
    rw [bool.injEq]; exact Keyed.key_append_inj h
  | int _, b, _, _, h => by
    cases b <;> simp [key] at h
    rw [int.injEq]; exact Keyed.key_append_inj h
  | text _, b, _, _, h => by
    cases b <;> simp [key] at h
    rw [text.injEq]; exact Keyed.key_append_inj h
  | scope _, b, _, _, h => by
    cases b <;> simp [key] at h
    rw [scope.injEq]; exact Keyed.key_append_inj h
  | list _, b, _, _, h => by
    cases b <;> simp [key] at h
    rw [list.injEq]; exact keys_append_inj h
  | pair _ _, b, _, _, h => by
    cases b <;> simp [key] at h
    obtain ⟨h₁, h⟩ := key_append_inj' h
    obtain ⟨h₂, h⟩ := key_append_inj' h
    exact ⟨by rw [h₁, h₂], h⟩
  | none, b, _, _, h => by cases b <;> simp_all [key]
  | some _, b, _, _, h => by
    cases b <;> simp [key] at h
    rw [some.injEq]; exact key_append_inj' h

private theorem keys_append_inj : ∀ {a b : List Datum} {r s : List Int},
    keys a ++ r = keys b ++ s → a = b ∧ r = s
  | [], b, _, _, h => by cases b <;> simp_all [keys]
  | _ :: _, b, _, _, h => by
    cases b <;> simp [keys] at h
    obtain ⟨h₁, h⟩ := key_append_inj' h
    obtain ⟨h₂, h⟩ := keys_append_inj h
    exact ⟨by rw [h₁, h₂], h⟩

end

instance : Keyed Datum where
  key := key
  key_append_inj := key_append_inj'

instance : DecidableEq Datum := Keyed.decEq

/-- The order of data. -/
def le (a b : Datum) : Bool := (Keyed.compare a b).isLE

/-! ## Scopes inside data -/

mutual

/-- The datum with every scope in it renamed. -/
def rename (p : Renaming) : Datum → Datum
  | scope s => scope (p.apply s)
  | list ds => list (renameAll p ds)
  | pair a b => pair (rename p a) (rename p b)
  | some d => some (rename p d)
  | d => d

/-- Every datum of a list with every scope in it renamed. -/
def renameAll (p : Renaming) : List Datum → List Datum
  | [] => []
  | d :: ds => rename p d :: renameAll p ds

end

/-- The scope a datum points at: a scope itself, or for a pair the one its second part points at,
else the one its first part points at. -/
def target? : Datum → Option Scope
  | scope s => Option.some s
  | pair a b => (target? b).orElse fun _ ↦ target? a
  | _ => Option.none

/-- The content of a text datum. -/
def text? : Datum → Option String
  | text s => Option.some s
  | _ => Option.none

/-- The content of an integer datum. -/
def int? : Datum → Option Int
  | int i => Option.some i
  | _ => Option.none

/-- Whether a datum is a text with the given beginning. -/
def startsWith (beginning : String) (d : Datum) : Bool :=
  d.text?.any fun s ↦ beginning.toList.isPrefixOf s.toList

/-- Whether a datum is an integer that is not below the given one. -/
def atLeast (least : Int) (d : Datum) : Bool := d.int?.any fun i ↦ least ≤ i

/-- Whether two data are pairs with the same first part. -/
def sameFirst (a b : Datum) : Bool :=
  match a, b with
  | pair x _, pair y _ => x = y
  | _, _ => false

/-- An optional datum as a datum. -/
def ofOption : Option Datum → Datum
  | Option.none => none
  | Option.some d => some d

end Datum

end ScopeGraphs
