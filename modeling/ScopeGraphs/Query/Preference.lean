import ScopeGraphs.Ident

/-!
# Preferences between slots

Of two ways to go on from a scope one may be preferred: what is found along the preferred one can
hide what is found along the other. A preference is any relation on slots; the useful ones are
strict orders. One given by explicit pairs is closed under transitivity when it is built.
-/

namespace ScopeGraphs

/-! ## Transitive closure -/

namespace Preference

/-- The pairs that two given pairs with a common middle compose to and that are not given. -/
def compositions (less : SortedSet (Slot × Slot)) : List (Slot × Slot) :=
  less.toList.flatMap fun p ↦ less.toList.filterMap fun q ↦
    if p.2 = q.1 ∧ ¬ less.contains (p.1, q.2) then some (p.1, q.2) else none

/-- Adds compositions, round by round, until there are no new ones or the rounds are used up. -/
def closeRounds : Nat → SortedSet (Slot × Slot) → SortedSet (Slot × Slot)
  | 0, less => less
  | n + 1, less =>
    match compositions less with
    | [] => less
    | added => closeRounds n (added.foldl (fun s p ↦ s.insert p) less)

/-- The transitive closure of finitely many pairs. A shortest chain between two slots has at most
as many links as there are pairs, and every round composes all chains of twice the length, so
that many rounds are enough. -/
def closure (pairs : List (Slot × Slot)) : SortedSet (Slot × Slot) :=
  closeRounds pairs.length (SortedSet.ofList pairs)

end Preference

/-! ## Preferences -/

/-- Which slot is preferred over which. -/
inductive Preference where
  /-- No slot is preferred over any other. -/
  | none
  /-- A named relation. -/
  | relation (name : String) (lt : Slot → Slot → Bool)
  /-- Exactly the given pairs of a preferred slot and one it is preferred over. -/
  | pairs (less : SortedSet (Slot × Slot))

namespace Preference

instance : Inhabited Preference := ⟨none⟩

/-- The preference given by some pairs, closed under transitivity. -/
def ofPairs (given : List (Slot × Slot)) : Preference := pairs (closure given)

/-- Whether the first slot is preferred over the second. -/
def lt : Preference → Slot → Slot → Bool
  | none, _, _ => false
  | relation _ r, a, b => r a b
  | pairs less, a, b => less.contains (a, b)

/-- The order of slots as a preference: the datum before all edges, labels alphabetically. -/
def lexical : Preference := relation "lex" fun a b ↦ (Keyed.compare a b).isLT

/-- Every edge is preferred over the datum. -/
def dataLast : Preference := relation "data_last" fun a b ↦ !a.isDatum && b.isDatum

/-- The slots of a list over which no slot of the list is preferred less. -/
def maximal (o : Preference) (slots : List Slot) : List Slot :=
  slots.filter fun a ↦ !slots.any fun b ↦ o.lt a b

/-- The slots of a list that are preferred over a slot. -/
def below (o : Preference) (slots : List Slot) (a : Slot) : List Slot :=
  slots.filter fun b ↦ o.lt b a

/-- The name of a preference in descriptions of queries. -/
def describe : Preference → String
  | none => "NoLabelOrder"
  | relation name _ => "LabelOrder(" ++ name ++ ")"
  | pairs less =>
    "ExplicitOrder \x7b less: \x7b" ++ ", ".intercalate (less.toList.map fun p ↦
      "(" ++ p.1.quoted ++ ", " ++ p.2.quoted ++ ")") ++ "\x7d \x7d"

end Preference

end ScopeGraphs
