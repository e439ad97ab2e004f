import ScopeGraphs.Graph.Path

/-!
# Wait tokens

A unit raises a token when it cannot go on until some unit, possibly itself, has acted, and the
token names what is awaited. Requests carry a number that tells otherwise equal ones apart.

A `TokenBag` is a multiset of tokens, each together with the unit expected to grant it. Whether a
slot of a scope may still change is read off the bag: it is open as long as some token says so.
-/

namespace ScopeGraphs

/-! ## Tokens -/

/-- What a unit can wait for. -/
inductive Token where
  /-- The decision whether the unit itself reuses its previous result. -/
  | activate
  /-- The initialisation of a shared scope. -/
  | initScope (s : Scope)
  /-- The end of the sharing of a scope. -/
  | closeScope (s : Scope)
  /-- The end of the changes to a slot of a scope. -/
  | closeSlot (s : Scope) (slot : Slot)
  /-- The answer to a query. -/
  | query (path : Path) (request : Nat)
  /-- The answer to a confirmation. -/
  | confirm (s : Scope) (request : Nat)
  /-- The current counterpart of a previous scope. -/
  | counterpart (s : Scope) (request : Nat)
  /-- The start of a sub-unit. -/
  | subUnit (u : UnitId)
  deriving DecidableEq, Repr

namespace Token

/-- Whether the token waits for something to be closed. Such tokens can be granted outright when
no more input can arrive. -/
def isClosure : Token → Bool
  | initScope _ | closeScope _ | closeSlot _ _ => true
  | _ => false

/-- Whether the token keeps a slot of a scope open. -/
def keepsOpen (s : Scope) (slot : Slot) : Token → Bool
  | initScope t | closeScope t => t = s
  | closeSlot t l => t = s && l = slot
  | _ => false

/-- The key of a token: its kind, then the keys of its parts. -/
def key : Token → List Int
  | activate => [0]
  | initScope s => 1 :: Keyed.key s
  | closeScope s => 2 :: Keyed.key s
  | closeSlot s l => 3 :: Keyed.key (s, l)
  | query p n => 4 :: Keyed.key (p, n)
  | confirm s n => 5 :: Keyed.key (s, n)
  | counterpart s n => 6 :: Keyed.key (s, n)
  | subUnit u => 7 :: Keyed.key u

instance : Keyed Token where
  key := key
  key_append_inj {a b} r s h := by
    cases a <;> cases b <;> simp only [key, List.cons_append, List.cons.injEq] at h <;>
      first
      | exact ⟨rfl, by simpa using h.2⟩
      | (exfalso; omega)
      | (obtain ⟨e, h⟩ := Keyed.key_append_inj h.2; simp_all)

end Token

/-! ## Bags of tokens -/

/-- A multiset of tokens with the units expected to grant them. -/
structure TokenBag where
  /-- How often each token is there; never zero for a token that is listed. -/
  counts : SortedMap (Token × UnitId) Nat
  deriving DecidableEq

namespace TokenBag

/-- The bag without tokens. -/
def empty : TokenBag := ⟨∅⟩

instance : Inhabited TokenBag := ⟨empty⟩

/-- How often a token towards a unit is in the bag. -/
def count (b : TokenBag) (t : Token) (u : UnitId) : Nat := (b.counts[(t, u)]?).getD 0

/-- The bag with one more occurrence. -/
def add (b : TokenBag) (t : Token) (u : UnitId) : TokenBag :=
  ⟨b.counts.insert (t, u) (b.count t u + 1)⟩

/-- The bag with one occurrence less, or nothing if there is none. A token is taken off the list
with its last occurrence. -/
def remove? (b : TokenBag) (t : Token) (u : UnitId) : Option TokenBag :=
  match b.counts[(t, u)]? with
  | none => none
  | some n => some ⟨if 1 < n then b.counts.insert (t, u) (n - 1) else b.counts.erase (t, u)⟩

/-- Whether a token satisfies a condition. -/
def any (b : TokenBag) (p : Token → Bool) : Bool := b.counts.keys.any fun e ↦ p e.1

/-- Whether a token is in the bag, towards any unit. -/
def contains (b : TokenBag) (t : Token) : Bool := b.any (· = t)

/-- Whether a slot of a scope may still change. -/
def isOpen (b : TokenBag) (s : Scope) (slot : Slot) : Bool := b.any (Token.keepsOpen s slot)

/-- Every occurrence, in order. -/
def entries (b : TokenBag) : List (Token × UnitId) :=
  b.counts.toList.flatMap fun e ↦ List.replicate e.2 e.1

/-- The number of occurrences. -/
def size (b : TokenBag) : Nat := b.counts.toList.foldr (fun e n ↦ e.2 + n) 0

/-- Whether there are none. -/
def isEmpty (b : TokenBag) : Bool := b.counts.isEmpty

end TokenBag

end ScopeGraphs
