import ScopeGraphs.Proofs.Wait.Tokens

/-!
# What a bag of tokens knows

A `TokenBag` answers six questions: whether a token can be removed, which occurrences there are, how
many, whether there are none, whether a token is there at all, and whether a slot of a scope is
open. All of them have one answer in terms of what was added and what was removed with success
(`TokenLedger.isAccurate_changes`), whatever was asked for and in whatever order.

Bags do not remember what was done to them, so the account is kept beside the bag, in a
`TokenLedger`. Two facts pass from one change to the next (`TokenLedger.Balances`): what is in the
bag makes up, together with what was removed, what was added; and nothing is listed that is not
there. The first settles every answer that counts occurrences. The second carries it over to those
that only look at the list.
-/

namespace ScopeGraphs

/-- A change to a bag that is asked for. -/
inductive TokenChange where
  /-- An occurrence of a token is to be added. -/
  | add (t : Token) (u : UnitId)
  /-- An occurrence of a token is to be removed. -/
  | remove (t : Token) (u : UnitId)

/-- A bag with the account of what was done to it. -/
structure TokenLedger where
  /-- The bag as it is now. -/
  bag : TokenBag
  /-- What was added to it, the latest first. -/
  added : List (Token × UnitId)
  /-- What was removed from it, the latest first. Where there was nothing to remove, nothing is
  entered. -/
  removed : List (Token × UnitId)

namespace TokenLedger

variable {g : TokenLedger}

/-- The ledger of a new bag. -/
def empty : TokenLedger := ⟨.empty, [], []⟩

/-- Makes a change to the bag and enters it. -/
def change (g : TokenLedger) : TokenChange → TokenLedger
  | .add t u => { g with bag := g.bag.add t u, added := (t, u) :: g.added }
  | .remove t u =>
    match g.bag.remove? t u with
    | some bag => { g with bag, removed := (t, u) :: g.removed }
    | none => g

/-- Makes changes to the bag, one after the other. -/
def changes (g : TokenLedger) (cs : List TokenChange) : TokenLedger := cs.foldl change g

/-! ## The balance -/

/-- The books are balanced, and the bag has no idle entries. -/
structure Balances (g : TokenLedger) : Prop where
  /-- No token is listed that is not there. -/
  proper : g.bag.IsProper
  /-- What is there and what was removed is what was added. -/
  balance : (g.bag.entries ++ g.removed).Perm g.added

theorem balances_empty : empty.Balances where
  proper := TokenBag.isProper_empty
  balance := .refl _

namespace Balances

theorem change (h : g.Balances) (c : TokenChange) : (g.change c).Balances := by
  cases c with
  | add t u =>
    refine ⟨h.proper.add t u, ?_⟩
    calc ((g.bag.add t u).entries ++ g.removed).Perm ((t, u) :: g.bag.entries ++ g.removed) :=
          TokenBag.perm_entries_add.append_right _
      List.Perm _ ((t, u) :: g.added) := h.balance.cons _
  | remove t u =>
    rw [TokenLedger.change]
    cases hbag : g.bag.remove? t u with
    | none => exact h
    | some bag =>
      refine ⟨h.proper.remove? hbag, ?_⟩
      calc (bag.entries ++ (t, u) :: g.removed).Perm ((t, u) :: bag.entries ++ g.removed) :=
            List.perm_middle
        List.Perm _ (g.bag.entries ++ g.removed) :=
            (h.proper.perm_cons_entries hbag).symm.append_right _
        List.Perm _ g.added := h.balance

theorem changes (h : g.Balances) (cs : List TokenChange) : (g.changes cs).Balances := by
  induction cs generalizing g with
  | nil => exact h
  | cons c cs ih => exact ih (h.change c)

theorem count_entries (h : g.Balances) (t : Token) (u : UnitId) :
    g.bag.entries.count (t, u) + g.removed.count (t, u) = g.added.count (t, u) := by
  rw [← List.count_append, h.balance.count_eq]

theorem size_add (h : g.Balances) : g.bag.size + g.removed.length = g.added.length := by
  rw [← TokenBag.length_entries, ← List.length_append, h.balance.length_eq]

theorem remove?_isSome_iff (h : g.Balances) (t : Token) (u : UnitId) :
    (g.bag.remove? t u).isSome = true ↔ g.removed.count (t, u) < g.added.count (t, u) := by
  rw [TokenBag.remove?_isSome_iff, ← h.proper.mem_entries_iff, ← List.count_pos_iff,
    ← h.count_entries]
  omega

end Balances

/-! ## Every answer -/

/-- A bag answers every question by what was added to it and not removed. -/
structure IsAccurate (g : TokenLedger) : Prop where
  /-- A token can be removed if it was added more often than it was removed. -/
  remove?_isSome : ∀ t u, (g.bag.remove? t u).isSome = true ↔
    g.removed.count (t, u) < g.added.count (t, u)
  /-- It occurs as often as it was added and not removed. -/
  count_entries : ∀ t u, g.bag.entries.count (t, u) + g.removed.count (t, u) = g.added.count (t, u)
  /-- All occurrences are counted. -/
  size : g.bag.size = g.bag.entries.length
  /-- They are as many as were added and not removed. -/
  size_add : g.bag.size + g.removed.length = g.added.length
  /-- The bag is empty if it has no occurrences. -/
  isEmpty : g.bag.isEmpty = true ↔ g.bag.size = 0
  /-- A token is contained if it occurs, whoever is to grant it. -/
  contains : ∀ t, g.bag.contains t = true ↔ ∃ u, (t, u) ∈ g.bag.entries
  /-- A slot is open if the scope has still to be initialised, its sharing to end, or the slot to be
  closed, whoever is to do so. -/
  isOpen : ∀ s slot, g.bag.isOpen s slot = true ↔ ∃ u, (.initScope s, u) ∈ g.bag.entries ∨
    (.closeScope s, u) ∈ g.bag.entries ∨ (.closeSlot s slot, u) ∈ g.bag.entries

theorem Balances.isAccurate (h : g.Balances) : g.IsAccurate where
  remove?_isSome := h.remove?_isSome_iff
  count_entries := h.count_entries
  size := (TokenBag.length_entries g.bag).symm
  size_add := h.size_add
  isEmpty := h.proper.isEmpty_iff
  contains t := by
    rw [TokenBag.contains, h.proper.any_eq_true_iff, Prod.exists]
    simp only [decide_eq_true_eq, exists_comm (α := Token), exists_eq_right]
  isOpen s slot := by
    rw [TokenBag.isOpen, h.proper.any_eq_true_iff, Prod.exists, exists_comm]
    simp only [Token.keepsOpen_eq_true_iff, and_or_left, exists_or, exists_eq_right]

/-- Whatever is added and removed, a bag is the multiset of the tokens that were added and not
removed: it finds and removes them, lists and counts them, and knows which slots they keep open. -/
theorem isAccurate_changes (cs : List TokenChange) : (empty.changes cs).IsAccurate :=
  (balances_empty.changes cs).isAccurate

/-- A slot stays open as long as one of two units has still to initialise its scope. -/
example : let init := Token.initScope ⟨⟨"o"⟩, "s"⟩
    let g := empty.changes [.add init ⟨"u"⟩, .add init ⟨"v"⟩, .remove init ⟨"u"⟩]
    g.bag.isOpen ⟨⟨"o"⟩, "s"⟩ .datum = true := by decide

end TokenLedger

end ScopeGraphs
