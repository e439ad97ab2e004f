import ScopeGraphs.Ident

/-!
# Path patterns

A query follows only paths whose labels spell a word of a regular language. The language is given
by a deterministic automaton, and a query carries the state reached so far: a `Pattern`. A missing
transition means that no word with the current beginning is accepted.
-/

namespace ScopeGraphs

/-- A deterministic automaton over labels. -/
structure Automaton where
  /-- The state after a state and a label. -/
  transitions : SortedMap (Nat × Label) Nat
  /-- The states in which a word may end. -/
  accepting : SortedSet Nat
  deriving DecidableEq

/-- The automaton with the given transitions, of which a later one with the same state and label
replaces an earlier one, and the given accepting states. -/
def Automaton.of (transitions : List (Nat × Label × Nat)) (accepting : List Nat) : Automaton :=
  ⟨SortedMap.ofList (transitions.map fun t ↦ ((t.1, t.2.1), t.2.2)), SortedSet.ofList accepting⟩

/-- Which continuations of a path are still acceptable. -/
inductive Pattern where
  /-- Only the empty one. -/
  | epsilon
  /-- Those the automaton accepts from a state. -/
  | state (a : Automaton) (q : Nat)
  deriving DecidableEq

namespace Pattern

instance : Inhabited Pattern := ⟨epsilon⟩

/-- The pattern that an automaton accepts from its first state, 0. -/
def ofAutomaton (a : Automaton) : Pattern := state a 0

/-- What is acceptable after a label. -/
def step? : Pattern → Label → Option Pattern
  | epsilon, _ => none
  | state a q, l => (a.transitions[(q, l)]?).map (state a)

/-- Whether the path may end here. -/
def accepting : Pattern → Bool
  | epsilon => true
  | state a q => a.accepting.contains q

/-- What is acceptable after a word. -/
def run? (p : Pattern) : List Label → Option Pattern
  | [] => some p
  | l :: ls => (p.step? l).bind fun q ↦ q.run? ls

/-- Whether a word is acceptable. -/
def accepts (p : Pattern) (word : List Label) : Bool := (p.run? word).any accepting

/-- The name of a pattern in descriptions of queries. -/
def describe : Pattern → String
  | epsilon => "EpsilonWf"
  | state _ q => "q" ++ toString q

end Pattern

end ScopeGraphs
