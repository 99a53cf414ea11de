import ProcessLogic.Automaton.Reachable

/-!
# Comparing the languages of two automata

Two automata are run side by side over the labels of both. A missing edge leads to an implied
sink, which is `none` here; once both are in the sink no word is accepted any more, and the
search leaves that pair out. The first pair that the search meets in which one side accepts and
the other does not gives a shortest word on which the automata differ.
-/

namespace ProcessLogic.Automaton

/-- A state of each automaton, or its sink. -/
abbrev Pair := Option Nat × Option Nat

/-- A label of either automaton, with its place in both alphabets. -/
structure JointLabel where
  label : Label
  left : Option Nat
  right : Option Nat
  deriving DecidableEq

/-- Whether a word may end in a state; it may not in the sink. -/
def acceptsAt (a : Automaton) (s : Option Nat) : Bool := s.any a.isFinal

/-- The labels of both automata: those of `a` in their order, then those that `b` adds. -/
def jointLabels (a b : Automaton) : List JointLabel :=
  ((a.alphabet.insertMany b.alphabet.toList).toList).map fun label =>
    ⟨label, a.alphabet.rank? label, b.alphabet.rank? label⟩

/-- The successor of a state or sink on a label that may be unknown. -/
def follow (a : Automaton) (s l : Option Nat) : Option Nat := do a.stepAt (← s) (← l)

/-- The successor of a pair, unless it is the pair of both sinks. -/
def pairStep (a b : Automaton) (pair : Pair) (l : JointLabel) : Option Pair :=
  match a.follow pair.1 l.left, b.follow pair.2 l.right with
  | none, none => none
  | s, t => some (s, t)

/-- Whether exactly one side accepts. -/
def separates (a b : Automaton) (pair : Pair) : Bool :=
  a.acceptsAt pair.1 != b.acceptsAt pair.2

/-- A shortest word that exactly one of the automata accepts, or `none` if they accept the
same words. -/
def counterexample (a b : Automaton) : Except Violation (Option (List Label)) :=
  let bound := (a.size + 1) * (b.size + 1)
  match Search.run (jointLabels a b) (pairStep a b) (separates a b) bound
      (some a.initial, some b.initial) with
  | none => .error (.searchTooLarge (bound + 1) bound)
  | some (search, stopped) =>
    .ok (stopped.map fun rank => (search.trails.getD rank []).reverse.map (·.label))

/-- Whether the automata accept the same words. -/
def equivalent (a b : Automaton) : Except Violation Bool := do
  return (← counterexample a b).isNone

end ProcessLogic.Automaton
