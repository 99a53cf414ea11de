import ProcessLogic.Automaton.Basic
import ProcessLogic.Search.BreadthFirst

/-!
# Reachable states and emptiness
-/

namespace ProcessLogic.Automaton

/-- The states that some word leads to, in the order of a breadth-first search from the
initial state. -/
def reachable (a : Automaton) : List Nat :=
  let letters := List.range a.alphabet.size
  match Search.run letters a.stepAt (fun _ => false) a.size a.initial with
  | some (search, _) => search.found.toList
  | none => []

/-- Whether no word is accepted. -/
def isEmpty (a : Automaton) : Bool := !a.reachable.any a.isFinal

end ProcessLogic.Automaton
