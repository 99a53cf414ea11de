import ProcessLogic.Automaton.Basic

/-!
# The listing of an automaton

A plain overview for readers: the states with their edges, the initial state and the accepting
states.
-/

namespace ProcessLogic.Automaton

/-- The line of a state and those of its edges. -/
def listState (a : Automaton) (s : Nat) : String :=
  let mark := if a.isFinal s then " (accepting)" else ""
  let edge := fun (label, t) => "   =[" ++ label ++ "]=> " ++ a.stateName t ++ "\n"
  " " ++ a.stateName s ++ mark ++ "\n" ++ String.join ((a.edgesFrom s).map edge)

/-- The whole listing. -/
def listing (a : Automaton) : String :=
  "States:\n" ++ String.join ((List.range a.size).map a.listState) ++
    "Initial: " ++ a.stateName a.initial ++ "\n" ++
    "Accept:  [" ++ ", ".intercalate (a.finals.map a.stateName) ++ "]\n"

end ProcessLogic.Automaton
