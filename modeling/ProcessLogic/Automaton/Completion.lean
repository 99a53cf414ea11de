import ProcessLogic.Automaton.Basic

/-!
# Completion

A partial automaton is completed by a state that is not accepting and is never left. The state
is added only if some edge is missing.
-/

namespace ProcessLogic.Automaton

/-- The first of `base`, `base1`, `base2`, … that is not taken. Of `taken.size + 1` different
names one is free. -/
def freshName (taken : Roster String) (base : String) : String :=
  let names := base :: (List.range taken.size).map fun n => base ++ toString (n + 1)
  (names.find? fun name => !taken.contains name).getD base

/-- The automaton with an edge for every state and every label of its own alphabet and of
`extra`. -/
def complete (a : Automaton) (extra : List Label) : Automaton :=
  let alphabet := a.alphabet.insertMany extra
  let sink := a.size
  let slots := (List.range a.size).flatMap fun s => (List.range alphabet.size).map (s, ·)
  let edges := slots.foldl (fun edges (s, l) =>
    edges.insert (s, l) ((a.stepAt s l).getD sink)) {}
  if slots.all fun (s, l) => (a.stepAt s l).isSome then { a with alphabet, edges }
  else
    { states := a.states.insert (freshName a.states "sink")
      alphabet := alphabet
      edges := (List.range alphabet.size).foldl (fun edges l => edges.insert (sink, l) sink) edges
      initial := a.initial
      accepting := a.accepting.push false }

end ProcessLogic.Automaton
