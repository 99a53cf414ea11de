import ProcessLogic.Collection.Roster

/-!
# Automata

Deterministic finite automata whose edges may be missing: a word that meets a missing edge is
rejected. States have names and labels are strings; both are addressed by their place in a
roster, states in the order of declaration and labels in the order of first use. Places are
numbers without a bound, and the same as numbers of 32 bits for fewer than 4294967296 states and
labels. `build` checks the parts from which an automaton is made, so that what it returns is
`WellFormed`.
-/

namespace ProcessLogic

/-- Labels of edges, compared as strings. -/
abbrev Label := String

/-- A deterministic, possibly partial automaton. `edges` sends a state and a label, both given
by their place, to the next state. -/
structure Automaton where
  states : Roster String
  alphabet : Roster Label
  edges : Std.HashMap (Nat × Nat) Nat
  initial : Nat
  accepting : Array Bool
  deriving Inhabited

/-- An edge between states given by name. -/
structure Transition where
  source : String
  label : Label
  target : String
  deriving DecidableEq

/-- What a name stands for in the parts of an automaton. -/
inductive StateRole
  | initial
  | final
  | source
  | target
  deriving DecidableEq

/-- Why parts do not make an automaton. The last cause is that of a search which met more
states than there are. -/
inductive Violation
  | noStates
  | reservedName
  | undeclared (role : StateRole) (name : String)
  | twoSuccessors (state : String) (label : Label)
  | searchTooLarge (visited bound : Nat)
  deriving DecidableEq

/-- How messages call a role. -/
def StateRole.title : StateRole → String
  | .initial => "initial state"
  | .final => "final state"
  | .source => "transition source"
  | .target => "transition target"

namespace Violation

/-- The cause in words. -/
def reason : Violation → String
  | noStates => "automaton has no states"
  | reservedName => "state name `init` is reserved for the initial state marker"
  | undeclared role name => role.title ++ " `" ++ name ++ "` is not a declared state"
  | twoSuccessors state label =>
    "state `" ++ state ++ "` has two successors on label `" ++ label ++ "`"
  | searchTooLarge visited bound =>
    "product search visited " ++ toString visited ++ " pairs, more than the " ++
      toString bound ++ " possible"

/-- The whole message. -/
def message (v : Violation) : String := "automaton invariant violated: " ++ v.reason

end Violation

namespace Automaton

/-- The name that marks the initial state in a description, and that no state may have. -/
def initialMarker : String := "init"

/-- All places are in range, names and labels are listed once, no state has the reserved name,
and every label of the alphabet is on some edge. -/
structure WellFormed (a : Automaton) : Prop where
  states_wellFormed : a.states.WellFormed
  alphabet_wellFormed : a.alphabet.WellFormed
  initial_lt : a.initial < a.states.size
  accepting_size : a.accepting.size = a.states.size
  marker_free : a.states.contains initialMarker = false
  edge_lt : ∀ (source label target : Nat), a.edges[(source, label)]? = some target →
    source < a.states.size ∧ label < a.alphabet.size ∧ target < a.states.size
  label_used : ∀ label : Nat, label < a.alphabet.size →
    ∃ source target : Nat, a.edges[(source, label)]? = some target

/-- The place of a state's name, which must be declared. -/
def lookup (states : Roster String) (role : StateRole) (name : String) :
    Except Violation Nat :=
  match states.rank? name with
  | some s => .ok s
  | none => .error (.undeclared role name)

/-- Marks the named states as accepting. -/
def markFinals (states : Roster String) (finals : List String) :
    Except Violation (Array Bool) :=
  finals.foldlM
    (fun marks name => do return marks.setIfInBounds (← lookup states .final name) true)
    (Array.replicate states.size false)

/-- Adds one edge to an alphabet and the edges over it. -/
def addEdge (states : Roster String) :
    Roster Label × Std.HashMap (Nat × Nat) Nat → Transition →
      Except Violation (Roster Label × Std.HashMap (Nat × Nat) Nat)
  | (alphabet, edges), t => do
    let source ← lookup states .source t.source
    let target ← lookup states .target t.target
    let (label, alphabet) := alphabet.intern t.label
    match edges[(source, label)]? with
    | none => return (alphabet, edges.insert (source, label) target)
    | some earlier =>
      if earlier = target then return (alphabet, edges)
      else throw (.twoSuccessors t.source t.label)

/-- The automaton with the given parts. Names may repeat; an edge may repeat, but a state may
not have two successors on one label. -/
def build (states : List String) (transitions : List Transition) (initial : String)
    (finals : List String) : Except Violation Automaton := do
  let states := Roster.ofList states
  if states.size = 0 then throw .noStates
  if states.contains initialMarker then throw .reservedName
  let initial ← lookup states .initial initial
  let accepting ← markFinals states finals
  let (alphabet, edges) ← transitions.foldlM (addEdge states) (({} : Roster Label), {})
  return { states, alphabet, edges, initial, accepting }

/-- The automaton of all words over the given labels: one accepting state with a loop on each
label. -/
def universal (labels : List Label) : Automaton :=
  let alphabet := Roster.ofList labels
  { states := Roster.ofList ["0"]
    alphabet := alphabet
    edges := (List.range alphabet.size).foldl (fun edges l => edges.insert (0, l) 0) {}
    initial := 0
    accepting := #[true] }

/-- How many states there are. -/
def size (a : Automaton) : Nat := a.states.size

/-- The name of a state. -/
def stateName (a : Automaton) (s : Nat) : String := (a.states.get? s).getD ""

/-- The state of a name. -/
def state? (a : Automaton) (name : String) : Option Nat := a.states.rank? name

/-- Whether words may end in `s`. -/
def isFinal (a : Automaton) (s : Nat) : Bool := a.accepting.getD s false

/-- The states in which words may end. -/
def finals (a : Automaton) : List Nat := (List.range a.size).filter a.isFinal

/-- The successor of `s` on the label at place `l`. -/
def stepAt (a : Automaton) (s l : Nat) : Option Nat := a.edges[(s, l)]?

/-- The successor of `s` on a label. -/
def step (a : Automaton) (s : Nat) (label : Label) : Option Nat :=
  (a.alphabet.rank? label).bind (a.stepAt s)

/-- All edges out of `s` in the order of the alphabet. -/
def edgesFrom (a : Automaton) (s : Nat) : List (Label × Nat) :=
  a.alphabet.toList.zipIdx.filterMap fun (label, l) => (a.stepAt s l).map (label, ·)

/-- All edges, by source and then in the order of the alphabet. -/
def transitions (a : Automaton) : List (Nat × Label × Nat) :=
  (List.range a.size).flatMap fun s => (a.edgesFrom s).map fun (label, t) => (s, label, t)

/-- The state that a word leads to from `s`, if no edge is missing. -/
def run (a : Automaton) (s : Nat) : List Label → Option Nat
  | [] => some s
  | label :: word => (a.step s label).bind fun t => a.run t word

/-- Whether the automaton accepts a word. -/
def accepts (a : Automaton) (word : List Label) : Bool :=
  match a.run a.initial word with
  | some s => a.isFinal s
  | none => false

end Automaton

end ProcessLogic
