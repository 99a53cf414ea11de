import ProcessLogic.Formula.Nnf

/-!
# Events and their labels

Which events a trace may hold depends on the semantics: any set of propositions, or at most
one. The label of an event names every proposition of the universe in order, with a tilde
before those that do not hold.
-/

namespace ProcessLogic

/-- Which sets of propositions may hold at one position of a trace. -/
inductive EventSemantics
  | single
  | unrestricted
  deriving DecidableEq, Inhabited

namespace EventSemantics

/-- The word for a semantics in options. -/
def keyword : EventSemantics → String
  | .single => "single"
  | .unrestricted => "unrestricted"

/-- The semantics of a word. -/
def ofKeyword? (word : String) : Option EventSemantics :=
  if word = "single" then some .single
  else if word = "unrestricted" then some .unrestricted
  else none

/-- All subsets, each in the order of the list. The first element alternates fastest. -/
def subsets : List String → List Event
  | [] => [[]]
  | p :: ps => (subsets ps).flatMap fun s => [s, p :: s]

/-- All events over a universe. -/
def events (props : List String) : EventSemantics → List Event
  | .single => props.map (fun p => [p]) ++ [[]]
  | .unrestricted => subsets props

/-- With unrestricted events the universe may hold this many propositions. -/
def maxUnrestricted : Nat := 16

/-- Whether the events over so many propositions can be listed. -/
def allows (semantics : EventSemantics) (count : Nat) : Bool :=
  match semantics with
  | .single => true
  | .unrestricted => decide (count ≤ maxUnrestricted)

end EventSemantics

/-- The label of an event over a universe. -/
def Event.label (props : List String) (event : Event) : String :=
  if props.isEmpty then "true"
  else " & ".intercalate (props.map fun p => if event.contains p then p else "~" ++ p)

end ProcessLogic
