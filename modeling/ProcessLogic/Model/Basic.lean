/-!
# Process models

A model declares activities and constrains the order in which they occur.
-/

namespace ProcessLogic

/-- A constraint as it is written, with its 1-based line. Conditions are kept as text. -/
structure Constraint where
  template : String
  activities : List String
  conditions : List String
  line : Nat
  deriving DecidableEq, Inhabited

/-- A model: its declared activities, each once, and its constraints. -/
structure ProcessModel where
  activities : List String
  constraints : List Constraint
  deriving DecidableEq, Inhabited

end ProcessLogic
