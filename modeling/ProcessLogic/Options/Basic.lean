import ProcessLogic.Event

/-!
# Options of an analysis
-/

namespace ProcessLogic

/-- Which events traces may hold, and how many states an automaton may have. -/
structure AnalysisOptions where
  semantics : EventSemantics := .unrestricted
  maxStates : Nat := 50000
  deriving DecidableEq, Inhabited

end ProcessLogic
