import ProcessLogic.Analysis.Oracle
import ProcessLogic.Automaton.Comparison
import ProcessLogic.Constraint.Template

/-!
# Redundant requirements

A requirement is redundant if the others imply it: then the conjunction of all has the same
automaton language as the conjunction of all but this one. An analysis is written as an inquiry,
which knows nothing of the oracle that will answer it. So every request is on record.
-/

namespace ProcessLogic

/-- The text `(f1) & (f2) & …`, or `true` for no formulas. -/
def conjunction (formulas : List String) : String :=
  if formulas.isEmpty then "true"
  else " & ".intercalate (formulas.map fun f => "(" ++ f ++ ")")

/-- Why redundancy could not be decided: for all requirements, or without one of them. -/
inductive RedundancyError
  | model (source : OracleError)
  | withoutConstraint (index : Nat) (template : String) (source : OracleError)
  | comparison (index : Nat) (template : String) (source : Violation)
  deriving DecidableEq

namespace RedundancyError

/-- The message of a redundancy error. -/
def message : RedundancyError → String
  | .model source => "failed to build the automaton of the whole model: " ++ source.message
  | .withoutConstraint index template source =>
    "failed to build the automaton without constraint " ++ toString index ++ " (" ++ template ++
      "): " ++ source.message
  | .comparison index template source =>
    "failed to compare the automaton without constraint " ++ toString index ++ " (" ++
      template ++ "): " ++ source.message

/-- The requirement that was left out when the error happened. -/
def index? : RedundancyError → Option Nat
  | .model _ => none
  | .withoutConstraint index .. => some index
  | .comparison index .. => some index

end RedundancyError

/-- What came of an analysis, and the formulas that were asked for. -/
structure Consultation (ε α : Type) where
  requests : List String
  outcome : Except ε α

/-- An analysis without its oracle: it has an outcome, or it asks for the automaton of a formula
and goes on with the answer. It has no other way to an automaton. -/
inductive Inquiry (ε α : Type)
  | settled (outcome : Except ε α)
  | asks (request : String) (next : Except OracleError Automaton → Inquiry ε α)

namespace Inquiry

variable {ε ε' α β : Type}

/-- Lets an oracle answer, and keeps every request. -/
def run (oracle : Oracle) : Inquiry ε α → Consultation ε α
  | .settled outcome => ⟨[], outcome⟩
  | .asks request next =>
    let rest := (next (oracle.automaton request)).run oracle
    ⟨request :: rest.requests, rest.outcome⟩

/-- Changes the outcome. -/
def map (f : Except ε α → Except ε' β) : Inquiry ε α → Inquiry ε' β
  | .settled outcome => .settled (f outcome)
  | .asks request next => .asks request fun answer => (next answer).map f

end Inquiry

namespace Requirement

/-- The conjunction of the formulas of some requirements. -/
def conjoin (requirements : List Requirement) : String :=
  conjunction (requirements.map (·.formula))

/-- Of requirements with one formula, keeps the first. -/
def firstPerFormula (requirements : List Requirement) : List Requirement :=
  requirements.foldl
    (fun kept r => if kept.any (·.formula == r.formula) then kept else kept ++ [r]) []

/-- Decides for each of some requirements, given with their places, whether the others imply
it; `whole` is the automaton of all. -/
def impliedAt (whole : Automaton) (all : List Requirement) :
    List (Requirement × Nat) → Inquiry RedundancyError (List Requirement)
  | [] => .settled (.ok [])
  | (r, index) :: rest =>
    .asks (conjoin (all.eraseIdx index)) fun
      | .error source => .settled (.error (.withoutConstraint index r.template source))
      | .ok others =>
        match whole.counterexample others with
        | .error source => .settled (.error (.comparison index r.template source))
        | .ok word => (impliedAt whole all rest).map fun outcome =>
          outcome.map fun found => if word.isNone then r :: found else found

/-- The redundant requirements, each formula once, in their order; `whole` is the automaton of
all. -/
def redundantGiven (whole : Automaton) (all : List Requirement) :
    Inquiry RedundancyError (List Requirement) :=
  (impliedAt whole all all.zipIdx).map fun outcome => outcome.map firstPerFormula

/-- What the search for redundant requirements asks. -/
def redundancyInquiry (all : List Requirement) : Inquiry RedundancyError (List Requirement) :=
  if all.isEmpty then .settled (.ok [])
  else
    .asks (conjoin all) fun
      | .error source => .settled (.error (.model source))
      | .ok whole => redundantGiven whole all

/-- The redundant requirements. -/
def redundant (oracle : Oracle) (all : List Requirement) :
    Consultation RedundancyError (List Requirement) :=
  (redundancyInquiry all).run oracle

end Requirement

end ProcessLogic
