import ProcessLogic.Analysis.Redundancy
import ProcessLogic.Model.Basic
import ProcessLogic.Options.Basic

/-!
# Analysing a model

A model is analysed by expanding its constraints into formulas, and asking whether some trace
satisfies all of them and which of them the others imply. The automaton of the whole model is
built once and serves both questions.
-/

namespace ProcessLogic

/-- Why a model could not be analysed. -/
inductive AnalysisError
  | template (line : Nat) (source : TemplateError)
  | satisfiability (source : OracleError)
  | redundancy (source : RedundancyError)
  deriving DecidableEq

/-- The message of an analysis error. -/
def AnalysisError.message : AnalysisError → String
  | .template line source => "constraint on line " ++ toString line ++ ": " ++ source.message
  | .satisfiability source => "satisfiability check failed: " ++ source.message
  | .redundancy source => source.message

/-- The answer of an analysis. -/
structure Analysis where
  satisfiable : Bool
  redundant : List Requirement
  deriving DecidableEq

namespace Requirement

/-- What an analysis asks: the automaton of all requirements, and what the search for redundant
ones needs after it. -/
def analysisInquiry (all : List Requirement) : Inquiry AnalysisError Analysis :=
  .asks (conjoin all) fun
    | .error source => .settled (.error (.satisfiability source))
    | .ok whole => (redundantGiven whole all).map fun
      | .ok redundant => .ok ⟨!whole.isEmpty, redundant⟩
      | .error source => .error (.redundancy source)

/-- Analyses requirements with any oracle. -/
def analyze (oracle : Oracle) (all : List Requirement) :
    Consultation AnalysisError Analysis :=
  (analysisInquiry all).run oracle

end Requirement

namespace ProcessModel

/-- The constraints as formulas. -/
def requirements (model : ProcessModel) : Except AnalysisError (List Requirement) :=
  model.constraints.mapM fun c =>
    match Requirement.expand c.template c.activities with
    | .ok r => .ok r
    | .error source => .error (.template c.line source)

/-- The propositions of all declared and all constrained activities. -/
def propositions (model : ProcessModel) (requirements : List Requirement) : List String :=
  (model.activities ++ requirements.flatMap (·.activities)).map proposition

/-- The compiler for a model: it knows all propositions from the start, so all automata of one
analysis have the same labels. -/
def compiler (model : ProcessModel) (options : AnalysisOptions)
    (requirements : List Requirement) : Compiler :=
  { declared := model.propositions requirements
    semantics := options.semantics
    maxStates := options.maxStates }

/-- Analyses a model. -/
def analyze (model : ProcessModel) (options : AnalysisOptions) :
    Except AnalysisError Analysis := do
  let requirements ← model.requirements
  (Requirement.analyze (model.compiler options requirements).oracle requirements).outcome

end ProcessModel

/-- The report of an analysis. One that failed reports nothing but its error. -/
structure Report where
  success : Bool
  satisfiable : Bool
  redundant : List Requirement
  error : Option String
  deriving DecidableEq

/-- The report of an outcome. -/
def Report.ofOutcome : Except AnalysisError Analysis → Report
  | .ok analysis => ⟨true, analysis.satisfiable, analysis.redundant, none⟩
  | .error error => ⟨false, false, [], some error.message⟩

end ProcessLogic
