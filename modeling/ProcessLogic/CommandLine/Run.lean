import ProcessLogic.Analysis.Rendering
import ProcessLogic.CommandLine.Help
import ProcessLogic.Model.Reader
import ProcessLogic.Options.Reader

/-!
# Running a command

A command answers with an exit status and a text. Files are read through a function, so that a
run depends on nothing but its arguments and the files they name.
-/

namespace ProcessLogic.CommandLine

/-- The exit status and the text of a run. -/
structure Outcome where
  code : Nat
  output : String
  deriving DecidableEq

namespace Outcome

/-- Success with a text. -/
def success (output : String) : Outcome := ⟨0, output⟩

/-- Failure with a text that may be empty. -/
def failed (output : String) : Outcome := ⟨1, output⟩

end Outcome

/-- The options of a file; without a file, the usual ones. -/
def fileOptions (readFile : String → Option String) : Option String → Option AnalysisOptions
  | none => some {}
  | some path => (readFile path).bind fun text => (AnalysisOptions.parse text).toOption

/-- Options on the command line override those of the file. -/
def override (options : AnalysisOptions) (semantics : Option EventSemantics)
    (maxStates : Option Nat) : AnalysisOptions :=
  { semantics := semantics.getD options.semantics
    maxStates := maxStates.getD options.maxStates }

/-- Analyses a model file. -/
def runAnalyze (readFile : String → Option String) (path : String)
    (options : AnalysisOptions) (format : Format) : Outcome :=
  match (readFile path).bind fun text => (ProcessModel.parse text).toOption with
  | none => .failed ""
  | some model =>
    let report := Report.ofOutcome (model.analyze options)
    let output := match format with
      | .human => report.text
      | .json => report.json
    ⟨if report.success then 0 else 1, output⟩

/-- A template's name, arity and formula over two sample activities. -/
def templateLine (t : Template) : String :=
  let name := t.name
  let padding := String.ofList (List.replicate (24 - name.length) ' ')
  name ++ padding ++ " " ++ toString t.arity ++ "  " ++
    t.formulaText (proposition "A") (proposition "B") ++ "\n"

/-- Runs a command. -/
def Command.run (readFile : String → Option String) : Command → Outcome
  | .analyze model config semantics maxStates format =>
    match fileOptions readFile config with
    | none => .failed ""
    | some options => runAnalyze readFile model (override options semantics maxStates) format
  | .compile formula activities semantics maxStates =>
    let options := override {} semantics maxStates
    let compiler : Compiler :=
      { declared := activities, semantics := options.semantics, maxStates := options.maxStates }
    match compiler.compile formula with
    | .ok description => .success description
    | .error error => .failed (error.message ++ "\n")
  | .templates => .success (String.join (Template.catalog.map templateLine))

/-- What a command line without a command answers. -/
def Stop.outcome : Stop → Outcome
  | .usage => ⟨2, ""⟩
  | .help topic long => .success (helpText topic long)
  | .version => .success versionText

/-- The files that a command reads. -/
def Command.files : Command → List String
  | .analyze model config _ _ _ => config.toList ++ [model]
  | _ => []

/-- Runs a command line. -/
def run (readFile : String → Option String) (args : List String) : Outcome :=
  match parse args with
  | .ok command => command.run readFile
  | .error stop => stop.outcome

end ProcessLogic.CommandLine
