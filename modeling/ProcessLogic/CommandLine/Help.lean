import ProcessLogic.CommandLine.Arguments

/-!
# Help texts
-/

namespace ProcessLogic.CommandLine

/-- The name and number of the program. -/
def versionText : String := "declare-cli 0.2.0\n"

/-- The commands. -/
def programHelp : String :=
  "Usage: declare-check <COMMAND>\n\nCommands:\n" ++
    "  analyze    Check a model for satisfiability and redundant constraints\n" ++
    "  compile    Compile an LTLf formula and print the automaton description\n" ++
    "  templates  List the supported constraint templates\n" ++
    "  help       Print this message or the help of the given subcommand(s)\n" ++
    "\nOptions:\n  -h, --help     Print help\n  -V, --version  Print version\n"

/-- The values of the semantics option, one by one. -/
def semanticsValues : String :=
  "          Possible values:\n" ++
    "          - single:       At most one proposition holds per position: every event is " ++
    "exactly one activity, or an activity outside the universe\n" ++
    "          - unrestricted: Any subset of the propositions may hold at a position\n\n"

/-- The analyze command in short. -/
def analyzeSummary : String :=
  "Check a model for satisfiability and redundant constraints\n\n" ++
    "Usage: declare-check analyze [OPTIONS] <MODEL>\n\n" ++
    "Arguments:\n  <MODEL>  The .decl file to analyze\n\nOptions:\n" ++
    "      --config <CONFIG>          A .toml file with analysis options\n" ++
    "      --semantics <SEMANTICS>    [possible values: single, unrestricted]\n" ++
    "      --max-states <MAX_STATES>  Upper bound on the number of states of every compiled " ++
    "automaton\n" ++
    "  -f, --format <FORMAT>          [default: human] [possible values: human, json]\n" ++
    "  -h, --help                     Print help (see more with '--help')\n"

/-- The analyze command in full. -/
def analyzeHelp : String :=
  "Check a model for satisfiability and redundant constraints\n\n" ++
    "Exits with status 1 if the analysis could not be completed.\n\n" ++
    "Usage: declare-check analyze [OPTIONS] <MODEL>\n\n" ++
    "Arguments:\n  <MODEL>\n          The .decl file to analyze\n\nOptions:\n" ++
    "      --config <CONFIG>\n          A .toml file with analysis options\n          \n" ++
    "          Flags given on the command line take precedence over the file.\n\n" ++
    "      --semantics <SEMANTICS>\n" ++ semanticsValues ++
    "      --max-states <MAX_STATES>\n" ++
    "          Upper bound on the number of states of every compiled automaton\n\n" ++
    "  -f, --format <FORMAT>\n          [default: human]\n" ++
    "          [possible values: human, json]\n\n" ++
    "  -h, --help\n          Print help (see a summary with '-h')\n"

/-- The compile command in short. -/
def compileSummary : String :=
  "Compile an LTLf formula and print the automaton description\n\n" ++
    "Usage: declare-check compile [OPTIONS] <FORMULA>\n\n" ++
    "Arguments:\n  <FORMULA>  \n\nOptions:\n" ++
    "      --activities <ACTIVITIES>  Extra propositions to include in the alphabet\n" ++
    "      --semantics <SEMANTICS>    Defaults to every valuation of the propositions " ++
    "[possible values: single, unrestricted]\n" ++
    "      --max-states <MAX_STATES>  \n" ++
    "  -h, --help                     Print help (see more with '--help')\n"

/-- The compile command in full. -/
def compileHelp : String :=
  "Compile an LTLf formula and print the automaton description\n\n" ++
    "Usage: declare-check compile [OPTIONS] <FORMULA>\n\n" ++
    "Arguments:\n  <FORMULA>\n          \n\nOptions:\n" ++
    "      --activities <ACTIVITIES>\n" ++
    "          Extra propositions to include in the alphabet\n\n" ++
    "      --semantics <SEMANTICS>\n" ++
    "          Defaults to every valuation of the propositions\n\n" ++ semanticsValues ++
    "      --max-states <MAX_STATES>\n          \n\n" ++
    "  -h, --help\n          Print help (see a summary with '-h')\n"

/-- The templates command. -/
def templatesHelp : String :=
  "List the supported constraint templates\n\nUsage: declare-check templates\n\n" ++
    "Options:\n  -h, --help  Print help\n"

/-- The help command. -/
def helpHelp : String :=
  "Print this message or the help of the given subcommand(s)\n\n" ++
    "Usage: declare-check help [COMMAND]...\n\n" ++
    "Arguments:\n  [COMMAND]...  Print help for the subcommand(s)\n"

/-- The help on a topic. -/
def helpText : Topic → Bool → String
  | .program, _ => programHelp
  | .help, _ => helpHelp
  | .analyze, true => analyzeHelp
  | .analyze, false => analyzeSummary
  | .compile, true => compileHelp
  | .compile, false => compileSummary
  | .templates, _ => templatesHelp

end ProcessLogic.CommandLine
