import ProcessLogic.Automaton.Basic
import ProcessLogic.Description.Token

/-!
# Writing the description of an automaton

Accepting states are listed before the others, each group under its shape, then the initial
state is marked and all edges follow. Names are quoted unless they read as one identifier, so
that every name, with whatever characters, is read back as it was.
-/

namespace ProcessLogic.Description

/-- Puts a backslash before quotes and backslashes. -/
def escape (s : String) : String :=
  .ofList (s.toList.flatMap fun c => if c = '"' || c = '\\' then ['\\', c] else [c])

/-- A quoted string. -/
def inQuotes (s : String) : String := "\"" ++ escape s ++ "\""

/-- Whether a name is read as one identifier. -/
def isPlain (name : String) : Bool :=
  !name.isEmpty && name.toList.all Token.isIdentChar &&
    !(["digraph", "node", "edge"].contains name)

/-- A name as it is written. -/
def writeName (name : String) : String := if isPlain name then name else inQuotes name

/-- The line that lists states of one shape; nothing if there are none. -/
def shapeLine (shape : String) (names : List String) : String :=
  if names.isEmpty then ""
  else " node [shape = " ++ shape ++ "]; " ++ "; ".intercalate (names.map writeName) ++ ";\n"

/-- The line of an edge. -/
def edgeLine (source : String) (label : Label) (target : String) : String :=
  " " ++ writeName source ++ " -> " ++ writeName target ++ " [label=" ++ inQuotes label ++ "];\n"

/-- What stands before the states. -/
def heading : String :=
  "digraph MONA_DFA \x7b\n rankdir = LR;\n center = true;\n size = \"7.5,10.5\";\n" ++
    " edge [fontname = Courier];\n node [height = .5, width = .5];\n"

/-- The description of an automaton. -/
def write (a : Automaton) : String :=
  let names := (List.range a.size).filter
  heading ++ shapeLine "doublecircle" ((names a.isFinal).map a.stateName) ++
    shapeLine "circle" ((names fun s => !a.isFinal s).map a.stateName) ++
    " init [shape = plaintext, label = \"\"];\n" ++
    " init -> " ++ writeName (a.stateName a.initial) ++ ";\n" ++
    String.join (a.transitions.map fun (s, label, t) =>
      edgeLine (a.stateName s) label (a.stateName t)) ++
    "\x7d\n"

end ProcessLogic.Description
