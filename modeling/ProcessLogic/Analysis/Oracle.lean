import ProcessLogic.Automaton.Reachable
import ProcessLogic.Compiler
import ProcessLogic.Description.Reader

/-!
# Asking a compiler for automata

An analysis asks for automata by the text of a formula and gets the text of a description,
which it reads. Any function can answer; the compiler of this library is one.
-/

namespace ProcessLogic

/-- A formula that could not be compiled. -/
structure CompilerFailure where
  formula : String
  reason : String
  deriving DecidableEq

/-- The message of a failure. -/
def CompilerFailure.message (f : CompilerFailure) : String :=
  "could not compile `" ++ f.formula ++ "`: " ++ f.reason

/-- Answers the text of a formula with the description of its automaton. -/
abbrev Oracle := String → Except CompilerFailure String

/-- Why an oracle gave no automaton. -/
inductive OracleError
  | compiler (failure : CompilerFailure)
  | description (error : Description.ReadError)
  deriving DecidableEq

/-- The message of an oracle error. -/
def OracleError.message : OracleError → String
  | .compiler failure => failure.message
  | .description error => error.message

/-- The compiler as an oracle. -/
def Compiler.oracle (c : Compiler) : Oracle := fun formula =>
  match c.compile formula with
  | .ok description => .ok description
  | .error error => .error ⟨formula, error.message⟩

namespace Oracle

/-- The automaton of a formula. -/
def automaton (oracle : Oracle) (formula : String) : Except OracleError Automaton :=
  match oracle formula with
  | .error failure => .error (.compiler failure)
  | .ok description =>
    match Description.parse description with
    | .ok automaton => .ok automaton
    | .error error => .error (.description error)

/-- Whether some trace satisfies a formula. -/
def isSatisfiable (oracle : Oracle) (formula : String) : Except OracleError Bool :=
  (oracle.automaton formula).map fun automaton => !automaton.isEmpty

end Oracle

end ProcessLogic
