import ProcessLogic.Options.Basic
import ProcessLogic.Text.Quoted
import ProcessLogic.Toml.Document

/-!
# Reading options

Options are written as a TOML document with the keys `semantics` and `max-states`, both of
which may be missing. The first key that is unknown or has a wrong value is reported.
-/

namespace ProcessLogic

open Toml (Value Entries)

/-- Why a text gives no options: it is no TOML document, or its content is wrong. -/
inductive OptionsError
  | malformed
  | content (message : String)
  deriving DecidableEq

/-- How messages write a number: a finite one has a point in it. -/
def Toml.Number.text : Toml.Number → String
  | .finite negative x => (if negative then "-" else "") ++ x.shortest.positional
  | .infinite negative => (if negative then "-" else "") ++ "inf"
  | .nan => "NaN"

/-- How messages describe a value that is no count. -/
def Toml.Value.described : Value → String
  | .string text => "string " ++ Text.quoted text
  | .integer i => "integer `" ++ toString i ++ "`"
  | .float x => "floating point `" ++ x.text ++ "`"
  | .boolean b => "boolean `" ++ toString b ++ "`"
  | .datetime => "map"
  | .array _ => "sequence"
  | .table .. => "map"
  | .tables _ => "sequence"

/-- How messages name the type of a value. -/
def Toml.Value.typeName : Value → String
  | .string _ => "string"
  | .integer _ => "integer"
  | .float _ => "float"
  | .boolean _ => "boolean"
  | .datetime => "datetime"
  | .array _ => "array"
  | .table .inlined _ => "inline table"
  | .table .. => "table"
  | .tables _ => "array of tables"

namespace AnalysisOptions

/-- A number of states. -/
def readCount : Value → Except OptionsError Nat
  | .integer (.ofNat n) => .ok n
  | .integer i =>
    .error (.content ("invalid value: " ++ (Value.integer i).described ++ ", expected usize"))
  | v => .error (.content ("invalid type: " ++ v.described ++ ", expected usize"))

/-- A semantics by its keyword. -/
def readKeyword (word : String) : Except OptionsError EventSemantics :=
  match EventSemantics.ofKeyword? word with
  | some s => .ok s
  | none =>
    .error (.content ("unknown variant `" ++ word ++ "`, expected `single` or `unrestricted`"))

/-- A keyword that is written as a key has an empty value. Only rows under headers are called an
array. -/
def checkEmpty : Value → Except OptionsError Unit
  | .table _ [] => .ok ()
  | .array [] => .ok ()
  | .tables [] => .ok ()
  | .table .. => .error (.content "expected empty table")
  | .array _ => .error (.content "expected empty table")
  | .tables _ => .error (.content "expected empty array")
  | v => .error (.content ("expected table, found " ++ v.typeName))

/-- A semantics: a keyword, or a table whose only key is one. -/
def readSemantics : Value → Except OptionsError EventSemantics
  | .string word => readKeyword word
  | .table _ [] => .error (.content "wanted exactly 1 element, found 0 elements")
  | .table _ [(word, v)] => do
    let s ← readKeyword word
    checkEmpty v
    return s
  | .table _ _ => .error (.content "wanted exactly 1 element, more than 1 element")
  | _ => .error (.content "wanted string or table")

/-- Reads one entry of the document. -/
def readEntry (options : AnalysisOptions) : String × Value → Except OptionsError AnalysisOptions
  | ("semantics", v) => do return { options with semantics := ← readSemantics v }
  | ("max-states", v) => do return { options with maxStates := ← readCount v }
  | (key, _) => .error (.content
      ("unknown field `" ++ key ++ "`, expected `semantics` or `max-states`"))

/-- Reads options. -/
def parse (text : String) : Except OptionsError AnalysisOptions :=
  match Toml.parse text with
  | none => .error .malformed
  | some entries => entries.foldlM readEntry {}

end AnalysisOptions

end ProcessLogic
