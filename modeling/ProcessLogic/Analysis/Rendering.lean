import ProcessLogic.Analysis.Report

/-!
# Reports as text

A report is written for people, or as a JSON object for programs.
-/

namespace ProcessLogic

namespace Json

/-- A control character by its number in four hexadecimal digits. -/
def numbered (c : Char) : List Char :=
  let digits := Nat.toDigits 16 c.toNat
  ['\\', 'u'] ++ List.replicate (4 - digits.length) '0' ++ digits

/-- One character of a JSON string. -/
def escapeChar (c : Char) : List Char :=
  if c = '"' then ['\\', '"']
  else if c = '\\' then ['\\', '\\']
  else if c = '\n' then ['\\', 'n']
  else if c = '\r' then ['\\', 'r']
  else if c = '\t' then ['\\', 't']
  else if c = '\x08' then ['\\', 'b']
  else if c = '\x0c' then ['\\', 'f']
  else if c < ' ' then numbered c
  else [c]

/-- A JSON string. -/
def string (s : String) : String := .ofList ('"' :: s.toList.flatMap escapeChar ++ ['"'])

/-- Things between brackets, each on a line of its own and set in by `indent` blanks and two
more. -/
def block (opening closing : String) (indent : Nat) (things : List String) : String :=
  if things.isEmpty then opening ++ closing
  else
    let margin := String.ofList (List.replicate indent ' ')
    let lines := things.map fun thing => "\n" ++ margin ++ "  " ++ thing
    opening ++ ",".intercalate lines ++ "\n" ++ margin ++ closing

/-- A JSON array. -/
def array (indent : Nat) (things : List String) : String := block "[" "]" indent things

/-- A JSON object. -/
def object (indent : Nat) (fields : List (String × String)) : String :=
  block "\x7b" "\x7d" indent (fields.map fun (key, value) => string key ++ ": " ++ value)

end Json

namespace Requirement

/-- The template with its activities, and the formula. -/
def line (r : Requirement) : String :=
  "  " ++ r.template ++ "[" ++ ", ".intercalate r.activities ++ "]  " ++ r.formula ++ "\n"

/-- The requirement as a JSON object. -/
def json (indent : Nat) (r : Requirement) : String :=
  Json.object indent [("template", Json.string r.template),
    ("activities", Json.array (indent + 2) (r.activities.map Json.string)),
    ("formula", Json.string r.formula)]

end Requirement

namespace Report

/-- The report for people. -/
def text (report : Report) : String :=
  match report.error with
  | some error => "error: " ++ error ++ "\n"
  | none =>
    "satisfiable: " ++ (if report.satisfiable then "yes" else "no") ++ "\n" ++
      if report.redundant.isEmpty then "no redundant constraints\n"
      else
        "redundant constraints (" ++ toString report.redundant.length ++ "):\n" ++
          String.join (report.redundant.map Requirement.line)

/-- The report for programs. -/
def json (report : Report) : String :=
  let error := match report.error with
    | some error => [("error", Json.string error)]
    | none => []
  Json.object 0 ([("success", toString report.success),
    ("satisfiable", toString report.satisfiable),
    ("redundant_constraints", Json.array 2 (report.redundant.map (Requirement.json 4)))] ++
      error) ++ "\n"

end Report

end ProcessLogic
