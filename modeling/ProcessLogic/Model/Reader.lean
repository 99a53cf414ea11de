import ProcessLogic.Collection.Roster
import ProcessLogic.Model.Basic
import ProcessLogic.Text.Blank
import ProcessLogic.Text.Split

/-!
# Reading models

A model is written line by line. `activity Name` declares an activity,
`Template[A, B] | condition | …` states a constraint, and lines that bind attributes or give
their domains are passed over. Any other line that is not blank is an error.
-/

namespace ProcessLogic

open Text

/-- What a line says. -/
inductive Line
  | nothing
  | activity (name : String)
  | constraint (c : Constraint)
  deriving DecidableEq

/-- A line that says nothing known, with its 1-based number. -/
structure ModelError where
  line : Nat
  text : String
  deriving DecidableEq

/-- The message of a model error. -/
def ModelError.message (e : ModelError) : String :=
  "line " ++ toString e.line ++ ": cannot read `" ++ e.text ++ "`"

namespace Line

/-- The rest of a trimmed line that starts with a word of its own. -/
def afterWord? (word line : List Char) : Option (List Char) :=
  if word.isPrefixOf line then
    match line.drop word.length with
    | [] => some []
    | c :: cs => if isBlank c then some (trim (c :: cs)) else none
  else none

/-- The activities between brackets. -/
def activityNames (inner : List Char) : List String :=
  if (trim inner).isEmpty then []
  else (splitOn ',' (trim inner)).map fun name => .ofList (trim name)

/-- The template and the activities of the head of a constraint, `Template[A, B]`. -/
def head? (head : List Char) : Option (String × List String) :=
  match cutFirst '[' (trim head) with
  | none => none
  | some (before, after) =>
    match cutLast ']' after with
    | none => none
    | some (inner, rest) =>
      let template := trim before
      if !rest.all isBlank || template.isEmpty || template.contains ':' then none
      else some (.ofList template, activityNames inner)

/-- The conditions of a constraint: the parts after its head that are not blank. -/
def conditions (parts : List (List Char)) : List String :=
  ((parts.map trim).filter fun part => !part.isEmpty).map .ofList

/-- A constraint. -/
def constraint? (number : Nat) (line : List Char) : Option Constraint :=
  match splitOn '|' line with
  | [] => none
  | head :: parts => (head? head).map fun (template, activities) =>
    { template, activities, conditions := conditions parts, line := number }

/-- What the line of a number says. -/
def read (number : Nat) (raw : List Char) : Except ModelError Line :=
  let line := trim raw
  let unreadable := Except.error ⟨number, .ofList line⟩
  if line.isEmpty then .ok .nothing
  else
    match afterWord? "activity".toList line with
    | some [] => unreadable
    | some name => .ok (.activity (.ofList name))
    | none =>
      if (afterWord? "bind".toList line).isSome then .ok .nothing
      else
        match constraint? number line with
        | some c => .ok (.constraint c)
        | none => if line.contains ':' then .ok .nothing else unreadable

/-- The activity that a line declares. -/
def activity? : Line → Option String
  | .activity name => some name
  | _ => none

/-- The constraint that a line states. -/
def stated? : Line → Option Constraint
  | .constraint c => some c
  | _ => none

end Line

namespace ProcessModel

/-- The model that lines state. -/
def ofLines (lines : List Line) : ProcessModel :=
  { activities := (Roster.ofList (lines.filterMap Line.activity?)).toList
    constraints := lines.filterMap Line.stated? }

/-- Reads a model. -/
def parse (text : String) : Except ModelError ProcessModel :=
  ((splitOn '\n' text.toList).zipIdx 1).mapM (fun (raw, number) => Line.read number raw)
    |>.map ofLines

end ProcessModel

end ProcessLogic
