import Mathlib.Data.List.Basic
import ProcessLogic.Proofs.Collection.FirstOccurrence
import ProcessLogic.Proofs.Model.Line

/-!
# Reading line after line

Every line is read by itself: its number goes into what it says and into the error that it makes,
and nowhere else. So a text that is put below another is read as it is alone, with the numbers of
its lines moved down.
-/

namespace ProcessLogic

open Text

/-- The error, `k` lines further down. -/
def ModelError.below (k : Nat) (e : ModelError) : ModelError := { e with line := k + e.line }

/-- The constraint, `k` lines further down. -/
def Constraint.below (k : Nat) (c : Constraint) : Constraint := { c with line := k + c.line }

namespace Line

/-- What the line says, `k` lines further down. -/
def below (k : Nat) : Line → Line
  | .nothing => .nothing
  | .activity name => .activity name
  | .constraint c => .constraint (c.below k)

/-- Activities are the same further down. -/
theorem filterMap_activity?_below (k : Nat) (lines : List Line) :
    (lines.map (below k)).filterMap activity? = lines.filterMap activity? := by
  rw [List.filterMap_map]
  refine List.filterMap_congr fun line _ => ?_
  cases line <;> rfl

/-- Constraints are the same further down, but for their lines. -/
theorem filterMap_stated?_below (k : Nat) (lines : List Line) :
    (lines.map (below k)).filterMap stated? =
      (lines.filterMap stated?).map (Constraint.below k) := by
  rw [List.filterMap_map, List.map_filterMap]
  refine List.filterMap_congr fun line _ => ?_
  cases line <;> rfl

/-- A constraint is read the same way further down, but for its line. -/
theorem constraint?_below (k number : Nat) (line : List Char) :
    constraint? (k + number) line = (constraint? number line).map (Constraint.below k) := by
  rw [constraint?, constraint?]
  split
  · rfl
  · rw [Option.map_map]
    rfl

/-- The number of a line decides only where it says something. -/
theorem read_below (k number : Nat) (raw : List Char) :
    read (k + number) raw = ((read number raw).mapError (ModelError.below k)).map (below k) := by
  rw [read, read, constraint?_below]
  split
  · rfl
  split
  · rfl
  · rfl
  split
  · rfl
  cases constraint? number (trim raw) with
  | some c => rfl
  | none => dsimp only [Option.map_none]; split <;> rfl

/-- Reads lines that are numbered from `first` on. -/
def readFrom (first : Nat) (raws : List (List Char)) : Except ModelError (List Line) :=
  (raws.zipIdx first).mapM fun (raw, number) => read number raw

/-- Lines are read one by one, each with its number. -/
theorem readFrom_cons (first : Nat) (raw : List Char) (raws : List (List Char)) :
    readFrom first (raw :: raws) = (do
      let line ← read first raw
      let lines ← readFrom (first + 1) raws
      pure (line :: lines)) := by
  rw [readFrom, List.zipIdx_cons, List.mapM_cons]
  rfl

/-- Lines at the end are read with the numbers after those before them. -/
theorem readFrom_append (first : Nat) (raws raws' : List (List Char)) :
    readFrom first (raws ++ raws') = (do
      let lines ← readFrom first raws
      let lines' ← readFrom (first + raws.length) raws'
      pure (lines ++ lines')) := by
  rw [readFrom, List.zipIdx_append, List.mapM_append]
  rfl

/-- Lines are read the same way further down, but for their numbers. -/
theorem readFrom_below (k first : Nat) (raws : List (List Char)) :
    readFrom (k + first) raws =
      ((readFrom first raws).mapError (ModelError.below k)).map (List.map (below k)) := by
  induction raws generalizing first with
  | nil => rfl
  | cons raw raws ih =>
      rw [readFrom_cons, readFrom_cons, read_below, Nat.add_assoc, ih]
      cases read first raw with
      | error e => rfl
      | ok line => cases readFrom (first + 1) raws <;> rfl

end Line

namespace ProcessModel

/-- How many lines a text has. -/
def lineCount (text : String) : Nat := 1 + text.toList.count '\n'

/-- A model is what its lines say, read from the first one on. -/
theorem parse_eq (text : String) :
    parse text = (Line.readFrom 1 (text.toList.splitOn '\n')).map ofLines := by
  rw [parse, splitOn_eq]
  rfl

/-- A model has the activities declared, in order of first occurrence, and the constraints. -/
theorem ofLines_eq (lines : List Line) : ofLines lines =
    { activities := (lines.filterMap Line.activity?).eraseDups
      constraints := lines.filterMap Line.stated? } := by
  rw [ofLines, Roster.toList_ofList]

/-- What the lines below others state is added to what those state. -/
theorem ofLines_append_below (k : Nat) (above below : List Line) :
    ofLines (above ++ below.map (Line.below k)) =
      { activities := ((ofLines above).activities ++ (ofLines below).activities).eraseDups
        constraints := (ofLines above).constraints ++
          (ofLines below).constraints.map (Constraint.below k) } := by
  rw [ofLines_eq, ofLines_eq, ofLines_eq, List.filterMap_append, List.filterMap_append,
    Line.filterMap_activity?_below, Line.filterMap_stated?_below,
    Roster.eraseDups_append_eraseDups]

/-- A text below another is read after it and as it is alone, with the lines numbered on: the first
error of the two counts, else the activities of both are declared, each once and where it was first
declared, and the constraints of the second follow those of the first. -/
theorem parse_append_newline (upper lower : String) :
    parse (upper ++ "\n" ++ lower) =
      match parse upper, parse lower with
      | .error e, _ => .error e
      | .ok _, .error e => .error (e.below (lineCount upper))
      | .ok above, .ok below => .ok
        { activities := (above.activities ++ below.activities).eraseDups
          constraints := above.constraints ++
            below.constraints.map (Constraint.below (lineCount upper)) } := by
  have hsplit : (upper ++ "\n" ++ lower).toList.splitOn '\n' =
      upper.toList.splitOn '\n' ++ lower.toList.splitOn '\n' := by
    rw [String.toList_append, String.toList_append, List.append_assoc]
    exact List.splitOn_append_cons_self _ _
  have hnumber : 1 + (upper.toList.splitOn '\n').length = lineCount upper + 1 := by
    rw [length_splitOn, lineCount]
    omega
  rw [parse_eq, parse_eq, parse_eq, hsplit, Line.readFrom_append, hnumber, Line.readFrom_below]
  cases Line.readFrom 1 (upper.toList.splitOn '\n') with
  | error e => rfl
  | ok above =>
      cases Line.readFrom 1 (lower.toList.splitOn '\n') with
      | error e => rfl
      | ok below => exact congrArg Except.ok (ofLines_append_below _ above below)

/-- A line break counts for the line that it ends, and a repeated activity for its first line. -/
example : parse "activity B\r\nInit[B]\n\nactivity A\nactivity B" =
    .ok ⟨["B", "A"], [⟨"Init", ["B"], [], 2⟩]⟩ := by cbv

end ProcessModel

end ProcessLogic
