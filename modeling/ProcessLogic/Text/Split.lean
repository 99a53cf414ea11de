/-!
# Splitting text at a separator
-/

namespace ProcessLogic.Text

/-- The parts of a text between separators: one more than there are separators. -/
def splitOn (separator : Char) (cs : List Char) : List (List Char) :=
  cs.foldr
    (fun c parts =>
      if c = separator then [] :: parts
      else
        match parts with
        | [] => [[c]]
        | part :: parts => (c :: part) :: parts)
    [[]]

/-- What stands before the first `mark` and what stands after it. -/
def cutFirst (mark : Char) (cs : List Char) : Option (List Char × List Char) :=
  match cs.dropWhile (· != mark) with
  | [] => none
  | _ :: after => some (cs.takeWhile (· != mark), after)

/-- What stands before the last `mark` and what stands after it. -/
def cutLast (mark : Char) (cs : List Char) : Option (List Char × List Char) :=
  (cutFirst mark cs.reverse).map fun (after, before) => (before.reverse, after.reverse)

end ProcessLogic.Text
