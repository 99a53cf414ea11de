/-!
# Sorted lists without repeats

A finite set is kept as the increasing list of its elements, so equal sets are equal lists.
-/

namespace ProcessLogic.Sorted

/-- Drops every element that repeats the one before it. -/
def dropRepeats {α : Type} [BEq α] : List α → List α
  | [] => []
  | [a] => [a]
  | a :: b :: rest => if a == b then dropRepeats (b :: rest) else a :: dropRepeats (b :: rest)

/-- The distinct elements of a list in increasing order. -/
def distinct {α : Type} [BEq α] (le : α → α → Bool) (as : List α) : List α :=
  dropRepeats (as.mergeSort le)

/-- The lexicographic order on lists: at the first difference the smaller element decides, and
a list comes before its extensions. -/
def lexLe {α : Type} [BEq α] (le : α → α → Bool) : List α → List α → Bool
  | [], _ => true
  | _ :: _, [] => false
  | a :: as, b :: bs => if a == b then lexLe le as bs else le a b

/-- The distinct strings of a list, ordered by their code points. -/
def distinctStrings (names : List String) : List String :=
  distinct (fun a b => decide (a ≤ b)) names

end ProcessLogic.Sorted
