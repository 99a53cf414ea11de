import ProcessLogic.Proofs.Model.Reading

/-!
# Conditions and the reading of a line

What follows the first bar of a line is no part of its head, so conditions never change what a
constraint with a head is about. A line without a head is passed over if there is a colon anywhere
in it, behind the bar too: there, and nowhere else, conditions decide whether a line is refused.
-/

namespace ProcessLogic

open Text

namespace Line

variable {word head conditions : List Char} {number : Nat}

section Words

/-- Blanks at the end do not hide a word in front. -/
theorem opens_trim {init : List Char} {last : Char} (hlast : isBlank last = false)
    (h : Opens (init ++ [last]) (trimLeft head)) : Opens (init ++ [last]) (trim head) := by
  obtain ⟨rest, heq, hblank⟩ := h
  refine ⟨trimRight rest, ?_, fun c hc => hblank c ?_⟩
  · rw [trim, heq, List.append_assoc, List.singleton_append, trimRight_append_cons hlast,
      List.append_assoc, List.singleton_append]
  · obtain ⟨after, hrest⟩ := trimRight_prefix rest
    rw [← hrest, List.head?_append, Option.mem_def.mp hc]
    rfl

/-- Conditions put no word in front of a line. -/
theorem not_opens_conditions (init : List Char) {last : Char} (hlast : isBlank last = false)
    (hword : '|' ∉ init ++ [last]) (h : ¬ Opens (init ++ [last]) (trim head)) :
    ¬ Opens (init ++ [last]) (trim (head ++ '|' :: conditions)) := by
  rw [trim_append_cons (by decide)]
  refine not_opens_append_cons (by decide) hword fun c rest heq => ?_
  by_contra hc
  refine h (opens_trim hlast ⟨c :: rest, heq, ?_⟩)
  simpa using hc

end Words

/-- The head alone decides about a line with conditions, but for a colon. -/
theorem read_conditions (hbar : '|' ∉ head) (hactivity : ¬ Opens "activity".toList (trim head))
    (hbind : ¬ Opens "bind".toList (trim head)) :
    read number (head ++ '|' :: conditions) =
      match head? head with
      | some (template, activities) => .ok (.constraint
        { template, activities, line := number
          conditions := Line.conditions (conditions.splitOn '|') })
      | none =>
        if ':' ∈ head ∨ ':' ∈ conditions then .ok .nothing
        else .error ⟨number, .ofList (trim (head ++ '|' :: conditions))⟩ := by
  have hline : trim (head ++ '|' :: conditions) =
      trimLeft head ++ '|' :: trimRight conditions := trim_append_cons (by decide)
  have hne : trim (head ++ '|' :: conditions) ≠ [] := by simp [hline]
  have hparts : ((trim (head ++ '|' :: conditions)).splitOn '|').map trim =
      trim head :: (conditions.splitOn '|').map trim := by
    rw [map_trim_splitOn_trim (by decide), List.splitOn_append_cons_self_of_not_mem hbar,
      List.map_cons]
  have hcolon : ':' ∈ trim (head ++ '|' :: conditions) ↔ ':' ∈ head ∨ ':' ∈ conditions := by
    rw [mem_trim_iff (by decide)]
    simp
  have hactivity : ¬ Opens "activity".toList (trim (head ++ '|' :: conditions)) :=
    not_opens_conditions "activit".toList (by decide) (by decide) hactivity
  have hbind : ¬ Opens "bind".toList (trim (head ++ '|' :: conditions)) :=
    not_opens_conditions "bin".toList (by decide) (by decide) hbind
  rw [read_of_not_opens hne hactivity hbind, constraint?_of_parts hparts, head?_trim]
  cases head? head with
  | none => simp only [Option.map_none, hcolon]
  | some named => rfl

end Line

namespace ProcessModel

variable {h c : String}

/-- What a text states, apart from conditions and the numbers of lines. -/
def outline? (text : String) : Option (List String × List (String × List String)) :=
  (parse text).toOption.map fun model =>
    (model.activities, model.constraints.map fun c => (c.template, c.activities))

/-- A text of one line is read as that line. -/
theorem parse_of_notMem_newline {text : String} (h : '\n' ∉ text.toList) :
    parse text = (Line.read 1 text.toList).map fun line => ofLines [line] := by
  rw [parse_eq, List.splitOn_eq_singleton h, Line.readFrom_cons]
  cases Line.read 1 text.toList <;> rfl

section Conditions

variable (hbar : '|' ∉ h.toList) (hline : '\n' ∉ h.toList)
  (hactivity : ¬ Line.Opens "activity".toList (trim h.toList))
  (hbind : ¬ Line.Opens "bind".toList (trim h.toList))
include hbar hline hactivity hbind

/-- A line with conditions states what its head does, and skips it if the line has a colon. -/
theorem parse_conditions (hconditions : '\n' ∉ c.toList) :
    parse (h ++ "|" ++ c) =
      match Line.head? h.toList with
      | some (template, activities) => .ok ⟨[], [
        { template, activities, line := 1
          conditions := Line.conditions (c.toList.splitOn '|') }]⟩
      | none =>
        if ':' ∈ h.toList ∨ ':' ∈ c.toList then .ok ⟨[], []⟩
        else .error ⟨1, trimmed (h ++ "|" ++ c)⟩ := by
  have htext : (h ++ "|" ++ c).toList = h.toList ++ '|' :: c.toList := by
    rw [String.toList_append, String.toList_append, List.append_assoc]
    rfl
  have hnewline : '\n' ∉ (h ++ "|" ++ c).toList := by
    rw [htext]
    simp [hline, hconditions]
  rw [parse_of_notMem_newline hnewline, trimmed, htext,
    Line.read_conditions hbar hactivity hbind]
  cases Line.head? h.toList with
  | some named => rfl
  | none => dsimp only; split <;> rfl

/-- What such a line states apart from its conditions. -/
theorem outline?_conditions (hconditions : '\n' ∉ c.toList) :
    outline? (h ++ "|" ++ c) =
      match Line.head? h.toList with
      | some named => some ([], [named])
      | none => if ':' ∈ h.toList ∨ ':' ∈ c.toList then some ([], []) else none := by
  rw [outline?, parse_conditions hbar hline hactivity hbind hconditions]
  cases Line.head? h.toList with
  | some named => rfl
  | none => dsimp only; split <;> rfl

/-- The head of a line that is no declaration and no binding decides what the line states, whatever
its conditions are. Only if there is no head and no colon in front of the conditions, a colon in
them makes the difference between a line that is passed over and a line that is refused. -/
theorem outline_conditions_iff (hconditions : '\n' ∉ c.toList) :
    (outline? (h ++ "|" ++ c) = outline? (h ++ "|") ↔
      (∃ before inner, Line.IsHead h.toList before inner) ∨ ':' ∈ h.toList ∨ ':' ∉ c.toList) ∧
    (∀ before inner, Line.IsHead h.toList before inner →
      parse (h ++ "|" ++ c) = .ok ⟨[], [
        { template := .ofList (trim before), activities := Line.activityNames inner
          conditions := Line.conditions (c.toList.splitOn '|'), line := 1 }]⟩) ∧
    ((¬ ∃ before inner, Line.IsHead h.toList before inner) →
      parse (h ++ "|" ++ c) =
        if ':' ∈ h.toList ∨ ':' ∈ c.toList then .ok ⟨[], []⟩
        else .error ⟨1, trimmed (h ++ "|" ++ c)⟩) := by
  have hparse := parse_conditions hbar hline hactivity hbind hconditions
  refine ⟨?_, fun before inner hhead => ?_, fun hnone => ?_⟩
  · have hbare := outline?_conditions (c := "") hbar hline hactivity hbind (by simp)
    rw [String.append_empty] at hbare
    rw [hbare, outline?_conditions hbar hline hactivity hbind hconditions]
    cases hhead : Line.head? h.toList with
    | some named =>
        obtain ⟨before, inner, hisHead, -⟩ := Line.head?_eq_some_iff.mp hhead
        exact iff_of_true rfl (.inl ⟨before, inner, hisHead⟩)
    | none =>
        have hnone := Line.head?_eq_none_iff.mp hhead
        by_cases hfront : ':' ∈ h.toList <;> by_cases hback : ':' ∈ c.toList <;>
          simp [hnone, hfront, hback]
  · rw [hparse, Line.head?_eq_some_iff.mpr ⟨before, inner, hhead, rfl, rfl⟩]
  · rw [hparse, Line.head?_eq_none_iff.mpr hnone]

end Conditions

/-- A constraint whose brackets are the wrong way round is refused, but passed over as soon as a
condition has a colon. -/
theorem outline_conditions_iff_colon :
    outline? "Response]A, B[| A.amount: 10" ≠ outline? "Response]A, B[|" ∧
    parse "Response]A, B[| A.amount: 10" = .ok ⟨[], []⟩ := by
  have hnone := Line.head?_eq_none_iff.mp (by cbv : Line.head? "Response]A, B[".toList = none)
  obtain ⟨houtline, -, hparse⟩ := outline_conditions_iff (h := "Response]A, B[")
    (c := " A.amount: 10") (by decide) (by decide) (Line.afterWord?_eq_none_iff.mp (by decide))
    (Line.afterWord?_eq_none_iff.mp (by decide)) (by decide)
  refine ⟨fun heq => ?_, (hparse hnone).trans (if_pos (by decide))⟩
  obtain hhead | hcolon | hcolon := houtline.mp heq
  · exact hnone hhead
  · exact absurd hcolon (by decide)
  · exact absurd hcolon (by decide)

/-- So conditions do decide what some texts state. -/
theorem outline_depends_on_conditions :
    ¬ ∀ h c : String, '|' ∉ h.toList → '\n' ∉ h.toList →
      ¬ Line.Opens "activity".toList (trim h.toList) →
      ¬ Line.Opens "bind".toList (trim h.toList) → '\n' ∉ c.toList →
      outline? (h ++ "|" ++ c) = outline? (h ++ "|") := by
  intro hall
  have heq := hall "Response]A, B[" " A.amount: 10" (by decide) (by decide)
    (Line.afterWord?_eq_none_iff.mp (by decide)) (Line.afterWord?_eq_none_iff.mp (by decide))
    (by decide)
  have hpassed : outline? ("Response]A, B[" ++ "|" ++ " A.amount: 10") = some ([], []) := by cbv
  have hrefused : outline? ("Response]A, B[" ++ "|") = none := by cbv
  rw [hpassed, hrefused] at heq
  exact Option.some_ne_none _ heq

end ProcessModel

end ProcessLogic
