import ProcessLogic.Proofs.Collection.Fold
import ProcessLogic.Proofs.Model.Reading
import ProcessLogic.Proofs.Text.Join

/-!
# Models as they are written

A model is documented as lines that declare activities and lines that state constraints. Whatever
names, templates and conditions hold, as long as no separator of its own place occurs in them, the
lines are read back as they were meant.
-/

namespace ProcessLogic

open Text

/-- A line of a model in its documented form. -/
inductive Entry
  | activity (name : String)
  | constraint (template : String) (activities conditions : List String)

namespace Entry

/-- The template of a constraint, and its activities in brackets. -/
def head (template : String) (activities : List String) : String :=
  template ++ "[" ++ ", ".intercalate activities ++ "]"

/-- The text of the line. -/
def write : Entry → String
  | .activity name => "activity " ++ name
  | .constraint template activities conditions =>
    " | ".intercalate (head template activities :: conditions)

/-- The activity that is declared. -/
def activity? : Entry → Option String
  | .activity name => some name
  | .constraint .. => none

/-- The constraint that is stated by the line of a number. -/
def constraint? (line : Nat) : Entry → Option Constraint
  | .activity _ => none
  | .constraint template activities conditions => some { template, activities, conditions, line }

/-- What the line of a number is meant to say. -/
def meant (line : Nat) : Entry → Line
  | .activity name => .activity name
  | .constraint template activities conditions =>
    .constraint { template, activities, conditions, line }

/-- A text without blanks at its ends and without some characters. -/
structure Plain (excluded : List Char) (s : String) : Prop where
  trimmed : trimmed s = s
  notMem : ∀ c ∈ excluded, c ∉ s.toList

/-- What the documentation demands of the parts of a constraint. No template reads as a declaration
or a binding, and an activity may have the empty name unless it stands alone. -/
structure Unambiguous (template : String) (activities conditions : List String) : Prop where
  template_plain : Plain ['[', '|', ':', '\n'] template
  template_ne : template ≠ ""
  template_word : ∀ word ∈ ["activity", "bind"], ∀ c rest,
    template.toList = word.toList ++ c :: rest → isBlank c = false
  activities_plain : ∀ a ∈ activities, Plain [',', '|', '\n'] a
  activities_ne : activities ≠ [""]
  conditions_plain : ∀ c ∈ conditions, Plain ['|', '\n'] c
  conditions_ne : ∀ c ∈ conditions, c ≠ ""

/-- What the documentation demands of a line. -/
def WellFormed : Entry → Prop
  | .activity name => Plain ['\n'] name ∧ name ≠ ""
  | .constraint template activities conditions => Unambiguous template activities conditions

instance (excluded : List Char) (s : String) : Decidable (Plain excluded s) :=
  decidable_of_iff (trimmed s = s ∧ (excluded.all fun c => !s.toList.contains c) = true)
    ⟨fun h => ⟨h.1, by simpa using h.2⟩, fun h => ⟨h.trimmed, by simpa using h.notMem⟩⟩

/-- A plain text has no blanks to trim. -/
theorem Plain.trim_eq {excluded : List Char} {s : String} (h : Plain excluded s) :
    trim s.toList = s.toList :=
  trimmed_eq_self_iff.mp h.trimmed

theorem toList_ne_nil {s : String} (h : s ≠ "") : s.toList ≠ [] :=
  fun hnil => h (String.toList_eq_nil_iff.mp hnil)

section Constraint

variable {template : String} {activities conditions : List String}

theorem toList_head (template : String) (activities : List String) :
    (head template activities).toList =
      template.toList ++ '[' :: ((", ".intercalate activities).toList ++ [']']) := by
  simp [head]

/-- A constraint is its head and its conditions with bars between. -/
theorem toList_write_constraint : (write (.constraint template activities conditions)).toList =
    " | ".toList.intercalate
      ((head template activities).toList :: conditions.map String.toList) := by
  rw [write, String.toList_intercalate, List.map_cons]

/-- The line starts with its template and the opening bracket. -/
theorem exists_write_constraint (template : String) (activities conditions : List String) :
    ∃ rest, (write (.constraint template activities conditions)).toList =
      template.toList ++ '[' :: rest := by
  rw [write, toList_intercalate_cons, toList_head, List.append_assoc, List.cons_append]
  exact ⟨_, rfl⟩

namespace Unambiguous

variable (h : Unambiguous template activities conditions)
include h

/-- No part of the line holds a character that is excluded from all of them. -/
theorem notMem_parts {c : Char} (hc : c ∈ ['|', '\n']) :
    ∀ part ∈ (head template activities).toList :: conditions.map String.toList, c ∉ part := by
  have hglue : ∀ c ∈ ['|', '\n'], c ∉ ", ".toList ∧ c ≠ '[' ∧ c ≠ ']' ∧
      c ∈ ['[', '|', ':', '\n'] ∧ c ∈ [',', '|', '\n'] := by simp
  obtain ⟨hcomma, hopen, hclose, hexcluded, hexcluded'⟩ := hglue c hc
  have hinner : c ∉ (", ".intercalate activities).toList := by
    rw [String.toList_intercalate]
    refine notMem_intercalate hcomma ?_
    intro part hpart
    obtain ⟨a, ha, rfl⟩ := List.mem_map.mp hpart
    exact (h.activities_plain a ha).notMem c hexcluded'
  have htemplate : c ∉ template.toList := h.template_plain.notMem c hexcluded
  refine List.forall_mem_cons.mpr ⟨?_, ?_⟩
  · rw [toList_head, List.mem_append, List.mem_cons, List.mem_append, List.mem_singleton]
    simp only [htemplate, hinner, hopen, hclose, or_self, not_false_eq_true]
  · intro part hpart
    obtain ⟨condition, hcondition, rfl⟩ := List.mem_map.mp hpart
    exact (h.conditions_plain condition hcondition).notMem c hc

/-- Only no name at all leaves nothing between the brackets. -/
theorem trim_intercalate_eq_nil_iff :
    trim (", ".intercalate activities).toList = [] ↔ activities = [] := by
  constructor
  · intro htrim
    match activities with
    | [] => rfl
    | [a] =>
        have ha := (h.activities_plain a List.mem_cons_self).trim_eq
        rw [String.intercalate_singleton, ha, String.toList_eq_nil_iff] at htrim
        exact absurd (congrArg (· :: []) htrim) h.activities_ne
    | a :: b :: rest =>
        have hcomma : ',' ∈ (", ".intercalate (a :: b :: rest)).toList := by
          rw [String.intercalate_cons_cons]
          simp
        rw [← mem_trim_iff (by decide), htrim] at hcomma
        exact nomatch hcomma
  · rintro rfl
    rfl

/-- The names between the brackets come back, empty ones too. -/
theorem activityNames_intercalate :
    Line.activityNames (", ".intercalate activities).toList = activities := by
  rw [Line.activityNames]
  by_cases hactivities : activities = []
  · rw [if_pos (by simpa using h.trim_intercalate_eq_nil_iff.mpr hactivities), hactivities]
  · have hparts : ((", ".intercalate activities).toList.splitOn ',').map trim =
        (activities.map String.toList).map trim := by
      rw [String.toList_intercalate]
      apply map_trim_splitOn_intercalate (by decide) [] [' '] (by simp) (by simp [isBlank])
        _ (by simpa using hactivities)
      intro part hpart
      obtain ⟨a, ha, rfl⟩ := List.mem_map.mp hpart
      exact (h.activities_plain a ha).notMem ',' (by simp)
    have hnames : ((activities.map String.toList).map trim).map String.ofList = activities := by
      rw [List.map_map, List.map_map]
      refine (List.map_congr_left fun a ha => ?_).trans (List.map_id activities)
      simp [(h.activities_plain a ha).trim_eq]
    have hsome : (trim (", ".intercalate activities).toList).isEmpty ≠ true := by
      rwa [ne_eq, List.isEmpty_iff, h.trim_intercalate_eq_nil_iff]
    rw [if_neg hsome, splitOn_eq]
    calc ((trim (", ".intercalate activities).toList).splitOn ',').map
          (fun name => String.ofList (trim name))
        = (((trim (", ".intercalate activities).toList).splitOn ',').map trim).map .ofList := by
          rw [List.map_map]
          rfl
      _ = activities := by rw [map_trim_splitOn_trim (by decide), hparts, hnames]

/-- A head has no blanks to trim. -/
theorem trim_head : trim (head template activities).toList = (head template activities).toList := by
  rw [toList_head, ← List.cons_append, ← List.append_assoc]
  exact trim_append_eq_self h.template_plain.trim_eq (toList_ne_nil h.template_ne) (by decide)
    (by simp)

/-- A head is read back as its template and activities. -/
theorem head?_head :
    Line.head? (head template activities).toList = some (template, activities) := by
  have htemplate := h.template_plain
  have hhead : Line.IsHead (head template activities).toList template.toList
      (", ".intercalate activities).toList := by
    refine ⟨?_, htemplate.notMem '[' (by simp), htemplate.notMem ':' (by simp), ?_⟩
    · rw [h.trim_head, toList_head]
    · rw [htemplate.trim_eq]
      exact toList_ne_nil h.template_ne
  refine Line.head?_eq_some_iff.mpr ⟨_, _, hhead, ?_, ?_⟩
  · rw [htemplate.trim_eq, String.ofList_toList]
  · rw [h.activityNames_intercalate]

/-- The bars divide the line into its parts. -/
theorem map_trim_splitOn_write :
    ((write (.constraint template activities conditions)).toList.splitOn '|').map trim =
      (head template activities).toList :: conditions.map String.toList := by
  have hconditions : (conditions.map String.toList).map trim = conditions.map String.toList := by
    rw [List.map_map]
    exact List.map_congr_left fun c hc => (h.conditions_plain c hc).trim_eq
  rw [toList_write_constraint]
  refine (map_trim_splitOn_intercalate (by decide) [' '] [' '] (by simp [isBlank]) (by simp [isBlank])
    (h.notMem_parts (by simp)) (by simp)).trans ?_
  rw [List.map_cons, h.trim_head, hconditions]

/-- A constraint that is written is read back with all its parts and the number of its line. -/
theorem constraint?_write (number : Nat) :
    Line.constraint? number (trim (write (.constraint template activities conditions)).toList) =
      some { template, activities, conditions, line := number } := by
  have hparts := h.map_trim_splitOn_write
  have hkept : ((conditions.map String.toList).filter fun part => !part.isEmpty).map .ofList =
      conditions := by
    rw [List.filter_eq_self.mpr, List.map_map]
    · refine (List.map_congr_left fun c _ => ?_).trans (List.map_id conditions)
      exact String.ofList_toList
    · intro part hpart
      obtain ⟨c, hc, rfl⟩ := List.mem_map.mp hpart
      simpa using toList_ne_nil (h.conditions_ne c hc)
  rw [← map_trim_splitOn_trim (by decide)] at hparts
  rw [Line.constraint?_of_parts hparts, h.head?_head, hkept]
  rfl

/-- A constraint is read as what it is meant to say. -/
theorem read_write (number : Nat) :
    Line.read number (write (.constraint template activities conditions)).toList =
      .ok (.constraint { template, activities, conditions, line := number }) := by
  obtain ⟨rest, hraw⟩ := exists_write_constraint template activities conditions
  have htrim : trim (write (.constraint template activities conditions)).toList =
      template.toList ++ '[' :: trimRight rest := by
    rw [hraw, trim_append_cons (by decide), trimLeft_eq_self h.template_plain.trim_eq]
  have hopens : ∀ word ∈ ["activity", "bind"], ¬ Line.Opens word.toList
      (trim (write (.constraint template activities conditions)).toList) := by
    intro word hmem
    rw [htrim]
    apply Line.not_opens_append_cons (by decide) _ (h.template_word word hmem)
    revert word
    decide
  rw [Line.read_of_not_opens (by simp [htrim]) (hopens _ (by simp)) (hopens _ (by simp)),
    h.constraint?_write]

end Unambiguous

end Constraint

/-- A declaration is read as what it is meant to say. -/
theorem read_write_activity {name : String} (hplain : Plain ['\n'] name) (hne : name ≠ "")
    (number : Nat) :
    Line.read number (write (.activity name)).toList = .ok (.activity name) := by
  have hraw : (write (.activity name)).toList = "activity".toList ++ ' ' :: name.toList := by
    simp [write]
  have htrim : trim (write (.activity name)).toList = "activity".toList ++ ' ' :: name.toList := by
    have hbounds : trim ("activity".toList ++ [' '] ++ name.toList) =
        "activity".toList ++ [' '] ++ name.toList :=
      trim_append_eq_self (by decide) (by decide) hplain.trim_eq (toList_ne_nil hne)
    rw [List.append_assoc, List.singleton_append] at hbounds
    rw [hraw, hbounds]
  have hname : trim (' ' :: name.toList) = name.toList := by
    calc trim (' ' :: name.toList) = trim ([' '] ++ name.toList) := rfl
      _ = trim name.toList := trim_blank_append (by simp [isBlank])
      _ = name.toList := hplain.trim_eq
  have hword : Line.afterWord? "activity".toList ("activity".toList ++ ' ' :: name.toList) =
      some (trim (' ' :: name.toList)) := Line.afterWord?_append_blank (by decide)
  rw [← htrim, hname] at hword
  rw [Line.read_of_activity hword (toList_ne_nil hne), String.ofList_toList]

/-- A line is read as what it is meant to say. -/
theorem read_write {entry : Entry} (h : entry.WellFormed) (number : Nat) :
    Line.read number entry.write.toList = .ok (entry.meant number) := by
  cases entry with
  | activity name => exact read_write_activity h.1 h.2 number
  | constraint template activities conditions => exact Unambiguous.read_write h number

/-- What is written for a line is one line. -/
theorem newline_notMem_write {entry : Entry} (h : entry.WellFormed) :
    '\n' ∉ entry.write.toList := by
  cases entry with
  | activity name =>
      have hname := h.1.notMem '\n' (by simp)
      simp [write, hname]
  | constraint template activities conditions =>
      rw [toList_write_constraint]
      exact notMem_intercalate (by decide) (Unambiguous.notMem_parts h (by simp))

end Entry

namespace ProcessModel

/-- The activities meant by lines are those declared in them. -/
theorem filterMap_activity?_meant (entries : List Entry) (first : Nat) :
    ((entries.zipIdx first).map fun line => line.1.meant line.2).filterMap Line.activity? =
      entries.filterMap Entry.activity? := by
  conv => rhs; rw [← List.zipIdx_map_fst first entries]
  rw [List.filterMap_map, List.filterMap_map]
  refine List.filterMap_congr fun ⟨entry, number⟩ _ => ?_
  cases entry <;> rfl

/-- The constraints meant by lines are those stated in them, with their numbers. -/
theorem filterMap_stated?_meant (entries : List Entry) (first : Nat) :
    ((entries.zipIdx first).map fun line => line.1.meant line.2).filterMap Line.stated? =
      (entries.zipIdx first).filterMap fun line => line.1.constraint? line.2 := by
  rw [List.filterMap_map]
  refine List.filterMap_congr fun ⟨entry, number⟩ _ => ?_
  cases entry <;> rfl

/-- The lines of a documented model are read as they were meant: every activity that is declared
counts once, where it was first declared, and the constraints keep their order, their parts and the
numbers of their lines. -/
theorem parse_written {entries : List Entry} (h : ∀ entry ∈ entries, entry.WellFormed) :
    parse ("\n".intercalate (entries.map Entry.write)) = .ok
      { activities := (entries.filterMap Entry.activity?).eraseDups
        constraints := (entries.zipIdx 1).filterMap fun line => line.1.constraint? line.2 } := by
  by_cases hne : entries = []
  · subst hne
    rfl
  · have hsplit : ("\n".intercalate (entries.map Entry.write)).toList.splitOn '\n' =
        entries.map fun entry => entry.write.toList := by
      rw [String.toList_intercalate, List.map_map]
      refine List.splitOn_intercalate '\n' ?_ (by simpa using hne)
      intro line hline
      obtain ⟨entry, hentry, rfl⟩ := List.mem_map.mp hline
      exact Entry.newline_notMem_write (h entry hentry)
    have hread : Line.readFrom 1 (entries.map fun entry => entry.write.toList) =
        .ok ((entries.zipIdx 1).map fun line => line.1.meant line.2) := by
      rw [Line.readFrom, List.zipIdx_map, Fold.mapM_eq_ok_iff, List.map_map, List.map_map]
      refine List.map_congr_left fun line hmem => ?_
      exact Entry.read_write (h line.1 (List.fst_mem_of_mem_zipIdx hmem)) line.2
    rw [parse_eq, hsplit, hread, Except.map, ofLines_eq, filterMap_activity?_meant,
      filterMap_stated?_meant]

/-- Names hold brackets, bars and colons, one is empty, an activity is declared twice, and templates
start with the letters of the words that declare and bind. -/
theorem parse_written_odd : ∃ entries : List Entry, (∀ entry ∈ entries, entry.WellFormed) ∧
    "\n".intercalate (entries.map Entry.write) =
      "activity x: [|\nactivityA]b[a[0]: x, , bind] | A.x: [1] | 0,30,d\nactivity y\nbind[]\n" ++
        "activity x: [|" ∧
    parse ("\n".intercalate (entries.map Entry.write)) = .ok
      { activities := ["x: [|", "y"]
        constraints := [⟨"activityA]b", ["a[0]: x", "", "bind"], ["A.x: [1]", "0,30,d"], 2⟩,
          ⟨"bind", [], [], 4⟩] } := by
  have hrepeated : (Entry.activity "x: [|").WellFormed := ⟨by decide, by decide⟩
  have hother : (Entry.activity "y").WellFormed := ⟨by decide, by decide⟩
  have hletters : (Entry.constraint "activityA]b" ["a[0]: x", "", "bind"]
      ["A.x: [1]", "0,30,d"]).WellFormed :=
    ⟨by decide, by decide, by simp; decide, by decide, by decide, by decide, by decide⟩
  have hbind : (Entry.constraint "bind" [] []).WellFormed :=
    ⟨by decide, by decide, by simp, by decide, by decide, by decide, by decide⟩
  have h : ∀ entry ∈ [Entry.activity "x: [|", .constraint "activityA]b" ["a[0]: x", "", "bind"]
      ["A.x: [1]", "0,30,d"], .activity "y", .constraint "bind" [] [], .activity "x: [|"],
      entry.WellFormed := by
    simp only [List.forall_mem_cons]
    exact ⟨hrepeated, hletters, hother, hbind, hrepeated, List.forall_mem_nil _⟩
  exact ⟨_, h, by decide +kernel, parse_written h⟩

end ProcessModel

end ProcessLogic
