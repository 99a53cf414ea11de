import ProcessLogic.Model.Reader
import ProcessLogic.Proofs.Text.Blank

/-!
# What a line says

The four readings of a line are tried in order: a declaration, a binding, a constraint, and last the
domain of an attribute. A constraint is known by its head, a template before a list in brackets, and
the conditions after the head are of no concern for that.
-/

namespace ProcessLogic.Line

open Text

variable {word cs line raw head rest : List Char} {parts : List (List Char)} {number : Nat}

section Words

/-- A word stands in front, with nothing or a blank after it. -/
def Opens (word cs : List Char) : Prop :=
  ∃ rest, cs = word ++ rest ∧ ∀ c ∈ rest.head?, isBlank c = true

/-- After a word and a blank the rest of the line is what follows it. -/
theorem afterWord?_append_blank {c : Char} (hc : isBlank c = true) :
    afterWord? word (word ++ c :: rest) = some (trim (c :: rest)) := by
  simp [afterWord?, hc]

/-- Nothing follows a word exactly if the line does not open with it. -/
theorem afterWord?_eq_none_iff : afterWord? word line = none ↔ ¬ Opens word line := by
  by_cases hprefix : word <+: line
  · obtain ⟨rest, rfl⟩ := hprefix
    have hopens : Opens word (word ++ rest) ↔ ∀ c ∈ rest.head?, isBlank c = true := by
      constructor
      · rintro ⟨rest', heq, hblank⟩
        rwa [List.append_cancel_left heq]
      · exact fun h => ⟨rest, rfl, h⟩
    rw [hopens]
    cases rest with
    | nil => simp [afterWord?]
    | cons c rest => cases hc : isBlank c <;> simp [afterWord?, hc]
  · have hnot : word.isPrefixOf line = false := by
      rwa [← Bool.not_eq_true, List.isPrefixOf_iff_prefix]
    refine iff_of_true (by simp [afterWord?, hnot]) ?_
    rintro ⟨rest, rfl, -⟩
    exact hprefix (List.prefix_append word rest)

/-- A mark that is no part of a word ends what stands before it as a blank does not. -/
theorem not_opens_append_cons {before after : List Char} {mark : Char}
    (hmark : isBlank mark = false) (hword : mark ∉ word)
    (hbefore : ∀ c rest, before = word ++ c :: rest → isBlank c = false) :
    ¬ Opens word (before ++ mark :: after) := by
  rintro ⟨rest, heq, hblank⟩
  rcases List.append_eq_append_iff.mp heq with ⟨middle, hsplit, hafter⟩ | ⟨middle, hsplit, hrest⟩
  · cases middle with
    | nil =>
        obtain rfl : mark :: after = rest := hafter
        exact Bool.noConfusion (hmark.symm.trans (hblank mark rfl))
    | cons c middle =>
        obtain ⟨rfl, -⟩ := List.cons_eq_cons.mp hafter
        exact hword (hsplit ▸ List.mem_append_right _ List.mem_cons_self)
  · cases middle with
    | nil =>
        subst hrest
        exact Bool.noConfusion (hmark.symm.trans (hblank mark rfl))
    | cons c middle =>
        subst hrest
        exact Bool.noConfusion ((hbefore c middle hsplit).symm.trans (hblank c rfl))

end Words

section Heads

/-- A head names a template before the first opening bracket, which is no text with a colon, and
closes with the last bracket. -/
structure IsHead (cs before inner : List Char) : Prop where
  trim_eq : trim cs = before ++ '[' :: (inner ++ [']'])
  bracket_notMem : '[' ∉ before
  colon_notMem : ':' ∉ before
  not_blank : trim before ≠ []

/-- Blanks at the ends do not change the head. -/
@[simp] theorem head?_trim (cs : List Char) : head? (trim cs) = head? cs := by
  rw [head?, head?, trim_trim]

/-- A line names a template and activities exactly if it is a head of them. -/
theorem head?_eq_some_iff {template : String} {activities : List String} :
    head? cs = some (template, activities) ↔ ∃ before inner, IsHead cs before inner ∧
      template = .ofList (trim before) ∧ activities = activityNames inner := by
  constructor
  · intro h
    rw [head?] at h
    split at h
    · exact nomatch h
    rename_i before after hopen
    split at h
    · exact nomatch h
    rename_i inner rest hclose
    simp only [Bool.or_eq_true, Bool.not_eq_true', not_or, Bool.not_eq_false, List.isEmpty_iff,
      List.contains_iff_mem, List.all_eq_true, Option.ite_none_left_eq_some, Option.some.injEq,
      Prod.mk.injEq] at h
    obtain ⟨⟨⟨hblank, hne⟩, hcolon⟩, rfl, rfl⟩ := h
    obtain ⟨hcs, hbefore⟩ := cutFirst_eq_some_iff.mp hopen
    obtain ⟨rfl, -⟩ := cutLast_eq_some_iff.mp hclose
    have hsplit : trim cs = (before ++ '[' :: (inner ++ [']'])) ++ rest := by
      rw [hcs]
      simp
    have htrimmed : trim ((before ++ '[' :: (inner ++ [']'])) ++ rest) =
        (before ++ '[' :: (inner ++ [']'])) ++ rest := by rw [← hsplit, trim_trim]
    have hrest : rest = [] := eq_nil_of_trim_append htrimmed hblank
    rw [hrest, List.append_nil] at hsplit
    rw [mem_trim_iff (by decide)] at hcolon
    exact ⟨before, inner, ⟨hsplit, hbefore, hcolon, hne⟩, rfl, rfl⟩
  · rintro ⟨before, inner, hhead, rfl, rfl⟩
    have hopen := cutFirst_eq_some_iff.mpr ⟨hhead.trim_eq, hhead.bracket_notMem⟩
    have hclose : cutLast ']' (inner ++ [']']) = some (inner, []) :=
      cutLast_eq_some_iff.mpr ⟨rfl, List.not_mem_nil⟩
    have hcolon : ':' ∉ trim before := by
      rw [mem_trim_iff (by decide)]
      exact hhead.colon_notMem
    simp [head?, hopen, hclose, hcolon, hhead.not_blank]

/-- A line names nothing exactly if it is no head. -/
theorem head?_eq_none_iff : head? cs = none ↔ ¬ ∃ before inner, IsHead cs before inner := by
  constructor
  · rintro hnone ⟨before, inner, hisHead⟩
    have hsome := head?_eq_some_iff.mpr ⟨before, inner, hisHead, rfl, rfl⟩
    exact nomatch hnone.symm.trans hsome
  · intro hnone
    refine Option.eq_none_iff_forall_ne_some.mpr fun named hnamed => hnone ?_
    obtain ⟨before, inner, hisHead, -⟩ := head?_eq_some_iff.mp hnamed
    exact ⟨before, inner, hisHead⟩

/-- A constraint depends on its parts without the blanks around them. -/
theorem constraint?_of_parts (h : (line.splitOn '|').map trim = head :: parts) :
    constraint? number line = (head? head).map fun (template, activities) =>
      { template, activities, line := number
        conditions := (parts.filter fun part => !part.isEmpty).map .ofList } := by
  rw [constraint?, splitOn_eq]
  cases hline : line.splitOn '|' with
  | nil => exact absurd hline (List.splitOn_ne_nil '|' line)
  | cons first others =>
      rw [hline, List.map_cons] at h
      obtain ⟨rfl, rfl⟩ := List.cons_eq_cons.mp h
      rw [head?_trim]
      rfl

end Heads

section Readings

/-- A line that opens with `activity` declares what follows. -/
theorem read_of_activity (hword : afterWord? "activity".toList (trim raw) = some cs)
    (hne : cs ≠ []) : read number raw = .ok (.activity (.ofList cs)) := by
  have hline : trim raw ≠ [] := by
    intro h
    rw [h] at hword
    exact nomatch hword
  rw [read, if_neg (by simpa using hline), hword]
  cases cs with
  | nil => exact absurd rfl hne
  | cons c cs => rfl

/-- Any other line states a constraint, is skipped or is invalid. -/
theorem read_of_not_opens (hne : trim raw ≠ [])
    (hactivity : ¬ Opens "activity".toList (trim raw))
    (hbind : ¬ Opens "bind".toList (trim raw)) :
    read number raw =
      match constraint? number (trim raw) with
      | some c => .ok (.constraint c)
      | none =>
        if ':' ∈ trim raw then .ok .nothing else .error ⟨number, .ofList (trim raw)⟩ := by
  rw [read, if_neg (by simpa using hne), afterWord?_eq_none_iff.mpr hactivity,
    afterWord?_eq_none_iff.mpr hbind]
  dsimp only
  rw [if_neg (by simp)]
  cases constraint? number (trim raw) with
  | some c => rfl
  | none => exact if_congr List.contains_iff_mem rfl rfl

end Readings

end ProcessLogic.Line
