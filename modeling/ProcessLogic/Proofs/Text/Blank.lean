import Mathlib.Data.List.TakeWhile
import ProcessLogic.Proofs.Text.Split
import ProcessLogic.Text.Blank

/-!
# Trimming

Trimming takes blanks off both ends and nothing else, so blanks put around a text do not matter, a
character that is not blank keeps what stands inside of it, and the parts of a text can be trimmed
before or after the whole is.
-/

namespace ProcessLogic.Text

variable {separator m : Char} {front cs ds back : List Char}

/-- A character that is no blank ends the blanks in front. -/
theorem trimLeft_append_cons (hm : isBlank m = false) :
    trimLeft (cs ++ m :: ds) = trimLeft cs ++ m :: ds := by
  rw [trimLeft, List.dropWhile_append, List.dropWhile_cons_of_neg (by simp [hm])]
  split
  · rename_i hnil
    rw [trimLeft, List.isEmpty_iff.mp hnil, List.nil_append]
  · rfl

/-- A character that is no blank ends the blanks at the end. -/
theorem trimRight_append_cons (hm : isBlank m = false) :
    trimRight (cs ++ m :: ds) = cs ++ m :: trimRight ds := by
  have hreverse : (cs ++ m :: ds).reverse = ds.reverse ++ m :: cs.reverse := by simp
  rw [trimRight, hreverse, ← trimLeft, trimLeft_append_cons hm]
  simp [trimLeft, trimRight]

/-- Without the blanks at its end a text is a beginning of itself. -/
theorem trimRight_prefix (cs : List Char) : trimRight cs <+: cs := by
  have hsuffix : cs.reverse.dropWhile isBlank <:+ cs.reverse := List.dropWhile_suffix _
  rw [trimRight]
  exact List.reverse_suffix.mp (by rwa [List.reverse_reverse])

/-- A character that is not blank keeps what stands inside of it. -/
theorem trim_append_cons (hm : isBlank m = false) :
    trim (cs ++ m :: ds) = trimLeft cs ++ m :: trimRight ds := by
  rw [trim, trimLeft_append_cons hm, trimRight_append_cons hm]

theorem trim_eq_nil (h : ∀ c ∈ cs, isBlank c = true) : trim cs = [] := by
  have hleft : trimLeft cs = [] := List.dropWhile_eq_nil_iff.mpr h
  rw [trim, hleft]
  rfl

/-- Trimming takes away blanks only, and only at the ends. -/
theorem exists_trim (cs : List Char) : ∃ front back, (∀ c ∈ front, isBlank c = true) ∧
    (∀ c ∈ back, isBlank c = true) ∧ cs = front ++ trim cs ++ back := by
  have hfront := List.all_eq_true.mp (List.all_takeWhile (p := isBlank) (l := cs))
  have hback := List.all_eq_true.mp
    (List.all_takeWhile (p := isBlank) (l := (trimLeft cs).reverse))
  refine ⟨_, _, hfront, fun c hc => hback c (List.mem_reverse.mp hc), ?_⟩
  have hleft : cs.takeWhile isBlank ++ trimLeft cs = cs := List.takeWhile_append_dropWhile
  have hright : trim cs ++ ((trimLeft cs).reverse.takeWhile isBlank).reverse = trimLeft cs := by
    rw [trim, trimRight, ← List.reverse_append, List.takeWhile_append_dropWhile,
      List.reverse_reverse]
  rw [List.append_assoc, hright, hleft]

/-- Blanks around a text do not matter. -/
theorem trim_append_append (hfront : ∀ c ∈ front, isBlank c = true)
    (hback : ∀ c ∈ back, isBlank c = true) : trim (front ++ cs ++ back) = trim cs := by
  have hleft : trimLeft (front ++ cs ++ back) = trimLeft (cs ++ back) := by
    rw [List.append_assoc]
    exact List.dropWhile_append_of_pos hfront
  rw [trim, hleft, ← trim]
  by_cases hcs : ∃ m ∈ cs, isBlank m = false
  · obtain ⟨m, hmem, hm⟩ := hcs
    obtain ⟨before, after, rfl⟩ := List.append_of_mem hmem
    have hright : trimRight (after ++ back) = trimRight after := by
      rw [trimRight, List.reverse_append, List.dropWhile_append_of_pos, ← trimRight]
      exact fun c hc => hback c (List.mem_reverse.mp hc)
    rw [List.append_assoc, List.cons_append, trim_append_cons hm, trim_append_cons hm, hright]
  · have hall : ∀ c ∈ cs, isBlank c = true :=
      fun c hc => Bool.of_not_eq_false fun hm => hcs ⟨c, hc, hm⟩
    rw [trim_eq_nil hall, trim_eq_nil]
    intro c hc
    exact (List.mem_append.mp hc).elim (hall c) (hback c)

theorem trim_blank_append (h : ∀ c ∈ front, isBlank c = true) : trim (front ++ cs) = trim cs := by
  rw [← List.append_nil (front ++ cs)]
  exact trim_append_append h (List.forall_mem_nil _)

theorem trim_append_blank (h : ∀ c ∈ back, isBlank c = true) : trim (cs ++ back) = trim cs := by
  exact trim_append_append (List.forall_mem_nil _) h

@[simp] theorem trim_trim (cs : List Char) : trim (trim cs) = trim cs := by
  obtain ⟨front, back, hfront, hback, hcs⟩ := exists_trim cs
  calc trim (trim cs) = trim (front ++ trim cs ++ back) := (trim_append_append hfront hback).symm
    _ = trim cs := by rw [← hcs]

/-- Only blanks are trimmed. -/
theorem mem_trim_iff (hm : isBlank m = false) : m ∈ trim cs ↔ m ∈ cs := by
  obtain ⟨front, back, hfront, hback, hcs⟩ := exists_trim cs
  have hnot : ∀ blanks : List Char, (∀ c ∈ blanks, isBlank c = true) → m ∉ blanks :=
    fun blanks hblanks hmem => by simp [hblanks m hmem] at hm
  calc m ∈ trim cs ↔ m ∈ front ++ trim cs ++ back := by simp [hnot front hfront, hnot back hback]
    _ ↔ m ∈ cs := by rw [← hcs]

theorem length_trim_le (cs : List Char) : (trim cs).length ≤ cs.length := by
  obtain ⟨front, back, -, -, hcs⟩ := exists_trim cs
  have hlength := congrArg List.length hcs
  simp only [List.length_append] at hlength
  omega

section Trimmed

/-- A trimmed text does not end with blanks. -/
theorem eq_nil_of_trim_append (h : trim (cs ++ back) = cs ++ back)
    (hback : ∀ c ∈ back, isBlank c = true) : back = [] := by
  have hlength := length_trim_le cs
  rw [← trim_append_blank hback, h, List.length_append] at hlength
  exact List.eq_nil_of_length_eq_zero (by omega)

/-- A string is trimmed exactly if its characters are. -/
theorem trimmed_eq_self_iff {s : String} : trimmed s = s ↔ trim s.toList = s.toList := by
  rw [trimmed, ← String.toList_inj, String.toList_ofList]

theorem trimLeft_eq_self (h : trim cs = cs) : trimLeft cs = cs := by
  have hsuffix : trimLeft cs <:+ cs := List.dropWhile_suffix _
  have hlength : (trim cs).length ≤ (trimLeft cs).length := by
    have hreverse : (trimLeft cs).reverse.length = (trimLeft cs).length := List.length_reverse
    rw [trim, trimRight, List.length_reverse, ← hreverse]
    exact (List.dropWhile_sublist _).length_le
  rw [h] at hlength
  exact hsuffix.eq_of_length_le hlength

theorem trimRight_eq_self (h : trim cs = cs) : trimRight cs = cs := by
  rw [trim, trimLeft_eq_self h] at h
  exact h

/-- What starts and ends with trimmed texts has no blanks at its ends. -/
theorem trim_append_eq_self {middle : List Char} (hcs : trim cs = cs) (hne : cs ≠ [])
    (hds : trim ds = ds) (hne' : ds ≠ []) : trim (cs ++ middle ++ ds) = cs ++ middle ++ ds := by
  have hleft : trimLeft (cs ++ (middle ++ ds)) = cs ++ (middle ++ ds) := by
    have hcs := trimLeft_eq_self hcs
    rw [trimLeft] at hcs ⊢
    rw [List.dropWhile_append, hcs, if_neg (by simpa using hne)]
  have hright : trimRight (cs ++ middle ++ ds) = cs ++ middle ++ ds := by
    have hds := congrArg List.reverse (trimRight_eq_self hds)
    rw [trimRight, List.reverse_reverse] at hds
    rw [trimRight, List.reverse_append, List.dropWhile_append, hds, if_neg (by simpa using hne')]
    simp
  rw [trim, List.append_assoc, hleft, ← List.append_assoc, hright]

end Trimmed

section Parts

variable (hseparator : isBlank separator = false)
include hseparator

theorem notMem_of_blank (h : ∀ c ∈ cs, isBlank c = true) : separator ∉ cs := by
  intro hmem
  rw [h separator hmem] at hseparator
  exact nomatch hseparator

/-- Blanks in front do not change the trimmed parts. -/
theorem map_trim_splitOn_blank_append (h : ∀ c ∈ front, isBlank c = true) :
    ((front ++ cs).splitOn separator).map trim = (cs.splitOn separator).map trim := by
  have hfront := notMem_of_blank hseparator h
  by_cases hcs : separator ∈ cs
  · obtain ⟨before, after, rfl, hbefore⟩ := List.eq_append_cons_of_mem hcs
    have hfirst : separator ∉ front ++ before := by simp [hfront, hbefore]
    rw [← List.append_assoc, List.splitOn_append_cons_self_of_not_mem hfirst,
      List.splitOn_append_cons_self_of_not_mem hbefore, List.map_cons, List.map_cons,
      trim_blank_append h]
  · have hall : separator ∉ front ++ cs := by simp [hfront, hcs]
    rw [List.splitOn_eq_singleton hall, List.splitOn_eq_singleton hcs, List.map_singleton,
      List.map_singleton, trim_blank_append h]

/-- Blanks at the end do not change the trimmed parts. -/
theorem map_trim_splitOn_append_blank (h : ∀ c ∈ back, isBlank c = true) :
    ((cs ++ back).splitOn separator).map trim = (cs.splitOn separator).map trim := by
  have hback := notMem_of_blank hseparator h
  by_cases hcs : separator ∈ cs
  · -- The last separator is the first of the text read backwards.
    obtain ⟨after, before, hreverse, hafter⟩ :=
      List.eq_append_cons_of_mem (List.mem_reverse.mpr hcs)
    obtain rfl : cs = before.reverse ++ separator :: after.reverse := by
      rw [← List.reverse_inj, hreverse]
      simp
    have hafter : separator ∉ after.reverse := by simpa using hafter
    have hlast : separator ∉ after.reverse ++ back := by simp [hback, hafter]
    rw [List.append_assoc, List.cons_append, List.splitOn_append_cons_self,
      List.splitOn_append_cons_self, List.splitOn_eq_singleton hlast,
      List.splitOn_eq_singleton hafter, List.map_append, List.map_append, List.map_singleton,
      List.map_singleton, trim_append_blank h]
  · have hall : separator ∉ cs ++ back := by simp [hback, hcs]
    rw [List.splitOn_eq_singleton hall, List.splitOn_eq_singleton hcs, List.map_singleton,
      List.map_singleton, trim_append_blank h]

/-- Parts that are trimmed do not depend on blanks around the whole. -/
theorem map_trim_splitOn_trim (cs : List Char) :
    ((trim cs).splitOn separator).map trim = (cs.splitOn separator).map trim := by
  obtain ⟨front, back, hfront, hback, hcs⟩ := exists_trim cs
  calc ((trim cs).splitOn separator).map trim
      = ((front ++ trim cs ++ back).splitOn separator).map trim := by
        rw [map_trim_splitOn_append_blank hseparator hback,
          map_trim_splitOn_blank_append hseparator hfront]
    _ = (cs.splitOn separator).map trim := by rw [← hcs]

/-- Parts that are joined by a separator with blanks around it come back trimmed. -/
theorem map_trim_splitOn_intercalate (front back : List Char) {parts : List (List Char)}
    (hfront : ∀ c ∈ front, isBlank c = true) (hback : ∀ c ∈ back, isBlank c = true)
    (hparts : ∀ part ∈ parts, separator ∉ part) (hne : parts ≠ []) :
    (((front ++ separator :: back).intercalate parts).splitOn separator).map trim =
      parts.map trim := by
  induction parts with
  | nil => exact absurd rfl hne
  | cons part parts ih =>
      obtain ⟨hpart, hparts⟩ := List.forall_mem_cons.mp hparts
      cases parts with
      | nil =>
          rw [List.intercalate_singleton, List.splitOn_eq_singleton hpart]
      | cons next parts =>
          have hfirst : separator ∉ part ++ front := by
            simp [hpart, notMem_of_blank hseparator hfront]
          rw [List.intercalate_cons_cons, List.append_assoc, List.append_assoc, List.cons_append,
            ← List.append_assoc, List.splitOn_append_cons_self_of_not_mem hfirst, List.map_cons,
            map_trim_splitOn_blank_append hseparator hback, ih hparts (by simp),
            trim_append_blank hfront, ← List.map_cons]

end Parts

end ProcessLogic.Text
