import Mathlib.Data.List.Induction
import ProcessLogic.Proofs.Collection.Roster

/-!
# Order of first occurrence

A roster lists the items of a list without repeats, each where it first occurs. Lists that are put
one after the other may lose their repeats before or after that.
-/

namespace ProcessLogic.Roster

variable {α : Type} [BEq α] [LawfulBEq α]

/-- One more item is listed unless it has occurred. -/
theorem eraseDups_concat (as : List α) (a : α) :
    (as ++ [a]).eraseDups = if a ∈ as then as.eraseDups else as.eraseDups ++ [a] := by
  rw [List.eraseDups_append, List.removeAll]
  by_cases ha : a ∈ as <;> simp [ha, List.eraseDups_cons]

/-- Taking first occurrences commutes with a filter. -/
theorem eraseDups_filter (p : α → Bool) (as : List α) :
    (as.filter p).eraseDups = as.eraseDups.filter p := by
  induction as using List.reverseRecOn with
  | nil => rfl
  | append_singleton as a ih =>
      rw [List.filter_append, eraseDups_concat]
      cases hp : p a with
      | false => split <;> simp [hp, ih]
      | true =>
          rw [List.filter_cons_of_pos hp, List.filter_nil, eraseDups_concat, ih]
          by_cases ha : a ∈ as <;> simp [ha, hp]

/-- First occurrences are the first occurrences of themselves. -/
theorem eraseDups_eraseDups (as : List α) : as.eraseDups.eraseDups = as.eraseDups := by
  induction as using List.reverseRecOn with
  | nil => rfl
  | append_singleton as a ih =>
      rw [eraseDups_concat]
      split
      · exact ih
      · rename_i ha
        rw [eraseDups_concat, if_neg (by rwa [List.mem_eraseDups]), ih]

/-- The repeats of two lists may be left out before one is put after the other. -/
theorem eraseDups_append_eraseDups (as bs : List α) :
    (as.eraseDups ++ bs.eraseDups).eraseDups = (as ++ bs).eraseDups := by
  have hkept : bs.eraseDups.removeAll as.eraseDups = bs.eraseDups.removeAll as := by
    refine List.filter_congr fun b _ => ?_
    rw [Bool.eq_iff_iff]
    simp
  rw [List.eraseDups_append, List.eraseDups_append, hkept, eraseDups_eraseDups, List.removeAll,
    ← eraseDups_filter, eraseDups_eraseDups, List.removeAll]

variable [Hashable α]

/-- A roster lists the items of a list in the order of their first occurrence. -/
theorem toList_ofList (as : List α) : (ofList as).toList = as.eraseDups := by
  induction as using List.reverseRecOn with
  | nil => rfl
  | append_singleton as a ih =>
      have hstep : ofList (as ++ [a]) = (ofList as).insert a := insertMany_append {} as [a]
      have hwell := wellFormed_ofList as
      rw [hstep, eraseDups_concat, ← ih]
      by_cases ha : a ∈ as
      · rw [if_pos ha, hwell.insert_of_mem (mem_ofList.mpr ha)]
      · rw [if_neg ha, hwell.toList_insert fun hm => ha (mem_ofList.mp hm)]

end ProcessLogic.Roster
