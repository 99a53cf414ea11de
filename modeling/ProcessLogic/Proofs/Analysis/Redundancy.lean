import Mathlib.Data.List.Induction
import ProcessLogic.Analysis.Redundancy
import ProcessLogic.Proofs.Automaton.Equivalence
import ProcessLogic.Proofs.Collection.Selection

/-!
# What the redundancy check collects

The check keeps the requirements without which the language stays as it is, and of those the
first of each formula. Requirements with one formula are kept or dropped together, so that is the
first requirement of its formula in the whole list.
-/

namespace ProcessLogic.Requirement

variable {oracle : Oracle} {whole others : Automaton} {all : List Requirement}

/-- Whether leaving out the requirement at a place is found to change nothing. -/
def isImplied (oracle : Oracle) (whole : Automaton) (all : List Requirement) (index : Nat) :
    Bool :=
  match oracle.automaton (conjoin (all.eraseIdx index)) with
  | .error _ => false
  | .ok others =>
    match whole.counterexample others with
    | .error _ => false
    | .ok word => word.isNone

/-- Leaving out a requirement changes nothing if the language stays as it is. -/
theorem isImplied_iff {index : Nat} (hwhole : whole.WellFormed) (hothers : others.WellFormed)
    (h : oracle.automaton (conjoin (all.eraseIdx index)) = .ok others) :
    isImplied oracle whole all index = true ↔
      ∀ word, whole.accepts word = others.accepts word := by
  obtain ⟨answer, hanswer, hnone⟩ := Automaton.exists_counterexample hwhole hothers
  simp only [isImplied, h, hanswer, Option.isNone_iff_eq_none, hnone]

/-- A requirement at the end is listed unless an earlier one has its formula. -/
theorem firstPerFormula_concat (rs : List Requirement) (r : Requirement) :
    firstPerFormula (rs ++ [r]) =
      if (firstPerFormula rs).any (·.formula == r.formula) then firstPerFormula rs
      else firstPerFormula rs ++ [r] := by
  rw [firstPerFormula, List.foldl_append]
  rfl

/-- No formula is lost by keeping the first requirement of each. -/
theorem any_firstPerFormula (rs : List Requirement) (text : String) :
    (firstPerFormula rs).any (·.formula == text) = rs.any (·.formula == text) := by
  induction rs using List.reverseRecOn with
  | nil => rfl
  | append_singleton rs r ih =>
      rw [firstPerFormula_concat, List.any_append, ← ih, List.any_cons, List.any_nil,
        Bool.or_false]
      split
      · rename_i hkept
        by_cases hr : r.formula = text
        · rw [← hr, hkept, Bool.true_or]
        · rw [beq_eq_false_iff_ne.mpr hr, Bool.or_false]
      · rw [List.any_append, List.any_cons, List.any_nil, Bool.or_false]

/-- Of every formula only one requirement is kept. -/
theorem nodup_firstPerFormula (rs : List Requirement) :
    ((firstPerFormula rs).map (·.formula)).Nodup := by
  induction rs using List.reverseRecOn with
  | nil => exact List.nodup_nil
  | append_singleton rs r ih =>
      rw [firstPerFormula_concat]
      split
      · exact ih
      · rename_i hnew
        rw [List.map_append, List.map_singleton, List.nodup_append]
        refine ⟨ih, List.pairwise_singleton _ _, fun text hm other ho => ?_⟩
        obtain rfl := List.mem_singleton.mp ho
        rintro rfl
        obtain ⟨earlier, he, hformula⟩ := List.mem_map.mp hm
        exact hnew (List.any_eq_true.mpr ⟨earlier, he, beq_iff_eq.mpr hformula⟩)

/-- Of a formula that occurs exactly one requirement is kept. -/
theorem count_firstPerFormula {rs : List Requirement} {r : Requirement} (h : r ∈ rs) :
    ((firstPerFormula rs).map (·.formula)).count r.formula = 1 := by
  have hany : rs.any (·.formula == r.formula) = true :=
    List.any_eq_true.mpr ⟨r, h, beq_iff_eq.mpr rfl⟩
  rw [← any_firstPerFormula, List.any_eq_true] at hany
  obtain ⟨first, hfirst, hsame⟩ := hany
  rw [(nodup_firstPerFormula rs).count, if_pos]
  exact List.mem_map.mpr ⟨first, hfirst, beq_iff_eq.mp hsame⟩

/-- Whether no requirement before a place has the formula of a requirement. -/
def firstAt (all : List Requirement) (r : Requirement) (place : Nat) : Bool :=
  (all.take place).all fun earlier => earlier.formula != r.formula

/-- What is tested at a place is that no requirement before it has the formula. -/
theorem firstAt_eq_true_iff {r : Requirement} {place : Nat} :
    firstAt all r place = true ↔
      ∀ j < place, ∀ earlier, all[j]? = some earlier → earlier.formula ≠ r.formula := by
  simp only [firstAt, List.all_eq_true, bne_iff_ne, List.mem_iff_getElem?, List.getElem?_take]
  constructor
  · intro h j hj earlier he
    exact h earlier ⟨j, by rw [if_pos hj, he]⟩
  · rintro h earlier ⟨j, he⟩
    split at he
    · exact h j ‹_› earlier he
    · exact nomatch he

/-- Whether no requirement chosen before a place has the formula of a requirement. -/
def firstChosen (chosen : Nat → Bool) (all : List Requirement) (r : Requirement) (place : Nat) :
    Bool :=
  (selectAt (fun _ i => chosen i) (all.take place)).all fun earlier =>
    earlier.formula != r.formula

/-- What is tested at a place is that no requirement chosen before it has the formula. -/
theorem firstChosen_eq_true_iff {chosen : Nat → Bool} {r : Requirement} {place : Nat} :
    firstChosen chosen all r place = true ↔ ∀ j < place, ∀ earlier, all[j]? = some earlier →
      chosen j = true → earlier.formula ≠ r.formula := by
  simp only [firstChosen, List.all_eq_true, bne_iff_ne, mem_selectAt, List.getElem?_take]
  constructor
  · intro h j hj earlier he hchosen
    exact h earlier ⟨j, by rw [if_pos hj, he], hchosen⟩
  · rintro h earlier ⟨j, he, hchosen⟩
    split at he
    · exact h j ‹_› earlier he hchosen
    · exact nomatch he

/-- Of the chosen requirements those are kept before which none of the same formula is chosen. -/
theorem firstPerFormula_selectAt (chosen : Nat → Bool) (all : List Requirement) :
    firstPerFormula (selectAt (fun _ i => chosen i) all) =
      selectAt (fun r i => chosen i && firstChosen chosen all r i) all := by
  induction all using List.reverseRecOn with
  | nil => rfl
  | append_singleton rs r ih =>
      have htake : ∀ {i : Nat} (s : Requirement), i ≤ rs.length →
          firstChosen chosen (rs ++ [r]) s i = firstChosen chosen rs s i := by
        intro i s hi
        rw [firstChosen, firstChosen, List.take_append_of_le_length hi]
      have hearlier : selectAt (fun s i => chosen i && firstChosen chosen (rs ++ [r]) s i) rs =
          selectAt (fun s i => chosen i && firstChosen chosen rs s i) rs := by
        refine selectAt_congr fun i s hi => ?_
        rw [htake s (Nat.le_of_lt (List.getElem?_eq_some_iff.mp hi).1)]
      have hlast : firstChosen chosen rs r rs.length =
          !(selectAt (fun _ i => chosen i) rs).any (·.formula == r.formula) := by
        rw [firstChosen, List.take_length, List.not_any_eq_all_not]
        rfl
      rw [selectAt_concat, selectAt_concat, hearlier, htake r (Nat.le_refl _), hlast, ← ih]
      cases chosen rs.length with
      | false => simp
      | true =>
          rw [if_pos rfl, firstPerFormula_concat, any_firstPerFormula]
          cases (selectAt (fun _ i => chosen i) rs).any (·.formula == r.formula) <;> simp

/-- Requirements with one formula are chosen together. -/
def PerFormula (all : List Requirement) (chosen : Nat → Bool) : Prop :=
  ∀ (i j : Nat) (r s : Requirement), all[i]? = some r → all[j]? = some s →
    r.formula = s.formula → chosen i = chosen j

/-- If requirements with one formula are chosen together, the first chosen of each formula is the
first of its formula. -/
theorem PerFormula.firstPerFormula_selectAt {chosen : Nat → Bool} (h : PerFormula all chosen) :
    firstPerFormula (selectAt (fun _ i => chosen i) all) =
      selectAt (fun r i => chosen i && firstAt all r i) all := by
  rw [Requirement.firstPerFormula_selectAt]
  refine selectAt_congr fun i r hr => ?_
  rw [Bool.eq_iff_iff, Bool.and_eq_true, Bool.and_eq_true, firstChosen_eq_true_iff,
    firstAt_eq_true_iff]
  refine and_congr_right fun hchosen => ⟨fun hfirst j hj earlier he hformula => ?_,
    fun hfirst j hj earlier he _ => hfirst j hj earlier he⟩
  exact hfirst j hj earlier he ((h j i earlier r he hr hformula).trans hchosen) hformula

end ProcessLogic.Requirement
