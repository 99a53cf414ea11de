/-!
# Selecting from a list by place

Items are selected by what they are and where they stand, and keep their order.
-/

namespace ProcessLogic

variable {α : Type}

/-- The items of a list that are chosen at their places. -/
def selectAt (chosen : α → Nat → Bool) (as : List α) : List α :=
  (as.zipIdx.filter fun (a, i) => chosen a i).map Prod.fst

/-- An item at the end is selected last, if it is chosen. -/
theorem selectAt_concat (chosen : α → Nat → Bool) (as : List α) (a : α) :
    selectAt chosen (as ++ [a]) =
      selectAt chosen as ++ if chosen a as.length then [a] else [] := by
  simp only [selectAt, List.zipIdx_append, List.filter_append, List.map_append, Nat.zero_add,
    List.zipIdx_singleton, List.filter_cons, List.filter_nil]
  cases chosen a as.length <;> rfl

theorem mem_selectAt {chosen : α → Nat → Bool} {as : List α} {a : α} :
    a ∈ selectAt chosen as ↔ ∃ i : Nat, as[i]? = some a ∧ chosen a i = true := by
  rw [selectAt, List.mem_map]
  constructor
  · rintro ⟨⟨a, i⟩, hm, rfl⟩
    obtain ⟨hi, hchosen⟩ := List.mem_filter.mp hm
    exact ⟨i, List.mk_mem_zipIdx_iff_getElem?.mp hi, hchosen⟩
  · rintro ⟨i, hi, hchosen⟩
    exact ⟨(a, i), List.mem_filter.mpr ⟨List.mk_mem_zipIdx_iff_getElem?.mpr hi, hchosen⟩, rfl⟩

/-- A selection depends on the choices at the places of the list only. -/
theorem selectAt_congr {chosen chosen' : α → Nat → Bool} {as : List α}
    (h : ∀ (i : Nat) (a : α), as[i]? = some a → chosen a i = chosen' a i) :
    selectAt chosen as = selectAt chosen' as := by
  rw [selectAt, selectAt]
  refine congrArg _ (List.filter_congr fun (a, i) hm => ?_)
  exact h i a (List.mk_mem_zipIdx_iff_getElem?.mp hm)

/-- Choosing more keeps what was chosen. -/
theorem selectAt_sublist {chosen chosen' : α → Nat → Bool} {as : List α}
    (h : ∀ (i : Nat) (a : α), as[i]? = some a → chosen a i = true → chosen' a i = true) :
    (selectAt chosen as).Sublist (selectAt chosen' as) := by
  have htwice : (as.zipIdx.filter fun (a, i) => chosen a i) =
      (as.zipIdx.filter fun (a, i) => chosen' a i).filter fun (a, i) => chosen a i := by
    rw [List.filter_filter]
    refine List.filter_congr fun (a, i) hm => ?_
    have hi := List.mk_mem_zipIdx_iff_getElem?.mp hm
    cases hchosen : chosen a i with
    | false => simp [hchosen]
    | true => simp [hchosen, h i a hi hchosen]
  rw [selectAt, selectAt, htwice]
  exact List.filter_sublist.map _

/-- A selection is given by increasing places. -/
theorem exists_places (chosen : α → Nat → Bool) (as : List α) :
    ∃ places : List Nat, places.Pairwise (· < ·) ∧
      (selectAt chosen as).map some = places.map (as[·]?) ∧
      ∀ i, i ∈ places ↔ ∃ a, as[i]? = some a ∧ chosen a i = true := by
  refine ⟨(as.zipIdx.filter fun (a, i) => chosen a i).map Prod.snd, ?_, ?_, fun i => ?_⟩
  · have hsub : ((as.zipIdx.filter fun (a, i) => chosen a i).map Prod.snd).Sublist
        (as.zipIdx.map Prod.snd) := List.filter_sublist.map _
    rw [List.zipIdx_map_snd] at hsub
    exact List.Pairwise.sublist hsub List.pairwise_lt_range'
  · rw [selectAt, List.map_map, List.map_map]
    refine List.map_congr_left fun (a, i) hm => ?_
    exact (List.mk_mem_zipIdx_iff_getElem?.mp (List.mem_filter.mp hm).1).symm
  · rw [List.mem_map]
    constructor
    · rintro ⟨⟨a, i⟩, hm, rfl⟩
      obtain ⟨hi, hchosen⟩ := List.mem_filter.mp hm
      exact ⟨a, List.mk_mem_zipIdx_iff_getElem?.mp hi, hchosen⟩
    · rintro ⟨a, hi, hchosen⟩
      exact ⟨(a, i), List.mem_filter.mpr ⟨List.mk_mem_zipIdx_iff_getElem?.mpr hi, hchosen⟩, rfl⟩

/-- Either all items have a property, or there is a first that does not. -/
theorem forall_or_exists_first (P : α → Prop) (as : List α) :
    (∀ a ∈ as, P a) ∨
      ∃ (i : Nat) (a : α), (∀ b ∈ as.take i, P b) ∧ as[i]? = some a ∧ ¬ P a := by
  induction as with
  | nil => exact Or.inl fun _ h => nomatch h
  | cons a as ih =>
      by_cases ha : P a
      · rcases ih with h | ⟨i, b, hbefore, hb, hnot⟩
        · exact Or.inl (List.forall_mem_cons.mpr ⟨ha, h⟩)
        · exact Or.inr ⟨i + 1, b, List.forall_mem_cons.mpr ⟨ha, hbefore⟩, hb, hnot⟩
      · exact Or.inr ⟨0, a, by simp, rfl, ha⟩

/-- Increasing places of which one number is the only member are that one place. -/
theorem eq_singleton_of_mem_iff {places : List Nat} {n : Nat} (h : places.Pairwise (· < ·))
    (hmem : ∀ i, i ∈ places ↔ i = n) : places = [n] := by
  match places with
  | [] => exact absurd ((hmem n).mpr rfl) List.not_mem_nil
  | [i] => rw [(hmem i).mp List.mem_cons_self]
  | i :: j :: _ =>
      have hi := (hmem i).mp List.mem_cons_self
      have hj := (hmem j).mp (List.mem_cons_of_mem i List.mem_cons_self)
      have hlt := (List.pairwise_cons.mp h).1 j List.mem_cons_self
      omega

end ProcessLogic
