import ProcessLogic.Text.Split

/-!
# Parts of a text

Splitting at a separator is the splitting of lists, and cutting at a mark finds the place where the
mark stands first or last.
-/

namespace ProcessLogic.Text

/-- The parts between separators are those of the library's function. -/
theorem splitOn_eq (separator : Char) (cs : List Char) :
    splitOn separator cs = cs.splitOn separator := by
  induction cs with
  | nil => rfl
  | cons c cs ih =>
      have hstep : splitOn separator (c :: cs) =
          if c = separator then [] :: splitOn separator cs
          else (splitOn separator cs).modifyHead (c :: ·) := by
        rw [splitOn, List.foldr_cons, ← splitOn]
        split
        · rfl
        · cases hparts : splitOn separator cs with
          | nil => exact absurd (ih.symm.trans hparts) (List.splitOn_ne_nil separator cs)
          | cons part parts => rfl
      rw [hstep, ih, List.splitOn_cons_eq_if_modifyHead]
      simp only [beq_iff_eq]

/-- There are as many parts as separators, and one more. -/
theorem length_splitOn (separator : Char) (cs : List Char) :
    (cs.splitOn separator).length = cs.count separator + 1 := by
  induction cs with
  | nil => rfl
  | cons c cs ih =>
      rw [List.splitOn_cons_eq_if_modifyHead, List.count_cons]
      split
      · rw [List.length_cons, ih]
      · rw [List.length_modifyHead, ih, Nat.add_zero]

variable {mark : Char} {cs before after : List Char}

/-- The first cut is at a mark before which there is no other. -/
theorem cutFirst_eq_some_iff :
    cutFirst mark cs = some (before, after) ↔ cs = before ++ mark :: after ∧ mark ∉ before := by
  constructor
  · intro h
    rw [cutFirst] at h
    split at h
    · exact nomatch h
    · rename_i m rest hdrop
      obtain ⟨rfl, rfl⟩ := Prod.mk.inj (Option.some.inj h)
      have hm : m = mark := by simpa [hdrop] using List.head?_dropWhile_not (· != mark) cs
      have hfront := List.all_eq_true.mp (List.all_takeWhile (p := (· != mark)) (l := cs))
      refine ⟨?_, fun hmem => by simpa using hfront mark hmem⟩
      have hcs := List.takeWhile_append_dropWhile (p := (· != mark)) (l := cs)
      rw [hdrop, hm] at hcs
      exact hcs.symm
  · rintro ⟨rfl, hmark⟩
    have hbefore : ∀ c ∈ before, (c != mark) = true := by
      intro c hc
      rw [bne_iff_ne]
      rintro rfl
      exact hmark hc
    rw [cutFirst, List.dropWhile_append_of_pos hbefore, List.takeWhile_append_of_pos hbefore]
    simp

/-- The last cut is at a mark after which there is no other. -/
theorem cutLast_eq_some_iff :
    cutLast mark cs = some (before, after) ↔ cs = before ++ mark :: after ∧ mark ∉ after := by
  simp only [cutLast, Option.map_eq_some_iff, Prod.exists, cutFirst_eq_some_iff, Prod.mk.injEq]
  constructor
  · rintro ⟨after', before', ⟨hcs, hmark⟩, rfl, rfl⟩
    refine ⟨?_, by simpa using hmark⟩
    rw [← List.reverse_inj, hcs]
    simp
  · rintro ⟨rfl, hmark⟩
    exact ⟨after.reverse, before.reverse, ⟨by simp, by simpa using hmark⟩, by simp, by simp⟩

end ProcessLogic.Text
