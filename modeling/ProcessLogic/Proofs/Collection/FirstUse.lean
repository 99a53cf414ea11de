import Mathlib.Data.List.Induction
import ProcessLogic.Proofs.Collection.Roster

/-!
# Order of first use

Users take up items one user after the other, and each user takes those that it uses in the order
in which they stand. Items that stand in the order in which they are first used are taken up in
this very order.
-/

namespace ProcessLogic.Roster

section Taken

variable {α : Type} [BEq α] [LawfulBEq α]

/-- What a user takes up after some items have been taken up. -/
def taken (used : α → Bool) (before items : List α) : List α :=
  (items.filter used).filter fun item => decide (item ∉ before)

variable {used : α → Bool} {before items items' : List α}

/-- A user takes up what it uses and what has not been taken up before. -/
theorem mem_taken {item : α} :
    item ∈ taken used before items ↔ item ∈ items ∧ used item = true ∧ item ∉ before := by
  simp only [taken, List.mem_filter, decide_eq_true_eq, and_assoc]

theorem taken_append :
    taken used before (items ++ items') = taken used before items ++ taken used before items' := by
  rw [taken, List.filter_append, List.filter_append]
  rfl

/-- Nothing is taken up if all that is used has been taken up before. -/
theorem taken_eq_nil (h : ∀ item ∈ items, used item = true → item ∈ before) :
    taken used before items = [] := by
  refine List.eq_nil_iff_forall_not_mem.mpr fun item hm => ?_
  obtain ⟨hitem, hused, hnew⟩ := mem_taken.mp hm
  exact hnew (h item hitem hused)

/-- A user takes up all that it takes up. -/
theorem taken_taken : taken used before (taken used before items) = taken used before items := by
  have hall : ∀ item ∈ taken used before items, used item = true ∧ item ∉ before :=
    fun item hm => (mem_taken.mp hm).2
  rw [taken, List.filter_eq_self.mpr fun item hm => (hall item hm).1,
    List.filter_eq_self.mpr fun item hm => decide_eq_true (hall item hm).2]

/-- What a user takes up after others it takes up again from items that stand in that order. -/
theorem taken_of_nodup {rest : List α} (hrest : ∀ item ∈ rest, item ∈ items)
    (hn : (before ++ taken used before items ++ rest).Nodup) :
    taken used before (before ++ taken used before items ++ rest) = taken used before items := by
  have hlater : taken used before rest = [] := by
    refine taken_eq_nil fun item hm hused => Classical.byContradiction fun hnew => ?_
    -- An item that is taken up now does not come again.
    have htaken := mem_taken.mpr ⟨hrest item hm, hused, hnew⟩
    exact (List.nodup_append.mp hn).2.2 item (List.mem_append_right _ htaken) item hm rfl
  rw [taken_append, taken_append, taken_eq_nil fun item hm _ => hm, taken_taken, hlater,
    List.nil_append, List.append_nil]

end Taken

variable {α β : Type} [BEq α] [Hashable α] [LawfulBEq α]

/-- The items that are used, in the order in which they are first used. -/
def firstUse (uses : β → α → Bool) (users : List β) (items : List α) : List α :=
  (ofList (users.flatMap fun user => items.filter (uses user))).toList

variable (uses : β → α → Bool) (users : List β) {items : List α}

theorem nodup_firstUse (items : List α) : (firstUse uses users items).Nodup :=
  (wellFormed_ofList _).nodup

theorem mem_of_mem_firstUse {item : α} (hm : item ∈ firstUse uses users items) : item ∈ items := by
  rw [firstUse, mem_ofList, List.mem_flatMap] at hm
  obtain ⟨user, -, hitem⟩ := hm
  exact (List.mem_filter.mp hitem).1

/-- One more user takes up what no other has used. -/
theorem firstUse_concat (hn : items.Nodup) (user : β) :
    firstUse uses (users ++ [user]) items =
      firstUse uses users items ++ taken (uses user) (firstUse uses users items) items := by
  have hsplit : ofList ((users ++ [user]).flatMap fun user => items.filter (uses user)) =
      (ofList (users.flatMap fun user => items.filter (uses user))).insertMany
        (items.filter (uses user)) := by
    rw [List.flatMap_append, List.flatMap_singleton, ofList, insertMany_append, ← ofList]
  have hused : (items.filter (uses user)).Nodup := List.Pairwise.filter _ hn
  rw [firstUse, hsplit, (wellFormed_ofList _).toList_insertMany hused]
  rfl

/-- More users come after the others. -/
theorem exists_firstUse_append (hn : items.Nodup) (more : List β) :
    ∃ rest, firstUse uses (users ++ more) items = firstUse uses users items ++ rest := by
  induction more using List.reverseRecOn with
  | nil => exact ⟨[], by simp⟩
  | append_singleton more user ih =>
      obtain ⟨rest, hrest⟩ := ih
      rw [← List.append_assoc, firstUse_concat uses _ hn, hrest, List.append_assoc]
      exact ⟨_, rfl⟩

/-- The first users take up items in the same order if the items stand in the order in which all
users first use them. -/
theorem firstUse_firstUse_append (hn : items.Nodup) (more : List β) :
    firstUse uses users (firstUse uses (users ++ more) items) = firstUse uses users items := by
  induction users using List.reverseRecOn generalizing more with
  | nil => rfl
  | append_singleton users user ih =>
      have hall := nodup_firstUse uses (users ++ [user] ++ more) items
      obtain ⟨rest, hrest⟩ := exists_firstUse_append uses (users ++ [user]) hn more
      have hsub : ∀ item ∈ rest, item ∈ items := fun item hm =>
        mem_of_mem_firstUse uses _ (hrest ▸ List.mem_append_right _ hm)
      have hfirst : firstUse uses users (firstUse uses (users ++ [user] ++ more) items) =
          firstUse uses users items := by
        rw [List.append_assoc]
        exact ih ([user] ++ more)
      rw [firstUse_concat uses users hall, hfirst, firstUse_concat uses users hn]
      rw [hrest, firstUse_concat uses users hn] at hall ⊢
      rw [taken_of_nodup hsub hall]

/-- Items in the order of first use stay in this order. -/
theorem firstUse_firstUse (hn : items.Nodup) :
    firstUse uses users (firstUse uses users items) = firstUse uses users items := by
  simpa using firstUse_firstUse_append uses users hn []

end ProcessLogic.Roster
