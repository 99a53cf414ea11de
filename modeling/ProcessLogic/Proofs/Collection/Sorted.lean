import ProcessLogic.Collection.Sorted

/-!
# Sorted lists without repeats stand for sets

Sorting and dropping repeats keeps exactly the elements, and two increasing lists with the
same elements are equal.
-/

namespace ProcessLogic.Sorted

variable {α : Type}

/-- A Boolean test that orders a type linearly. -/
structure Linear (le : α → α → Bool) : Prop where
  trans : ∀ a b c, le a b = true → le b c = true → le a c = true
  total : ∀ a b, (le a b || le b a) = true
  antisymm : ∀ a b, le a b = true → le b a = true → a = b

/-- Each element comes strictly before the next. -/
def Increasing (le : α → α → Bool) (as : List α) : Prop :=
  as.Pairwise fun a b => le a b = true ∧ a ≠ b

theorem Increasing.nodup {le : α → α → Bool} {as : List α} (h : Increasing le as) : as.Nodup :=
  h.imp fun hab => hab.2

theorem Increasing.filter {le : α → α → Bool} {as : List α} (h : Increasing le as)
    (p : α → Bool) : Increasing le (as.filter p) :=
  List.Pairwise.filter p h

/-- A set has one increasing list. -/
theorem Increasing.eq_of_mem_iff {le : α → α → Bool} (hle : Linear le) {as bs : List α}
    (ha : Increasing le as) (hb : Increasing le bs) (h : ∀ a, a ∈ as ↔ a ∈ bs) : as = bs := by
  have hperm : as.Perm bs := (List.perm_ext_iff_of_nodup ha.nodup hb.nodup).mpr h
  refine hperm.eq_of_pairwise ?_ ha hb
  intro a b _ _ hab hba
  exact hle.antisymm a b hab.1 hba.1

/-- A proper part of an increasing list is shorter. -/
theorem Increasing.length_lt {le : α → α → Bool} (hle : Linear le) {as bs : List α}
    (ha : Increasing le as) (hb : Increasing le bs) (hsub : ∀ a ∈ as, a ∈ bs) (hne : as ≠ bs) :
    as.length < bs.length := by
  have hmissing : ∃ b ∈ bs, b ∉ as := by
    refine Classical.byContradiction fun hall => hne (ha.eq_of_mem_iff hle hb fun a => ?_)
    refine ⟨hsub a, fun hm => Classical.byContradiction fun hn => hall ⟨a, hm, hn⟩⟩
  obtain ⟨b, hb, hbn⟩ := hmissing
  have hnodup : (b :: as).Nodup := List.nodup_cons.mpr ⟨hbn, ha.nodup⟩
  have hsub' : b :: as ⊆ bs := by
    intro x hx
    rcases List.mem_cons.mp hx with rfl | hx
    · exact hb
    · exact hsub x hx
  exact hnodup.length_le_of_subset hsub'

/-- An increasing list is part of every other that has all its elements. -/
theorem Increasing.sublist_of_mem [DecidableEq α] {le : α → α → Bool} (hle : Linear le) {as bs : List α}
    (ha : Increasing le as) (hb : Increasing le bs) (hsub : ∀ a ∈ as, a ∈ bs) :
    as.Sublist bs := by
  have hsame : as = bs.filter fun b => decide (b ∈ as) := by
    apply ha.eq_of_mem_iff hle (hb.filter _)
    intro a
    rw [List.mem_filter, decide_eq_true_eq]
    exact ⟨fun hm => ⟨hsub a hm, hm⟩, fun h => h.2⟩
  rw [hsame]
  exact List.filter_sublist

section Repeats

variable [BEq α] [LawfulBEq α]

theorem lexLe_cons_self (le : α → α → Bool) (a : α) (as bs : List α) :
    lexLe le (a :: as) (a :: bs) = lexLe le as bs := by
  simp [lexLe]

theorem lexLe_cons_of_ne {le : α → α → Bool} {a b : α} (h : a ≠ b) (as bs : List α) :
    lexLe le (a :: as) (b :: bs) = le a b := by
  simp [lexLe, h]

/-- The lexicographic order of a linear order is linear. -/
theorem linear_lexLe {le : α → α → Bool} (hle : Linear le) : Linear (lexLe le) where
  trans as bs cs hab hbc := by
    induction as generalizing bs cs with
    | nil => rfl
    | cons a as ih =>
        cases bs with
        | nil => exact nomatch hab
        | cons b bs =>
            cases cs with
            | nil => exact nomatch hbc
            | cons c cs =>
                by_cases hleft : a = b
                · subst hleft
                  rw [lexLe_cons_self] at hab
                  by_cases hright : a = c
                  · subst hright
                    rw [lexLe_cons_self] at hbc ⊢
                    exact ih bs cs hab hbc
                  · rwa [lexLe_cons_of_ne hright] at hbc ⊢
                · rw [lexLe_cons_of_ne hleft] at hab
                  by_cases hright : b = c
                  · subst hright
                    rwa [lexLe_cons_of_ne hleft]
                  · rw [lexLe_cons_of_ne hright] at hbc
                    have hne : a ≠ c := by
                      rintro rfl
                      exact hleft (hle.antisymm a b hab hbc)
                    rw [lexLe_cons_of_ne hne]
                    exact hle.trans a b c hab hbc
  total as bs := by
    induction as generalizing bs with
    | nil => rfl
    | cons a as ih =>
        cases bs with
        | nil => rfl
        | cons b bs =>
            by_cases he : a = b
            · subst he
              rw [lexLe_cons_self, lexLe_cons_self]
              exact ih bs
            · rw [lexLe_cons_of_ne he, lexLe_cons_of_ne (Ne.symm he)]
              exact hle.total a b
  antisymm as bs hab hba := by
    induction as generalizing bs with
    | nil =>
        cases bs with
        | nil => rfl
        | cons b bs => exact nomatch hba
    | cons a as ih =>
        cases bs with
        | nil => exact nomatch hab
        | cons b bs =>
            by_cases he : a = b
            · subst he
              rw [lexLe_cons_self] at hab hba
              rw [ih bs hab hba]
            · rw [lexLe_cons_of_ne he] at hab
              rw [lexLe_cons_of_ne (Ne.symm he)] at hba
              exact absurd (hle.antisymm a b hab hba) he

theorem mem_dropRepeats {as : List α} {x : α} : x ∈ dropRepeats as ↔ x ∈ as := by
  induction as using dropRepeats.induct with
  | case1 => rfl
  | case2 a => rfl
  | case3 a b rest he ih =>
      obtain rfl := eq_of_beq he
      rw [dropRepeats, if_pos he, ih]
      simp
  | case4 a b rest hne ih =>
      rw [dropRepeats, if_neg hne, List.mem_cons, ih, List.mem_cons (a := x) (b := a)]

/-- Without its repeats a sorted list increases strictly. -/
theorem increasing_dropRepeats {le : α → α → Bool} (hle : Linear le) {as : List α}
    (h : as.Pairwise fun a b => le a b = true) : Increasing le (dropRepeats as) := by
  induction as using dropRepeats.induct with
  | case1 => exact List.Pairwise.nil
  | case2 a => exact List.pairwise_singleton _ a
  | case3 a b rest he ih =>
      rw [dropRepeats, if_pos he]
      exact ih (List.pairwise_cons.mp h).2
  | case4 a b rest hne ih =>
      obtain ⟨hfirst, hrest⟩ := List.pairwise_cons.mp h
      rw [dropRepeats, if_neg hne]
      refine List.pairwise_cons.mpr ⟨fun x hx => ?_, ih hrest⟩
      have hx' : x ∈ b :: rest := mem_dropRepeats.mp hx
      refine ⟨hfirst x hx', ?_⟩
      rintro rfl
      -- a repeat of `a` further on would squeeze `b` between two copies of it
      have hab : le a b = true := hfirst b List.mem_cons_self
      rcases List.mem_cons.mp hx' with rfl | hx'
      · exact hne (beq_self_eq_true a)
      · have hba : le b a = true := (List.pairwise_cons.mp hrest).1 a hx'
        exact hne (beq_iff_eq.mpr (hle.antisymm a b hab hba))

theorem mem_distinct {le : α → α → Bool} {as : List α} {x : α} :
    x ∈ distinct le as ↔ x ∈ as := by
  rw [distinct, mem_dropRepeats, List.mem_mergeSort]

/-- The distinct items stand in order, each once. -/
theorem increasing_distinct {le : α → α → Bool} (hle : Linear le) (as : List α) :
    Increasing le (distinct le as) :=
  increasing_dropRepeats hle (List.pairwise_mergeSort hle.trans hle.total as)

/-- There are no more distinct items than items. -/
theorem length_distinct_le {le : α → α → Bool} (hle : Linear le) (as : List α) :
    (distinct le as).length ≤ as.length :=
  (increasing_distinct hle as).nodup.length_le_of_subset fun _ hx => mem_distinct.mp hx

/-- Of distinct elements none is dropped. -/
theorem length_distinct_of_nodup {le : α → α → Bool} (hle : Linear le) {as : List α}
    (h : as.Nodup) : (distinct le as).length = as.length :=
  Nat.le_antisymm (length_distinct_le hle as)
    (h.length_le_of_subset fun _ hx => mem_distinct.mpr hx)

/-- Lists with the same elements have the same distinct elements in order. -/
theorem distinct_congr {le : α → α → Bool} (hle : Linear le) {as bs : List α}
    (h : ∀ a, a ∈ as ↔ a ∈ bs) : distinct le as = distinct le bs := by
  refine (increasing_distinct hle as).eq_of_mem_iff hle (increasing_distinct hle bs) fun a => ?_
  rw [mem_distinct, mem_distinct, h]

end Repeats

theorem linear_string : Linear fun a b : String => decide (a ≤ b) where
  trans a b c hab hbc :=
    decide_eq_true (String.le_trans (of_decide_eq_true hab) (of_decide_eq_true hbc))
  total a b := by
    rcases String.le_total a b with h | h <;> simp [h]
  antisymm a b hab hba := String.le_antisymm (of_decide_eq_true hab) (of_decide_eq_true hba)

theorem mem_distinctStrings {names : List String} {name : String} :
    name ∈ distinctStrings names ↔ name ∈ names :=
  mem_distinct

end ProcessLogic.Sorted
