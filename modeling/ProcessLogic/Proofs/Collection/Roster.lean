import ProcessLogic.Collection.Roster

/-!
# Places in rosters

Listing an item keeps the list and the index of a roster in agreement, keeps the place of
every item listed before, and adds no other item. A well-formed roster lists no item twice,
so a place determines an item and an item its place.
-/

namespace ProcessLogic.Roster

variable {α : Type} [BEq α] [Hashable α]

/-- Everything listed in `r` has the same place in `r'`. -/
def Extends (r r' : Roster α) : Prop := ∀ (i : Nat) (a : α), r.get? i = some a → r'.get? i = some a

theorem Extends.refl (r : Roster α) : r.Extends r := fun _ _ h => h

theorem Extends.trans {r s t : Roster α} (h : r.Extends s) (h' : s.Extends t) : r.Extends t :=
  fun i a hi => h' i a (h i a hi)

/-- A place is taken exactly below the size. -/
theorem get?_eq_none_iff (r : Roster α) (i : Nat) : r.get? i = none ↔ r.size ≤ i :=
  Array.getElem?_eq_none_iff

theorem lt_size_of_get? {r : Roster α} {i : Nat} {a : α} (h : r.get? i = some a) : i < r.size :=
  (Array.getElem?_eq_some_iff.mp h).1

theorem exists_get?_of_lt {r : Roster α} {i : Nat} (h : i < r.size) : ∃ a, r.get? i = some a :=
  ⟨r.items[i], Array.getElem?_eq_getElem h⟩

/-- An extension is at least as long. -/
theorem Extends.size_le {r r' : Roster α} (h : r.Extends r') : r.size ≤ r'.size := by
  by_cases hr : r.size = 0
  · omega
  · obtain ⟨a, ha⟩ := exists_get?_of_lt (r := r) (i := r.size - 1) (by omega)
    have hlt := lt_size_of_get? (h _ a ha)
    omega

@[simp] theorem length_toList (r : Roster α) : r.toList.length = r.size := rfl

theorem getElem?_toList (r : Roster α) (i : Nat) : r.toList[i]? = r.get? i :=
  Array.getElem?_toList

theorem mem_toList_iff (r : Roster α) (a : α) : a ∈ r.toList ↔ ∃ i, r.get? i = some a := by
  rw [List.mem_iff_getElem?]
  simp only [getElem?_toList]

/-- The place that a well-formed roster gives an item is where the item stands. -/
theorem WellFormed.rank?_eq_some_iff {r : Roster α} (h : r.WellFormed) {a : α} {i : Nat} :
    r.rank? a = some i ↔ r.get? i = some a :=
  ⟨h.item_of_rank i a, h.rank_of_item i a⟩

/-- An item keeps its place in an extension. -/
theorem Extends.rank?_eq {r r' : Roster α} (he : r.Extends r') (h : r.WellFormed)
    (h' : r'.WellFormed) {a : α} (ha : a ∈ r.toList) : r'.rank? a = r.rank? a := by
  obtain ⟨i, hi⟩ := (mem_toList_iff r a).mp ha
  rw [h.rank?_eq_some_iff.mpr hi, h'.rank?_eq_some_iff]
  exact he i a hi

/-- No item stands at two places. -/
theorem WellFormed.get?_inj {r : Roster α} (h : r.WellFormed) {a : α} {i j : Nat}
    (hi : r.get? i = some a) (hj : r.get? j = some a) : i = j :=
  Option.some.inj ((h.rank_of_item i a hi).symm.trans (h.rank_of_item j a hj))

/-- Only what is not listed has no number. -/
theorem WellFormed.rank?_eq_none_iff {r : Roster α} (h : r.WellFormed) {a : α} :
    r.rank? a = none ↔ a ∉ r.toList := by
  rw [mem_toList_iff, Option.eq_none_iff_forall_ne_some]
  simp only [not_exists, ne_eq, h.rank?_eq_some_iff]

/-- The membership test of a roster is membership in its list. -/
theorem WellFormed.contains_iff {r : Roster α} (h : r.WellFormed) {a : α} :
    r.contains a = true ↔ a ∈ r.toList := by
  rw [contains, Option.isSome_iff_exists, mem_toList_iff]
  simp only [h.rank?_eq_some_iff]

theorem WellFormed.nodup {r : Roster α} (h : r.WellFormed) : r.toList.Nodup := by
  rw [List.nodup_iff_pairwise_ne, List.pairwise_iff_getElem]
  intro i j hi hj hij he
  have hgi : r.get? i = some r.toList[i] := by
    rw [← getElem?_toList, List.getElem?_eq_getElem hi]
  have hgj : r.get? j = some r.toList[i] := by
    rw [← getElem?_toList, List.getElem?_eq_getElem hj, he]
  exact absurd (h.get?_inj hgi hgj) (Nat.ne_of_lt hij)

theorem rank?_lt_size {r : Roster α} (h : r.WellFormed) {a : α} {i : Nat}
    (hr : r.rank? a = some i) : i < r.size :=
  lt_size_of_get? (h.rank?_eq_some_iff.mp hr)

/-- What listing an item does: it stands at a place already, or it comes to stand last. -/
theorem intern_cases (r : Roster α) (a : α) :
    (∃ i, r.rank? a = some i ∧ r.intern a = (i, r)) ∨
      (r.rank? a = none ∧
        r.intern a = (r.size, ⟨r.items.push a, r.ranks.insert a r.items.size⟩)) := by
  unfold intern rank?
  cases h : r.ranks[a]? with
  | some i => exact Or.inl ⟨i, rfl, rfl⟩
  | none => exact Or.inr ⟨rfl, rfl⟩

/-- Interning keeps all numbers. -/
theorem extends_intern (r : Roster α) (a : α) : r.Extends (r.intern a).2 := by
  rcases intern_cases r a with ⟨i, _, he⟩ | ⟨_, he⟩
  · rw [he]
    exact Extends.refl r
  · rw [he]
    intro i b hb
    have hlt : i < r.items.size := lt_size_of_get? hb
    change (r.items.push a)[i]? = some b
    rw [Array.getElem?_push, if_neg (Nat.ne_of_lt hlt)]
    exact hb

/-- Listing an item adds no other. -/
theorem get?_intern_cases {r : Roster α} {a b : α} {i : Nat}
    (h : (r.intern a).2.get? i = some b) :
    r.get? i = some b ∨ (r.rank? a = none ∧ i = r.size ∧ b = a) := by
  rcases intern_cases r a with ⟨j, _, he⟩ | ⟨hn, he⟩
  · rw [he] at h
    exact Or.inl h
  · rw [he] at h
    change (r.items.push a)[i]? = some b at h
    rw [Array.getElem?_push] at h
    split at h
    · exact Or.inr ⟨hn, ‹_›, (Option.some.inj h).symm⟩
    · exact Or.inl h

/-- A new item comes to stand last. -/
theorem insert_of_rank?_eq_none {r : Roster α} {a : α} (h : r.rank? a = none) :
    r.insert a = ⟨r.items.push a, r.ranks.insert a r.items.size⟩ := by
  rcases intern_cases r a with ⟨i, hi, _⟩ | ⟨_, he⟩
  · rw [h] at hi
    exact absurd hi (by simp)
  · rw [insert, he]

/-- A new item is listed at the end. -/
theorem get?_insert_of_rank?_eq_none {r : Roster α} {a : α} (h : r.rank? a = none) (i : Nat) :
    (r.insert a).get? i = if i = r.size then some a else r.get? i := by
  rw [insert_of_rank?_eq_none h]
  exact Array.getElem?_push

/-- A new item makes the roster longer by one. -/
theorem size_insert_of_rank?_eq_none {r : Roster α} {a : α} (h : r.rank? a = none) :
    (r.insert a).size = r.size + 1 := by
  rw [insert_of_rank?_eq_none h]
  exact Array.size_push _

/-- After an item has been listed it stands at the place returned for it. -/
theorem WellFormed.get?_intern {r : Roster α} (h : r.WellFormed) (a : α) :
    (r.intern a).2.get? (r.intern a).1 = some a := by
  rcases intern_cases r a with ⟨i, hi, he⟩ | ⟨_, he⟩
  · rw [he]
    exact h.rank?_eq_some_iff.mp hi
  · rw [he]
    exact Array.getElem?_push_size

/-- After an insertion the item is listed beside those before. -/
theorem WellFormed.mem_insert {r : Roster α} (h : r.WellFormed) {a b : α} :
    b ∈ (r.insert a).toList ↔ b ∈ r.toList ∨ b = a := by
  simp only [mem_toList_iff]
  constructor
  · rintro ⟨i, hi⟩
    rcases get?_intern_cases hi with hr | ⟨_, _, rfl⟩
    · exact Or.inl ⟨i, hr⟩
    · exact Or.inr rfl
  · rintro (⟨i, hi⟩ | rfl)
    · exact ⟨i, extends_intern r a i b hi⟩
    · exact ⟨_, h.get?_intern b⟩

/-- Inserting items keeps all numbers. -/
theorem extends_insertMany (r : Roster α) (as : List α) : r.Extends (r.insertMany as) := by
  induction as generalizing r with
  | nil => exact Extends.refl r
  | cons a as ih => exact (extends_intern r a).trans (ih (r.insert a))

theorem insertMany_append (r : Roster α) (as bs : List α) :
    r.insertMany (as ++ bs) = (r.insertMany as).insertMany bs :=
  List.foldl_append

/-- Listing an item again changes nothing. -/
theorem WellFormed.insert_of_mem {r : Roster α} (h : r.WellFormed) {a : α} (ha : a ∈ r.toList) :
    r.insert a = r := by
  rcases intern_cases r a with ⟨i, -, he⟩ | ⟨hn, -⟩
  · rw [Roster.insert, he]
  · exact absurd ha (h.rank?_eq_none_iff.mp hn)

/-- Inserting what is listed already changes nothing. -/
theorem WellFormed.insertMany_of_subset {r : Roster α} (h : r.WellFormed) {as : List α}
    (has : ∀ a ∈ as, a ∈ r.toList) : r.insertMany as = r := by
  induction as with
  | nil => rfl
  | cons a as ih =>
      obtain ⟨ha, has⟩ := List.forall_mem_cons.mp has
      rw [Roster.insertMany, List.foldl_cons, h.insert_of_mem ha]
      exact ih has

/-- A new item stands last. -/
theorem WellFormed.toList_insert {r : Roster α} (h : r.WellFormed) {a : α} (ha : a ∉ r.toList) :
    (r.insert a).toList = r.toList ++ [a] := by
  rw [insert_of_rank?_eq_none (h.rank?_eq_none_iff.mpr ha)]
  exact Array.toList_push

section Growth

variable [LawfulBEq α]

theorem wellFormed_empty : ({} : Roster α).WellFormed where
  rank_of_item _ _ h := by simp at h
  item_of_rank _ _ h := by simp at h

theorem WellFormed.intern {r : Roster α} (h : r.WellFormed) (a : α) :
    (r.intern a).2.WellFormed := by
  rcases intern_cases r a with ⟨i, _, he⟩ | ⟨hn, he⟩
  · rw [he]
    exact h
  · rw [he]
    constructor
    · intro i b hb
      rw [Array.getElem?_push] at hb
      rw [Std.HashMap.getElem?_insert]
      split at hb
      · obtain rfl := Option.some.inj hb
        simp_all
      · have hne : a ≠ b := by
          rintro rfl
          have hr := h.rank_of_item i _ hb
          rw [show r.ranks[a]? = none from hn] at hr
          exact absurd hr (by simp)
        simp only [beq_iff_eq, hne, if_false]
        exact h.rank_of_item i b hb
    · intro i b hb
      rw [Std.HashMap.getElem?_insert] at hb
      rw [Array.getElem?_push]
      split at hb
      · obtain rfl := Option.some.inj hb
        simp_all
      · have hi := h.item_of_rank i b hb
        have hlt : i < r.items.size := lt_size_of_get? hi
        rw [if_neg (Nat.ne_of_lt hlt)]
        exact hi

theorem WellFormed.insert {r : Roster α} (h : r.WellFormed) (a : α) : (r.insert a).WellFormed :=
  h.intern a

theorem WellFormed.insertMany {r : Roster α} (h : r.WellFormed) (as : List α) :
    (r.insertMany as).WellFormed := by
  induction as generalizing r with
  | nil => exact h
  | cons a as ih => exact ih (h.insert a)

/-- After insertions the items are listed beside those before. -/
theorem WellFormed.mem_insertMany {r : Roster α} (h : r.WellFormed) {as : List α} {b : α} :
    b ∈ (r.insertMany as).toList ↔ b ∈ r.toList ∨ b ∈ as := by
  induction as generalizing r with
  | nil => simp [Roster.insertMany]
  | cons a as ih =>
      have hstep := ih (h.insert a)
      rw [h.mem_insert] at hstep
      rw [List.mem_cons, ← or_assoc]
      exact hstep

@[simp] theorem toList_ofList_singleton (a : α) : (ofList [a]).toList = [a] := by
  rcases intern_cases ({} : Roster α) a with ⟨i, hi, _⟩ | ⟨_, he⟩
  · simp [rank?] at hi
  · simp only [ofList, insertMany, List.foldl_cons, List.foldl_nil, insert, he]
    rfl

/-- A roster made of a list is well-formed, with repeats in the list or not. -/
theorem wellFormed_ofList (as : List α) : (ofList as).WellFormed :=
  wellFormed_empty.insertMany as

/-- Of different items those that are new come to stand last, in their order. -/
theorem WellFormed.toList_insertMany {r : Roster α} (h : r.WellFormed) {as : List α}
    (hn : as.Nodup) :
    (r.insertMany as).toList = r.toList ++ as.filter fun a => decide (a ∉ r.toList) := by
  induction as generalizing r with
  | nil => exact (List.append_nil _).symm
  | cons a as ih =>
      obtain ⟨ha, hn⟩ := List.nodup_cons.mp hn
      have hstep : (r.insertMany (a :: as)).toList = ((r.insert a).insertMany as).toList := rfl
      rw [hstep, ih (h.insert a) hn]
      by_cases hm : a ∈ r.toList
      · rw [h.insert_of_mem hm, List.filter_cons_of_neg (by simpa using hm)]
      · have hrest : (as.filter fun b => decide (b ∉ (r.insert a).toList)) =
            as.filter fun b => decide (b ∉ r.toList) := by
          refine List.filter_congr fun b hb => ?_
          have hne : b ≠ a := fun he => ha (he ▸ hb)
          simp [h.mem_insert, hne]
        rw [hrest, h.toList_insert hm, List.filter_cons_of_pos (by simpa using hm),
          List.append_assoc, List.singleton_append]

/-- A list without repeats is listed as it is. -/
theorem toList_ofList_of_nodup {as : List α} (h : as.Nodup) : (ofList as).toList = as := by
  rw [ofList, wellFormed_empty.toList_insertMany h]
  simp [toList]

/-- In a roster made of a list without repeats the numbers are the places. -/
theorem rank?_ofList_of_nodup {as : List α} (h : as.Nodup) {a : α} {i : Nat} :
    (ofList as).rank? a = some i ↔ as[i]? = some a := by
  rw [(wellFormed_ofList as).rank?_eq_some_iff, ← getElem?_toList, toList_ofList_of_nodup h]

/-- The roster of a list has the items of the list. -/
theorem mem_ofList {as : List α} {a : α} : a ∈ (ofList as).toList ↔ a ∈ as := by
  rw [ofList, wellFormed_empty.mem_insertMany]
  simp [toList]

theorem contains_ofList {as : List α} {a : α} : (ofList as).contains a = true ↔ a ∈ as := by
  rw [(wellFormed_ofList as).contains_iff, mem_ofList]

end Growth

end ProcessLogic.Roster
