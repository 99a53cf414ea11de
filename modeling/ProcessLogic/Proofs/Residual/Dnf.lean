import ProcessLogic.Proofs.Collection.Sorted
import ProcessLogic.Residual.Dnf

/-!
# The meaning of obligations in disjunctive normal form

Whenever a strong obligation implies the weak one for the same formula, leaving out implied
obligations and absorbed clauses changes no truth value. Hence `or` and `and` have the truth
values that their names promise.
-/

namespace ProcessLogic

open Sorted

theorem Obligation.linear_le : Linear Obligation.le where
  trans a b c := by
    cases a <;> cases b <;> cases c <;> simp [Obligation.le] <;> omega
  total a b := by
    cases a <;> cases b <;> simp [Obligation.le] <;> omega
  antisymm a b := by
    cases a <;> cases b <;> simp [Obligation.le] <;> omega

namespace Clause

/-- The obligations of a clause stand in order, each once. -/
abbrev Ordered (c : Clause) : Prop := Increasing Obligation.le c

theorem mem_union {c d : Clause} {o : Obligation} : o ∈ c.union d ↔ o ∈ c ∨ o ∈ d := by
  rw [union, mem_distinct, List.mem_append]

theorem ordered_union (c d : Clause) : (c.union d).Ordered :=
  increasing_distinct Obligation.linear_le _

/-- Dropping implied obligations keeps the order. -/
theorem Ordered.reduce {c : Clause} (h : c.Ordered) : c.reduce.Ordered := h.filter _

theorem isSubset_iff {c d : Clause} : c.isSubset d = true ↔ ∀ o ∈ c, o ∈ d := by
  simp [isSubset]

/-- A weak obligation is dropped exactly if there is the strong one for its formula. -/
theorem mem_reduce {c : Clause} {o : Obligation} :
    o ∈ c.reduce ↔ o ∈ c ∧ ∀ f, o = .weakNext f → .next f ∉ c := by
  rw [reduce, List.mem_filter]
  cases o with
  | next f => simp
  | weakNext f => simp

end Clause

/-- Meeting a strong obligation meets the weak one for the same formula. -/
def Obligation.Coherent (met : Obligation → Bool) : Prop :=
  ∀ f, met (.next f) = true → met (.weakNext f) = true

/-- What a clause leaves out it implies. -/
theorem Clause.all_reduce {met : Obligation → Bool} (hmet : Obligation.Coherent met)
    (c : Clause) : c.reduce.all met = c.all met := by
  rw [Bool.eq_iff_iff, List.all_eq_true, List.all_eq_true]
  constructor
  · intro h o ho
    cases o with
    | next f => exact h _ (Clause.mem_reduce.mpr ⟨ho, by simp⟩)
    | weakNext f =>
        by_cases hf : .next f ∈ c
        · exact hmet f (h _ (Clause.mem_reduce.mpr ⟨hf, by simp⟩))
        · refine h _ (Clause.mem_reduce.mpr ⟨ho, fun g hg => ?_⟩)
          obtain rfl := Obligation.weakNext.inj hg
          exact hf
  · intro h o ho
    exact h o (Clause.mem_reduce.mp ho).1

namespace Dnf

/-- Every clause is in order. -/
def Ordered (d : Dnf) : Prop := ∀ c ∈ d.clauses, c.Ordered

/-- Some clause of a list lies inside a given one and contains no other clause of the list. -/
theorem exists_minimal {clauses : List Clause} (h : ∀ c ∈ clauses, c.Ordered) {c : Clause}
    (hc : c ∈ clauses) :
    ∃ d ∈ clauses.filter fun c => !clauses.any fun d => d != c && d.isSubset c,
      ∀ o ∈ d, o ∈ c := by
  -- a clause with a smaller one inside is replaced by it until none is left
  induction hn : c.length using Nat.strongRecOn generalizing c with
  | ind n ih =>
      by_cases hmin : (clauses.any fun d => d != c && d.isSubset c) = true
      · obtain ⟨d, hd, hdc⟩ := List.any_eq_true.mp hmin
        obtain ⟨hne, hsub⟩ := Bool.and_eq_true_iff.mp hdc
        have hsub' := Clause.isSubset_iff.mp hsub
        have hlt : d.length < c.length :=
          (h d hd).length_lt Obligation.linear_le (h c hc) hsub' (bne_iff_ne.mp hne)
        obtain ⟨e, he, hed⟩ := ih d.length (by omega) hd rfl
        exact ⟨e, he, fun o ho => hsub' o (hed o ho)⟩
      · exact ⟨c, List.mem_filter.mpr ⟨hc, by simpa using hmin⟩, fun _ ho => ho⟩

section Normalize

variable {clauses : List Clause}

/-- The clauses before minimization are the reduced ones. -/
theorem mem_reduced {c : Clause} :
    c ∈ distinct Clause.le (clauses.map Clause.reduce) ↔ ∃ d ∈ clauses, d.reduce = c := by
  rw [mem_distinct, List.mem_map]

/-- Each of them stands in order. -/
theorem ordered_reduced (h : ∀ c ∈ clauses, c.Ordered) :
    ∀ c ∈ distinct Clause.le (clauses.map Clause.reduce), c.Ordered := by
  intro c hc
  obtain ⟨d, hd, rfl⟩ := mem_reduced.mp hc
  exact (h d hd).reduce

/-- A normal form stands in order. -/
theorem ordered_normalize (h : ∀ c ∈ clauses, c.Ordered) : (normalize clauses).Ordered :=
  fun c hc => ordered_reduced h c (List.mem_filter.mp hc).1

/-- Normalisation keeps the truth value of a disjunction of clauses. -/
theorem eval_normalize {met : Obligation → Bool} (hmet : Obligation.Coherent met)
    (h : ∀ c ∈ clauses, c.Ordered) :
    (normalize clauses).eval met = clauses.any fun c => c.all met := by
  rw [Bool.eq_iff_iff, eval, List.any_eq_true, List.any_eq_true]
  constructor
  · rintro ⟨c, hc, hall⟩
    obtain ⟨d, hd, rfl⟩ := mem_reduced.mp (List.mem_filter.mp hc).1
    exact ⟨d, hd, by rwa [Clause.all_reduce hmet] at hall⟩
  · rintro ⟨c, hc, hall⟩
    obtain ⟨d, hd, hsub⟩ := exists_minimal (ordered_reduced h) (mem_reduced.mpr ⟨c, hc, rfl⟩)
    rw [← Clause.all_reduce hmet c, List.all_eq_true] at hall
    exact ⟨d, hd, List.all_eq_true.mpr fun o ho => hall o (hsub o ho)⟩

end Normalize

@[simp] theorem normalize_nil : normalize [] = bottom := by
  simp [normalize, bottom, distinct, dropRepeats]

@[simp] theorem normalize_nil_clause : normalize [[]] = top := by
  simp [normalize, top, distinct, dropRepeats, Clause.reduce]

@[simp] theorem bottom_or_top : bottom.or top = top := normalize_nil_clause

@[simp] theorem bottom_or_bottom : bottom.or bottom = bottom := normalize_nil

@[simp] theorem top_or_bottom : top.or bottom = top := normalize_nil_clause

@[simp] theorem top_or_top : top.or top = top := by
  have htwice : distinct Clause.le [[], []] = [[]] := by
    simp [distinct, dropRepeats, List.mergeSort, List.cons_merge_cons]
  simp [or, normalize, top, htwice, Clause.reduce]

@[simp] theorem top_and_top : top.and top = top := by
  simp [and, top, distinct, dropRepeats, Clause.union]

@[simp] theorem top_and_bottom : top.and bottom = bottom := normalize_nil

@[simp] theorem bottom_and (d : Dnf) : bottom.and d = bottom := normalize_nil

/-- The conjunction of two truth values is their conjunction. -/
theorem ite_and_ite (v w : Bool) :
    (if v then top else bottom).and (if w then top else bottom) =
      if v && w then top else bottom := by
  cases v <;> cases w <;> simp

/-- The disjunction of two truth values is their disjunction. -/
theorem ite_or_ite (v w : Bool) :
    (if v then top else bottom).or (if w then top else bottom) =
      if v || w then top else bottom := by
  cases v <;> cases w <;> simp

theorem ordered_top : top.Ordered := by
  intro c hc
  obtain rfl := List.mem_singleton.mp hc
  exact List.Pairwise.nil

theorem ordered_bottom : bottom.Ordered := fun _ hc => absurd hc (List.not_mem_nil)

theorem ordered_ofObligation (o : Obligation) : (ofObligation o).Ordered := by
  intro c hc
  obtain rfl := List.mem_singleton.mp hc
  exact List.pairwise_singleton _ o

theorem ordered_ite (value : Bool) : (if value then top else bottom).Ordered := by
  cases value
  · exact ordered_bottom
  · exact ordered_top

theorem Ordered.append {d e : Dnf} (hd : d.Ordered) (he : e.Ordered) :
    ∀ c ∈ d.clauses ++ e.clauses, c.Ordered :=
  fun c hc => (List.mem_append.mp hc).elim (hd c) (he c)

/-- The unions of clauses are in order, as they are sorted anew. -/
theorem ordered_unions (d e : Dnf) :
    ∀ c ∈ d.clauses.flatMap fun c => e.clauses.map fun c' => c.union c', c.Ordered := by
  intro c hc
  obtain ⟨c₁, -, hc₁⟩ := List.mem_flatMap.mp hc
  obtain ⟨c₂, -, rfl⟩ := List.mem_map.mp hc₁
  exact Clause.ordered_union c₁ c₂

/-- The disjunction of values in order is in order. -/
theorem Ordered.or {d e : Dnf} (hd : d.Ordered) (he : e.Ordered) : (d.or e).Ordered :=
  ordered_normalize (hd.append he)

theorem ordered_and (d e : Dnf) : (d.and e).Ordered :=
  ordered_normalize (ordered_unions d e)

@[simp] theorem eval_top (met : Obligation → Bool) : top.eval met = true := rfl

@[simp] theorem eval_bottom (met : Obligation → Bool) : bottom.eval met = false := rfl

@[simp] theorem eval_ite (met : Obligation → Bool) (value : Bool) :
    (if value then top else bottom).eval met = value := by
  cases value <;> rfl

@[simp] theorem eval_ofObligation (met : Obligation → Bool) (o : Obligation) :
    (ofObligation o).eval met = met o := by
  simp [ofObligation, eval]

/-- A value without clauses is false. -/
theorem eval_of_isBottom {d : Dnf} (h : d.isBottom = true) (met : Obligation → Bool) :
    d.eval met = false := by
  rw [isBottom, List.isEmpty_iff] at h
  rw [eval, h]
  rfl

/-- A disjunction holds exactly if one of its operands does. -/
theorem eval_or {met : Obligation → Bool} (hmet : Obligation.Coherent met) {d e : Dnf}
    (hd : d.Ordered) (he : e.Ordered) : (d.or e).eval met = (d.eval met || e.eval met) := by
  rw [or, eval_normalize hmet (hd.append he), List.any_append]
  rfl

/-- A conjunction holds exactly if both of its operands do. -/
theorem eval_and {met : Obligation → Bool} (hmet : Obligation.Coherent met) (d e : Dnf) :
    (d.and e).eval met = (d.eval met && e.eval met) := by
  have hunion : ∀ c₁ c₂ : Clause, (c₁.union c₂).all met = (c₁.all met && c₂.all met) := by
    intro c₁ c₂
    rw [Bool.eq_iff_iff, Bool.and_eq_true]
    simp only [List.all_eq_true, Clause.mem_union, or_imp, forall_and]
  rw [and, eval_normalize hmet (ordered_unions d e), Bool.eq_iff_iff, Bool.and_eq_true]
  simp only [eval, List.any_flatMap, List.any_map, Function.comp_def, hunion, List.any_eq_true,
    Bool.and_eq_true]
  constructor
  · rintro ⟨c₁, h₁, c₂, h₂, ha₁, ha₂⟩
    exact ⟨⟨c₁, h₁, ha₁⟩, ⟨c₂, h₂, ha₂⟩⟩
  · rintro ⟨⟨c₁, h₁, ha₁⟩, ⟨c₂, h₂, ha₂⟩⟩
    exact ⟨c₁, h₁, c₂, h₂, ha₁, ha₂⟩

/-- At the end of a trace exactly the weak obligations are met. -/
theorem acceptsEnd_eq_eval (d : Dnf) : d.acceptsEnd = d.eval Obligation.isWeak := rfl

end Dnf

end ProcessLogic
