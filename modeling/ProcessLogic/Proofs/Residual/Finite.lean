import Mathlib.Algebra.Group.Nat.Defs
import Mathlib.Data.List.Sublists
import ProcessLogic.Proofs.Residual.Progression

/-!
# A store has finitely many residuals

Obligations speak of stored formulas. A clause holds each of them at most once and in order, and a
value holds each clause at most once and in order. So whatever is left after an event is one of
finitely many values, and over `n` formulas there are no more than `2 ^ 2 ^ (2 * n)`.
-/

namespace ProcessLogic

open Sorted

/-- Both obligations for each of the first `n` formulas. -/
def Obligation.below (n : Nat) : List Obligation :=
  (List.range n).flatMap fun f => [.next f, .weakNext f]

/-- Listed are the obligations for the first `n` formulas. -/
theorem Obligation.mem_below {o : Obligation} {n : Nat} : o ∈ below n ↔ o.formula < n := by
  cases o <;> simp [below, formula]

/-- There are two obligations for each formula. -/
theorem Obligation.length_below (n : Nat) : (below n).length = 2 * n := by
  rw [below, List.length_flatMap]
  simp [Nat.mul_comm]

theorem Obligation.nodup_below (n : Nat) : (below n).Nodup := by
  refine List.nodup_flatMap.mpr ⟨fun f _ => by simp, ?_⟩
  refine List.nodup_range.imp fun hne => ?_
  simpa [List.disjoint_left] using hne

namespace Clause

variable {n : Nat} {c d : Clause}

/-- A clause in order that speaks of the first `n` formulas only. -/
structure Within (n : Nat) (c : Clause) : Prop where
  ordered : c.Ordered
  formula_lt : ∀ o ∈ c, o.formula < n

/-- All clauses in order that speak of the first `n` formulas only. -/
def below (n : Nat) : List Clause := (distinct Obligation.le (Obligation.below n)).sublists

/-- Every clause for the first `n` formulas is listed. -/
theorem Within.mem_below (h : c.Within n) : c ∈ below n := by
  rw [below, List.mem_sublists]
  apply h.ordered.sublist_of_mem Obligation.linear_le (increasing_distinct Obligation.linear_le _)
  intro o ho
  rw [mem_distinct, Obligation.mem_below]
  exact h.formula_lt o ho

/-- There are at most as many clauses as sets of obligations. -/
theorem length_below_le (n : Nat) : (below n).length ≤ 2 ^ (2 * n) := by
  have hlength := length_distinct_le Obligation.linear_le (Obligation.below n)
  rw [Obligation.length_below] at hlength
  rw [below, List.length_sublists]
  exact Nat.pow_le_pow_right Nat.two_pos hlength

theorem within_nil (n : Nat) : Within n [] := ⟨List.Pairwise.nil, List.forall_mem_nil _⟩

theorem within_singleton {o : Obligation} (h : o.formula < n) : Within n [o] :=
  ⟨List.pairwise_singleton _ o, List.forall_mem_singleton.mpr h⟩

theorem Within.reduce (h : c.Within n) : c.reduce.Within n :=
  ⟨h.ordered.reduce, fun o ho => h.formula_lt o (mem_reduce.mp ho).1⟩

theorem Within.union (hc : c.Within n) (hd : d.Within n) : (c.union d).Within n := by
  refine ⟨ordered_union c d, fun o ho => ?_⟩
  rcases mem_union.mp ho with ho | ho
  · exact hc.formula_lt o ho
  · exact hd.formula_lt o ho

theorem linear_le : Linear Clause.le := linear_lexLe Obligation.linear_le

end Clause

namespace Dnf

variable {n : Nat} {d e : Dnf}

/-- A value whose clauses stand in order and speak of the first `n` formulas only. -/
structure Within (n : Nat) (d : Dnf) : Prop where
  increasing : Increasing Clause.le d.clauses
  clause : ∀ c ∈ d.clauses, c.Within n

/-- All values in order that speak of the first `n` formulas only. -/
def below (n : Nat) : List Dnf :=
  (distinct Clause.le (Clause.below n)).sublists.map Dnf.mk

/-- Every value for the first `n` formulas is listed. -/
theorem Within.mem_below (h : d.Within n) : d ∈ below n := by
  rw [below, List.mem_map]
  refine ⟨d.clauses, ?_, rfl⟩
  rw [List.mem_sublists]
  apply h.increasing.sublist_of_mem Clause.linear_le (increasing_distinct Clause.linear_le _)
  intro c hc
  rw [mem_distinct]
  exact (h.clause c hc).mem_below

/-- There are at most as many values as sets of clauses. -/
theorem length_below_le (n : Nat) : (below n).length ≤ 2 ^ 2 ^ (2 * n) := by
  have hlength := length_distinct_le Clause.linear_le (Clause.below n)
  rw [below, List.length_map, List.length_sublists]
  exact Nat.pow_le_pow_right Nat.two_pos (Nat.le_trans hlength (Clause.length_below_le n))

theorem within_bottom (n : Nat) : bottom.Within n :=
  ⟨List.Pairwise.nil, List.forall_mem_nil _⟩

theorem within_top (n : Nat) : top.Within n :=
  ⟨List.pairwise_singleton _ _, List.forall_mem_singleton.mpr (Clause.within_nil n)⟩

theorem within_ite (n : Nat) (value : Bool) : (if value then top else bottom).Within n := by
  cases value
  · exact within_bottom n
  · exact within_top n

theorem within_ofObligation {o : Obligation} (h : o.formula < n) : (ofObligation o).Within n :=
  ⟨List.pairwise_singleton _ _, List.forall_mem_singleton.mpr (Clause.within_singleton h)⟩

/-- Normalization brings in no formula. -/
theorem within_normalize {clauses : List Clause} (h : ∀ c ∈ clauses, c.Within n) :
    (normalize clauses).Within n := by
  refine ⟨(increasing_distinct Clause.linear_le _).filter _, fun c hc => ?_⟩
  obtain ⟨d, hd, rfl⟩ := mem_reduced.mp (List.mem_filter.mp hc).1
  exact (h d hd).reduce

theorem Within.or (hd : d.Within n) (he : e.Within n) : (d.or e).Within n := by
  refine within_normalize fun c hc => ?_
  rcases List.mem_append.mp hc with hc | hc
  · exact hd.clause c hc
  · exact he.clause c hc

theorem Within.and (hd : d.Within n) (he : e.Within n) : (d.and e).Within n := by
  refine within_normalize fun c hc => ?_
  obtain ⟨c₁, hc₁, hc⟩ := List.mem_flatMap.mp hc
  obtain ⟨c₂, hc₂, rfl⟩ := List.mem_map.mp hc
  exact (hd.clause c₁ hc₁).union (he.clause c₂ hc₂)

end Dnf

/-- A node leaves obligations for itself and its parts, and what its parts leave. -/
theorem Node.within_progress {event : Event} {self n : Nat} {known : Nat → Dnf} {node : Node}
    (hself : self < n) (hparts : ∀ j ∈ node.children, j < n ∧ (known j).Within n) :
    (node.progress event self known).Within n := by
  refine progress_induction (Dnf.within_ite n) (fun o ho => Dnf.within_ofObligation ?_)
    (fun _ _ hd he => hd.or he) (fun _ _ hd he => hd.and he) fun j hj => (hparts j hj).2
  rcases List.mem_cons.mp ho with ho | ho
  · rwa [ho]
  · exact (hparts _ ho).1

namespace Progress

variable {progress : Progress} {n : Nat}

/-- What a stored formula leaves after an event speaks of stored formulas. -/
theorem within_ofStore {store : Store} (hcl : store.Closed) (event : Event) (i : Nat) :
    ((ofStore store event).of i).Within store.size := by
  obtain ⟨hsize, hof⟩ := ofStore_spec hcl event
  induction i using Nat.strongRecOn with
  | ind i ih =>
      by_cases hi : i < store.size
      · obtain ⟨node, hnode⟩ := Roster.exists_get?_of_lt hi
        rw [hof i hi node hnode]
        apply Node.within_progress hi
        intro j hj
        have hlt := hcl.child_lt i node hnode j hj
        exact ⟨Nat.lt_trans hlt hi, ih j hlt⟩
      · rw [of_of_size_le (by omega)]
        exact Dnf.within_bottom _

/-- The successors of a clause bring in no formula that the progress does not. -/
theorem within_ofClause (h : ∀ i, (progress.of i).Within n) (clause : Clause) :
    (progress.ofClause clause).Within n := by
  apply List.foldlRecOn clause _ (Dnf.within_top n)
  exact fun sofar hsofar o _ => hsofar.and (h o.formula)

/-- Whatever a residual was, what is left of it speaks of stored formulas. -/
theorem within_successor (h : ∀ i, (progress.of i).Within n) (residual : Dnf) :
    (progress.successor residual).Within n := by
  apply List.foldlRecOn residual.clauses _ (Dnf.within_bottom n)
  exact fun sofar hsofar c _ => hsofar.or (within_ofClause h c)

end Progress

end ProcessLogic
