import ProcessLogic.Proofs.Residual.Finite

/-!
# Reduced values

Clauses are reduced one by one before clauses that contain another are left out. What comes out is
reduced in both ways: no clause holds both obligations for a formula, and none contains another. So
every value that progression computes is reduced.
-/

namespace ProcessLogic

open Sorted

/-- No obligation of a clause is implied by another one of it, and no clause contains another.
Clauses, and the obligations in a clause, are listed as sets are. -/
structure Dnf.Reduced (d : Dnf) : Prop where
  increasing : Increasing Clause.le d.clauses
  ordered : d.Ordered
  strict : ∀ c ∈ d.clauses, ∀ f, .next f ∈ c → .weakNext f ∉ c
  minimal : ∀ c ∈ d.clauses, ∀ c' ∈ d.clauses, c ⊆ c' → c = c'

namespace Clause

variable {c : Clause}

/-- A reduced clause has no weak obligation beside the strong one for its formula. -/
theorem weakNext_notMem_reduce {f : Nat} (h : .next f ∈ c.reduce) : .weakNext f ∉ c.reduce :=
  fun hweak => (mem_reduce.mp hweak).2 f rfl (mem_reduce.mp h).1

end Clause

namespace Dnf

section Normalize

variable {clauses : List Clause} {c : Clause}

/-- A reduced clause is kept if no other one lies inside of it. -/
theorem mem_normalize : c ∈ (normalize clauses).clauses ↔
    (∃ c' ∈ clauses, c'.reduce = c) ∧ ∀ c' ∈ clauses, c'.reduce ⊆ c → c'.reduce = c := by
  rw [normalize, List.mem_filter, mem_reduced]
  refine and_congr_right fun _ => ?_
  simp only [Bool.not_eq_true', List.any_eq_false, mem_reduced, Bool.and_eq_true, bne_iff_ne,
    Clause.isSubset_iff]
  constructor
  · intro h c' hc' hsub
    exact Classical.byContradiction fun hne => h c'.reduce ⟨c', hc', rfl⟩ ⟨hne, fun _ ho => hsub ho⟩
  · rintro h _ ⟨c', hc', rfl⟩ ⟨hne, hsub⟩
    exact hne (h c' hc' fun _ ho => hsub _ ho)

/-- Normalization gives a reduced value, if the clauses stand in order. -/
theorem reduced_normalize (h : ∀ c ∈ clauses, c.Ordered) : (normalize clauses).Reduced where
  increasing := (increasing_distinct Clause.linear_le _).filter _
  ordered := ordered_normalize h
  strict c hc f hnext := by
    obtain ⟨⟨c', -, rfl⟩, -⟩ := mem_normalize.mp hc
    exact Clause.weakNext_notMem_reduce hnext
  minimal c hc c' hc' hsub := by
    obtain ⟨⟨b, hb, rfl⟩, -⟩ := mem_normalize.mp hc
    exact (mem_normalize.mp hc').2 b hb hsub

end Normalize

section Operations

variable {d e : Dnf}

theorem reduced_bottom : bottom.Reduced := by
  rw [← normalize_nil]
  exact reduced_normalize (List.forall_mem_nil _)

theorem reduced_top : top.Reduced := by
  rw [← normalize_nil_clause]
  exact reduced_normalize ordered_top

theorem reduced_ite (value : Bool) : (if value then top else bottom).Reduced := by
  cases value
  · exact reduced_bottom
  · exact reduced_top

theorem reduced_ofObligation (o : Obligation) : (ofObligation o).Reduced where
  increasing := List.pairwise_singleton _ _
  ordered := ordered_ofObligation o
  strict c hc f hnext hweak := by
    obtain rfl := List.mem_singleton.mp hc
    exact nomatch (List.mem_singleton.mp hnext).trans (List.mem_singleton.mp hweak).symm
  minimal c hc c' hc' _ := (List.mem_singleton.mp hc).trans (List.mem_singleton.mp hc').symm

/-- A disjunction is reduced. -/
theorem reduced_or (hd : d.Ordered) (he : e.Ordered) : (d.or e).Reduced :=
  reduced_normalize (hd.append he)

/-- A conjunction is reduced, whatever its operands are. -/
theorem reduced_and (d e : Dnf) : (d.and e).Reduced :=
  reduced_normalize (ordered_unions d e)

end Operations

end Dnf

/-- What a node leaves is reduced if what its parts leave is. -/
theorem Node.reduced_progress {event : Event} {self : Nat} {known : Nat → Dnf} {node : Node}
    (h : ∀ j ∈ node.children, (known j).Reduced) : (node.progress event self known).Reduced :=
  progress_induction Dnf.reduced_ite (fun o _ => Dnf.reduced_ofObligation o)
    (fun _ _ hd he => Dnf.reduced_or hd.ordered he.ordered) (fun d e _ _ => Dnf.reduced_and d e) h

namespace Progress

/-- What a number leaves after an event is reduced, also if it is the number of no formula. -/
theorem reduced_of (store : Store) (event : Event) (i : Nat) :
    ((ofStore store event).of i).Reduced := by
  revert i
  refine Array.foldl_induction (fun _ progress => ∀ i, (of progress i).Reduced) (fun i => ?_)
    fun k progress hknown i => ?_
  · rw [of_of_size_le (Nat.zero_le i)]
    exact Dnf.reduced_bottom
  · rw [of_push]
    split
    · exact Node.reduced_progress fun j _ => hknown j
    · exact hknown i

/-- What is left of a residual is reduced, whatever the residual was. -/
theorem reduced_successor (progress : Progress) (residual : Dnf) :
    (progress.successor residual).Reduced := by
  apply List.foldlRecOn residual.clauses _ Dnf.reduced_bottom
  exact fun sofar hsofar c _ => Dnf.reduced_or hsofar.ordered (ordered_ofClause progress c)

end Progress

namespace Dnf

/-- The values that the operations give. -/
inductive Produced : Dnf → Prop
  | top : Produced top
  | bottom : Produced bottom
  | ofObligation (o : Obligation) : Produced (ofObligation o)
  | or {d e : Dnf} (hd : d.Ordered) (he : e.Ordered) : Produced (d.or e)
  | and (d e : Dnf) : Produced (d.and e)
  | progress (store : Store) (event : Event) (i : Nat) :
      Produced ((Progress.ofStore store event).of i)
  | successor (store : Store) (event : Event) (residual : Dnf) :
      Produced ((Progress.ofStore store event).successor residual)

/-- Every value that the operations give is reduced. -/
theorem Produced.reduced {d : Dnf} (h : d.Produced) : d.Reduced := by
  cases h with
  | top => exact reduced_top
  | bottom => exact reduced_bottom
  | ofObligation o => exact reduced_ofObligation o
  | or hd he => exact reduced_or hd he
  | and d e => exact reduced_and d e
  | progress store event i => exact Progress.reduced_of store event i
  | successor store event residual => exact Progress.reduced_successor _ residual

/-- The operations have the truth values of what they stand for, whenever a strong obligation
implies the weak one, and what they give is reduced. The end of a trace is accepted if the value is
true when no strong obligation is met and every weak one is. -/
theorem operations_sound {met : Obligation → Bool} (hmet : Obligation.Coherent met) :
    (∀ d e : Dnf, d.Ordered → e.Ordered →
      ((d.or e).eval met = true ↔ d.eval met = true ∨ e.eval met = true) ∧
      ((d.and e).eval met = true ↔ d.eval met = true ∧ e.eval met = true)) ∧
    (∀ clauses : List Clause, (∀ c ∈ clauses, c.Ordered) →
      ((normalize clauses).eval met = true ↔ ∃ c ∈ clauses, ∀ o ∈ c, met o = true)) ∧
    ∀ d : Dnf, d.Produced → d.Reduced ∧
      ∀ atEnd : Obligation → Bool, (∀ f, atEnd (.next f) = false) →
        (∀ f, atEnd (.weakNext f) = true) → d.acceptsEnd = d.eval atEnd := by
  refine ⟨fun d e hd he => ⟨?_, ?_⟩, fun clauses hclauses => ?_,
    fun d hd => ⟨hd.reduced, fun atEnd hnext hweak => ?_⟩⟩
  · rw [eval_or hmet hd he, Bool.or_eq_true]
  · rw [eval_and hmet, Bool.and_eq_true]
  · rw [eval_normalize hmet hclauses]
    simp only [List.any_eq_true, List.all_eq_true]
  · have hend : atEnd = Obligation.isWeak := by
      funext o
      cases o with
      | next f => exact hnext f
      | weakNext f => exact hweak f
    rw [acceptsEnd_eq_eval, hend]

/-- Of both obligations for a formula the weak one allows the end, but not together with the
strong one. -/
theorem operations_sound_both :
    ((ofObligation (.next 1)).or (ofObligation (.weakNext 1))).acceptsEnd = true ∧
    ((ofObligation (.next 1)).and (ofObligation (.weakNext 1))).acceptsEnd = false ∧
    ((ofObligation (.next 1)).and (ofObligation (.weakNext 1))).Reduced ∧
    (normalize [[.next 1, .weakNext 1], [.weakNext 2]]).eval Obligation.isWeak = true := by
  have hcoherent : Obligation.Coherent Obligation.isWeak := fun f hf => nomatch hf
  obtain ⟨hbinary, hnormalize, hproduced⟩ := operations_sound hcoherent
  obtain ⟨hor, hand⟩ := hbinary _ _ (ordered_ofObligation (.next 1))
    (ordered_ofObligation (.weakNext 1))
  have hend : ∀ d : Dnf, d.Produced → d.acceptsEnd = d.eval Obligation.isWeak :=
    fun d hd => (hproduced d hd).2 _ (fun _ => rfl) fun _ => rfl
  refine ⟨?_, ?_, (hproduced _ (.and _ _)).1, ?_⟩
  · rw [hend _ (.or (ordered_ofObligation _) (ordered_ofObligation _)), hor]
    exact .inr rfl
  · rw [hend _ (.and _ _), Bool.eq_false_iff, ne_eq, hand]
    exact fun h => nomatch h.1
  · refine (hnormalize _ ?_).mpr ⟨[.weakNext 2], by simp, by simp [Obligation.isWeak]⟩
    simp [Clause.Ordered, Increasing, Obligation.le]

end Dnf

end ProcessLogic
