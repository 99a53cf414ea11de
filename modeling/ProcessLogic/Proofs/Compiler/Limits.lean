import ProcessLogic.Proofs.Compiler.Success

/-!
# The limits of compilation

A formula has an automaton exactly if the events of its universe can be listed and no more stages
can be reached than allowed. No other error is met. Both limits are easier to keep in a smaller
universe: it has no event that the larger one has not, so no stage either.
-/

namespace ProcessLogic

open Search

/-- Only unrestricted events have a limit for propositions. -/
theorem EventSemantics.allows_eq_false_iff {semantics : EventSemantics} {count : Nat} :
    semantics.allows count = false ↔ semantics = .unrestricted ∧ maxUnrestricted < count := by
  cases semantics <;> simp [allows]

/-- Events with any propositions are listed for 16 of them, and for no more. -/
example : EventSemantics.unrestricted.allows 16 = true ∧
    EventSemantics.unrestricted.allows 17 = false := by decide

/-- Fewer propositions than allowed are allowed. -/
theorem EventSemantics.allows_of_le {semantics : EventSemantics} {count count' : Nat}
    (h : count ≤ count') (hallows : semantics.allows count' = true) :
    semantics.allows count = true := by
  cases semantics with
  | single => rfl
  | unrestricted => exact decide_eq_true (Nat.le_trans h (of_decide_eq_true hallows))

namespace Compiler

variable {c c' : Compiler} {f : Formula} {error : CompileError}

/-- The two errors of compilation: too many propositions, or else too many stages. -/
theorem automaton_eq_error_iff : c.automaton f = .error error ↔
    (c.semantics.allows (c.propositions f).length = false ∧
      error = .tooManyPropositions (c.propositions f).length EventSemantics.maxUnrestricted) ∨
    (c.semantics.allows (c.propositions f).length = true ∧
      Exceeds (c.progression f).letters (c.progression f).step c.maxStates .initial ∧
      error = .tooManyStates f c.maxStates) := by
  cases hallows : c.semantics.allows (c.propositions f).length with
  | false => simp [automaton, hallows, eq_comm]
  | true =>
      cases hrun : run (c.progression f).letters (c.progression f).step (fun _ => false)
          c.maxStates .initial with
      | none => simp [automaton, hallows, hrun, exceeds_of_run hrun, eq_comm]
      | some result =>
          have hroom := (finished_of_run_unstopped hrun).not_exceeds
          obtain ⟨a, ha⟩ := exists_automaton hallows hroom
          simp [ha, hroom]

/-- A formula has an automaton exactly if it keeps both limits. -/
theorem exists_automaton_iff : (∃ a, c.automaton f = .ok a) ↔
    c.semantics.allows (c.propositions f).length = true ∧
      ¬ Exceeds (c.progression f).letters (c.progression f).step c.maxStates .initial := by
  cases hallows : c.semantics.allows (c.propositions f).length with
  | false =>
      have herror := automaton_eq_error_iff.mpr (Or.inl ⟨hallows, rfl⟩)
      simp [herror]
  | true =>
      by_cases hexceeds : Exceeds (c.progression f).letters (c.progression f).step c.maxStates
        .initial
      · have herror := automaton_eq_error_iff.mpr (Or.inr ⟨hallows, hexceeds, rfl⟩)
        simp [herror, hexceeds]
      · simp [hexceeds, exists_automaton hallows hexceeds]

/-- A compiler that differs from another in knowing fewer propositions. -/
structure Narrows (c c' : Compiler) : Prop where
  semantics_eq : c.semantics = c'.semantics
  maxStates_eq : c.maxStates = c'.maxStates
  declared_subset : ∀ p ∈ c.declared, p ∈ c'.declared

/-- A narrower compiler knows no proposition that the other does not know. -/
theorem Narrows.mem_propositions (h : c.Narrows c') {p : String} (hp : p ∈ c.propositions f) :
    p ∈ c'.propositions f := by
  rw [propositions, Sorted.mem_distinctStrings, List.mem_append] at hp ⊢
  exact hp.imp_left (h.declared_subset p)

/-- A narrower compiler knows at most as many propositions. -/
theorem Narrows.length_propositions_le (h : c.Narrows c') :
    (c.propositions f).length ≤ (c'.propositions f).length :=
  (Sorted.increasing_distinct Sorted.linear_string _).nodup.length_le_of_subset
    fun _ => h.mem_propositions

/-- The stages that a formula can reach are reached in a larger universe too. -/
theorem Narrows.reaches (h : c.Narrows c') {stage : Stage}
    (hreach : Reaches (c.progression f).letters (c.progression f).step .initial stage) :
    Reaches (c'.progression f).letters (c'.progression f).step .initial stage := by
  refine hreach.map fun letter hletter => ?_
  obtain ⟨event, hevent, rfl⟩ := Progression.mem_letters.mp hletter
  have hadmits := EventSemantics.admits_of_mem_events hevent
  rw [h.semantics_eq] at hadmits
  have hadmits' : c'.semantics.Admits (c'.propositions f) event :=
    ⟨fun p hp => h.mem_propositions (hadmits.1 p hp), hadmits.2⟩
  obtain ⟨listed, hlisted, hsame⟩ := EventSemantics.exists_mem_events hadmits'
  refine ⟨_, Progression.mem_letters.mpr ⟨listed, hlisted, rfl⟩, fun s => ?_⟩
  exact (Progression.step_congr hsame s).symm

/-- What a compiler of a larger universe compiles, one of a smaller universe does. -/
theorem Narrows.exists_automaton (h : c.Narrows c') (h' : ∃ a, c'.automaton f = .ok a) :
    ∃ a, c.automaton f = .ok a := by
  rw [exists_automaton_iff] at h' ⊢
  obtain ⟨hallows, hroom⟩ := h'
  rw [h.semantics_eq, h.maxStates_eq]
  refine ⟨EventSemantics.allows_of_le h.length_propositions_le hallows, ?_⟩
  rintro ⟨stages, hnodup, hlength, hreach⟩
  exact hroom ⟨stages, hnodup, hlength, fun s hs => h.reaches (hreach s hs)⟩

end Compiler

end ProcessLogic
