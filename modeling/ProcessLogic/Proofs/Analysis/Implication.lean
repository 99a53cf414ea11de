import Mathlib.Data.List.InsertIdx
import ProcessLogic.Proofs.Analysis.Conjunction
import ProcessLogic.Proofs.Analysis.Consultation

/-!
# What an analysis of requirements finds

All automata of an analysis are over the universe of its compiler, so emptiness and equality of
their languages are questions about traces: whether one satisfies all requirements, and whether
those that satisfy the others satisfy one more.
-/

namespace ProcessLogic

namespace Formula

/-- The formula at a place holds on every trace on which all others hold. -/
def ImpliedAt (semantics : EventSemantics) (props : List String) (formulas : List Formula)
    (i : Nat) : Prop :=
  ∀ trace, semantics.AdmitsTrace props trace →
    (∀ (j : Nat) (f : Formula), j ≠ i → formulas[j]? = some f → f.nnf.holds trace = true) →
      ∀ f, formulas[i]? = some f → f.nnf.holds trace = true

/-- A formula that occurs twice is implied. -/
theorem impliedAt_of_repeated {semantics : EventSemantics} {props : List String}
    {formulas : List Formula} {i j : Nat} (hne : j ≠ i) (h : formulas[j]? = formulas[i]?) :
    ImpliedAt semantics props formulas i := by
  intro trace _ hothers f hf
  exact hothers j f hne (h.trans hf)

variable {formulas : List Formula} {i : Nat}

/-- All formulas but one hold exactly if those at all other places do. -/
theorem all_eraseIdx_eq_true_iff (trace : Trace) :
    ((formulas.eraseIdx i).all fun f => f.nnf.holds trace) = true ↔
      ∀ (j : Nat) (f : Formula), j ≠ i → formulas[j]? = some f → f.nnf.holds trace = true := by
  simp only [List.all_eq_true, List.mem_eraseIdx_iff_getElem?]
  constructor
  · intro h j f hne hj
    exact h f ⟨j, hne, hj⟩
  · rintro h f ⟨j, hne, hj⟩
    exact h j f hne hj

/-- All formulas hold if those but one do and that one does. -/
theorem all_eq_true_iff_of_getElem? {f : Formula} (hi : formulas[i]? = some f) (trace : Trace) :
    (formulas.all fun g => g.nnf.holds trace) = true ↔
      ((formulas.eraseIdx i).all fun g => g.nnf.holds trace) = true ∧
        f.nnf.holds trace = true := by
  rw [all_eraseIdx_eq_true_iff, List.all_eq_true]
  constructor
  · intro h
    exact ⟨fun j g _ hj => h g (List.mem_of_getElem? hj), h f (List.mem_of_getElem? hi)⟩
  · rintro ⟨h, hf⟩ g hg
    obtain ⟨j, hj⟩ := List.mem_iff_getElem?.mp hg
    by_cases hne : j = i
    · subst hne
      obtain rfl := Option.some.inj (hi.symm.trans hj)
      exact hf
    · exact h j g hne hj

/-- A formula is implied if leaving it out does not change on which traces all hold. -/
theorem impliedAt_iff {semantics : EventSemantics} {props : List String}
    (hi : i < formulas.length) : ImpliedAt semantics props formulas i ↔
      ∀ trace, semantics.AdmitsTrace props trace →
        (formulas.all fun g => g.nnf.holds trace) =
          (formulas.eraseIdx i).all fun g => g.nnf.holds trace := by
  have hf : formulas[i]? = some formulas[i] := List.getElem?_eq_getElem hi
  refine forall_congr' fun trace => forall_congr' fun _ => ?_
  rw [Bool.eq_iff_iff, all_eq_true_iff_of_getElem? hf, and_iff_left_iff_imp,
    all_eraseIdx_eq_true_iff]
  simp only [hf, Option.some.injEq, forall_eq']

end Formula

namespace Requirement

variable {all : List Requirement} {formulas : List Formula}

/-- What an analysis that succeeds has asked for and found. -/
theorem analyze_cases {oracle : Oracle} {analysis : Analysis}
    (h : (analyze oracle all).outcome = .ok analysis) :
    ∃ whole, oracle.automaton (conjoin all) = .ok whole ∧
      analysis.satisfiable = !whole.isEmpty ∧
      analysis.redundant =
        firstPerFormula (selectAt (fun _ i => isImplied oracle whole all i) all) ∧
      ∀ i < all.length, ∃ others, oracle.automaton (conjoin (all.eraseIdx i)) = .ok others := by
  rcases answers_or_failsAt oracle all with hanswers | hfails
  · obtain ⟨⟨whole, hwhole⟩, hothers⟩ := forall_mem_queries.mp hanswers
    rw [analyze_of_answers hwhole hothers] at h
    obtain rfl := Except.ok.inj h
    exact ⟨whole, hwhole, rfl, rfl, hothers⟩
  · obtain ⟨error, herror⟩ := exists_error_iff.mpr (exists_failsAt_iff.mp hfails)
    rw [h] at herror
    exact nomatch herror

/-- The text of requirements that are read as formulas is read as their conjunction. -/
theorem parse_conjoin (h : all.map (Formula.parse ·.formula) = formulas.map .ok) :
    Formula.parse (conjoin all) = .ok (Formula.conjoin formulas) := by
  apply Formula.parse_conjunction
  rw [List.map_map]
  exact h

/-- Formulas about the first event only have an automaton together, if their universe is small
enough. -/
theorem answers_of_isImmediate {c : Compiler}
    (h : all.map (Formula.parse ·.formula) = formulas.map .ok)
    (himmediate : ∀ f ∈ formulas, f.nnf.isImmediate = true)
    (hallows : c.semantics.allows (c.propositions (Formula.conjoin formulas)).length = true)
    (hlimit : 2 ≤ c.maxStates) : c.oracle.Answers (conjoin all) := by
  have hconjoin : (Formula.conjoin formulas).nnf.isImmediate = true :=
    Formula.conjoin_induction (P := fun f => f.nnf.isImmediate = true) rfl
      (fun _ _ hf hg => Bool.and_eq_true_iff.mpr ⟨hf, hg⟩) himmediate
  obtain ⟨compiled, hcompiled⟩ := Compiler.exists_automaton_of_isImmediate hallows hconjoin hlimit
  obtain ⟨a, ha, -⟩ := Oracle.exists_automaton_of_compiled (parse_conjoin h) hcompiled
  exact ⟨a, ha⟩

/-- The texts of some requirements are read as formulas over the propositions that a compiler
knows. -/
structure ReadAs (c : Compiler) (all : List Requirement) (formulas : List Formula) : Prop where
  parse_eq : all.map (Formula.parse ·.formula) = formulas.map .ok
  declared : ∀ f ∈ formulas, ∀ p ∈ f.occurrences, p ∈ c.declared

namespace ReadAs

variable {c : Compiler} (h : ReadAs c all formulas)
include h

/-- There are as many formulas as requirements. -/
theorem length_eq : all.length = formulas.length := by
  simpa using congrArg List.length h.parse_eq

/-- The texts say which formulas they are, whatever the compiler knows. -/
theorem formulas_eq {c' : Compiler} {formulas' : List Formula} (h' : ReadAs c' all formulas') :
    formulas = formulas' :=
  (List.map_inj_right fun _ _ he => Except.ok.inj he).mp (h.parse_eq.symm.trans h'.parse_eq)

/-- Without one requirement the formulas are those of the others. -/
theorem eraseIdx (i : Nat) : ReadAs c (all.eraseIdx i) (formulas.eraseIdx i) where
  parse_eq := by rw [← List.eraseIdx_map, ← List.eraseIdx_map, h.parse_eq]
  declared f hf := h.declared f (List.mem_of_mem_eraseIdx hf)

/-- The text of all requirements is read as the conjunction of their formulas. -/
theorem parse_conjoin : Formula.parse (conjoin all) = .ok (Formula.conjoin formulas) :=
  Requirement.parse_conjoin h.parse_eq

/-- All requirements together add nothing to the universe. -/
theorem propositions_conjoin :
    c.propositions (Formula.conjoin formulas) = Sorted.distinctStrings c.declared := by
  refine Compiler.propositions_of_subset fun p hp => ?_
  obtain ⟨f, hf, hpf⟩ := Formula.mem_occurrences_conjoin.mp hp
  exact h.declared f hf p hpf

/-- What the automaton of all requirements accepts. -/
theorem recognizes {a : Automaton} (ha : c.oracle.automaton (conjoin all) = .ok a) :
    a.Recognizes c.semantics (Sorted.distinctStrings c.declared)
      fun trace => formulas.all fun f => f.nnf.holds trace := by
  have hrecognizes := Oracle.recognizes_of_automaton h.parse_conjoin ha
  simp only [Formula.holds_conjoin, h.propositions_conjoin] at hrecognizes
  exact hrecognizes

/-- The check finds a requirement implied exactly if its formula is. -/
theorem isImplied_iff_impliedAt {whole others : Automaton} {i : Nat} (hi : i < all.length)
    (hwhole : c.oracle.automaton (conjoin all) = .ok whole)
    (hothers : c.oracle.automaton (conjoin (all.eraseIdx i)) = .ok others) :
    isImplied c.oracle whole all i = true ↔
      Formula.ImpliedAt c.semantics c.declared formulas i := by
  have hall := h.recognizes hwhole
  have hrest := (h.eraseIdx i).recognizes hothers
  have hlt : i < formulas.length := h.length_eq ▸ hi
  rw [isImplied_iff hall.wellFormed hrest.wellFormed hothers, hall.accepts_eq_iff hrest,
    Formula.impliedAt_iff hlt]
  simp only [EventSemantics.admitsTrace_distinctStrings]

/-- An analysis finds out whether some trace satisfies all requirements. -/
theorem satisfiable_iff {analysis : Analysis}
    (hanalysis : (analyze c.oracle all).outcome = .ok analysis) :
    analysis.satisfiable = true ↔ ∃ trace, c.semantics.AdmitsTrace c.declared trace ∧
      ∀ f ∈ formulas, f.nnf.holds trace = true := by
  obtain ⟨whole, hwhole, hsatisfiable, -, -⟩ := analyze_cases hanalysis
  rw [hsatisfiable, Bool.not_eq_true', (h.recognizes hwhole).isEmpty_eq_false_iff]
  simp only [EventSemantics.admitsTrace_distinctStrings, List.all_eq_true]

/-- An analysis chooses the requirements that the others imply, and of those keeps the first of
each formula. -/
theorem exists_chosen {analysis : Analysis}
    (hanalysis : (analyze c.oracle all).outcome = .ok analysis) :
    ∃ chosen : Nat → Bool,
      (∀ i < all.length, chosen i = true ↔
        Formula.ImpliedAt c.semantics c.declared formulas i) ∧
      analysis.redundant = firstPerFormula (selectAt (fun _ i => chosen i) all) := by
  obtain ⟨whole, hwhole, -, hredundant, hasked⟩ := analyze_cases hanalysis
  refine ⟨isImplied c.oracle whole all, fun i hi => ?_, hredundant⟩
  obtain ⟨others, hothers⟩ := hasked i hi
  exact h.isImplied_iff_impliedAt hi hwhole hothers

/-- The formula of the requirement at a place. -/
theorem exists_getElem? {i : Nat} {r : Requirement} (hr : all[i]? = some r) :
    ∃ f, formulas[i]? = some f ∧ Formula.parse r.formula = .ok f := by
  have hf : (formulas.map Except.ok)[i]? = some (Formula.parse r.formula) := by
    rw [← h.parse_eq, List.getElem?_map, hr]
    rfl
  rw [List.getElem?_map, Option.map_eq_some_iff] at hf
  obtain ⟨f, hf, hok⟩ := hf
  exact ⟨f, hf, hok.symm⟩

/-- A formula that is written twice is implied. -/
theorem impliedAt_of_formula_eq {i j : Nat} {r s : Requirement} (hne : i ≠ j)
    (hr : all[i]? = some r) (hs : all[j]? = some s) (hformula : r.formula = s.formula) :
    Formula.ImpliedAt c.semantics c.declared formulas i := by
  obtain ⟨f, hf, hrf⟩ := h.exists_getElem? hr
  obtain ⟨g, hg, hsg⟩ := h.exists_getElem? hs
  rw [hformula, hsg] at hrf
  obtain rfl := Except.ok.inj hrf
  exact Formula.impliedAt_of_repeated (Ne.symm hne) (hg.trans hf.symm)

section Chosen

variable {chosen : Nat → Bool} (hchosen : ∀ i < all.length, chosen i = true ↔
  Formula.ImpliedAt c.semantics c.declared formulas i)
include hchosen

/-- Of the requirements with one formula all are implied, if there are two. -/
theorem chosen_of_formula_eq {i j : Nat} {r s : Requirement} (hne : i ≠ j)
    (hr : all[i]? = some r) (hs : all[j]? = some s) (hformula : r.formula = s.formula) :
    chosen i = true := by
  rw [hchosen i (List.getElem?_eq_some_iff.mp hr).1]
  exact h.impliedAt_of_formula_eq hne hr hs hformula

/-- Requirements with one formula are found redundant together. -/
theorem perFormula : PerFormula all chosen := by
  intro i j r s hr hs hformula
  by_cases hne : i = j
  · rw [hne]
  · have hi := h.chosen_of_formula_eq hchosen hne hr hs hformula
    have hj := h.chosen_of_formula_eq hchosen (Ne.symm hne) hs hr hformula.symm
    rw [hi, hj]

/-- The requirements kept are given by their places. -/
theorem exists_places_chosen :
    ∃ places : List Nat, places.Pairwise (· < ·) ∧
      (firstPerFormula (selectAt (fun _ i => chosen i) all)).map some = places.map (all[·]?) ∧
      ∀ i : Nat, i ∈ places ↔ ∃ r, all[i]? = some r ∧
        Formula.ImpliedAt c.semantics c.declared formulas i ∧
        ∀ j < i, ∀ earlier, all[j]? = some earlier → earlier.formula ≠ r.formula := by
  rw [(h.perFormula hchosen).firstPerFormula_selectAt]
  obtain ⟨places, hincreasing, hitems, hplaces⟩ :=
    exists_places (fun r i => chosen i && firstAt all r i) all
  refine ⟨places, hincreasing, hitems, fun i => (hplaces i).trans (exists_congr fun r => ?_)⟩
  refine and_congr_right fun hr => ?_
  rw [Bool.and_eq_true, hchosen i (List.getElem?_eq_some_iff.mp hr).1, firstAt_eq_true_iff]

/-- Of a formula that is written twice exactly one requirement is kept. -/
theorem count_chosen {i j : Nat} {r s : Requirement} (hne : i ≠ j) (hr : all[i]? = some r)
    (hs : all[j]? = some s) (hformula : r.formula = s.formula) :
    ((firstPerFormula (selectAt (fun _ i => chosen i) all)).map (·.formula)).count r.formula =
      1 := by
  have hi := h.chosen_of_formula_eq hchosen hne hr hs hformula
  exact count_firstPerFormula (mem_selectAt.mpr ⟨i, hr, hi⟩)

end Chosen

/-- Formulas about the first event only have automata of two states. -/
theorem answers (himmediate : ∀ f ∈ formulas, f.nnf.isImmediate = true)
    (hdeclared : c.declared.length ≤ EventSemantics.maxUnrestricted) (hlimit : 2 ≤ c.maxStates) :
    c.oracle.Answers (conjoin all) := by
  apply answers_of_isImmediate h.parse_eq himmediate _ hlimit
  rw [h.propositions_conjoin]
  have hlength := Sorted.length_distinct_le Sorted.linear_string c.declared
  cases c.semantics with
  | single => rfl
  | unrestricted => exact decide_eq_true (Nat.le_trans hlength hdeclared)

/-- Formulas about the first event only can be analysed. -/
theorem exists_analyze (himmediate : ∀ f ∈ formulas, f.nnf.isImmediate = true)
    (hdeclared : c.declared.length ≤ EventSemantics.maxUnrestricted) (hlimit : 2 ≤ c.maxStates) :
    ∃ analysis, (analyze c.oracle all).outcome = .ok analysis := by
  obtain ⟨whole, hwhole⟩ := h.answers himmediate hdeclared hlimit
  refine ⟨_, congrArg Consultation.outcome (analyze_of_answers hwhole fun i _ => ?_)⟩
  have hothers : ∀ f ∈ formulas.eraseIdx i, f.nnf.isImmediate = true :=
    fun f hf => himmediate f (List.mem_of_mem_eraseIdx hf)
  exact (h.eraseIdx i).answers hothers hdeclared hlimit

end ReadAs

end Requirement

end ProcessLogic
