import ProcessLogic.Proofs.Analysis.Verdict
import ProcessLogic.Proofs.Compiler.Limits

/-!
# How an analysis fails

A constraint may not fit its template, and the compiler may meet one of its limits. Nothing else
fails: the texts of templates and of their conjunctions can be read, and so can the descriptions
of automata, and automata can always be compared. All automata of an analysis have one universe,
so too many propositions are noticed when the first of them is asked for.
-/

namespace ProcessLogic

namespace Oracle

variable {c : Compiler} {text : String} {f : Formula}

/-- The compiler as an oracle answers for the formulas that it compiles. -/
theorem answers_iff (hparse : Formula.parse text = .ok f) :
    c.oracle.Answers text ↔ ∃ a, c.automaton f = .ok a := by
  rw [← not_iff_not, not_answers_iff]
  cases hcompile : c.automaton f with
  | ok a => simp [automaton_eq_error_iff hparse, hcompile]
  | error cause => simp [automaton_eq_error_iff hparse, hcompile]

end Oracle

namespace Requirement

variable {c : Compiler} {all : List Requirement} {formulas : List Formula} {cause : CompileError}
  {error : AnalysisError}

/-- The first query that the compiler refuses, for a cause, and the error that tells of it: the
query is about all requirements, or about all but one. -/
inductive Refused (c : Compiler) (all : List Requirement) (cause : CompileError) :
    AnalysisError → Prop
  | whole : c.compile (conjoin all) = .error cause →
      Refused c all cause (.satisfiability (.compiler ⟨conjoin all, cause.message⟩))
  | without (i : Nat) (r : Requirement) : all[i]? = some r →
      (∀ q ∈ (queries all).take (i + 1), c.oracle.Answers q) →
      c.compile (without all i) = .error cause →
      Refused c all cause (.redundancy (.withoutConstraint i r.template
        (.compiler ⟨without all i, cause.message⟩)))

/-- A query that is read as a formula over the universe of a compiler. -/
structure Query (c : Compiler) (text : String) (f : Formula) : Prop where
  parse_eq : Formula.parse text = .ok f
  propositions_eq : c.propositions f = Sorted.distinctStrings c.declared

namespace Query

variable {text : String} {f : Formula} (h : Query c text f)
include h

/-- A text that is read fails to compile exactly if its formula does, for the same cause. -/
theorem compile_eq_error_iff : c.compile text = .error cause ↔ c.automaton f = .error cause := by
  rw [Compiler.compile_of_parse h.parse_eq]
  cases c.automaton f <;> simp [Except.map]

/-- The compiler as an oracle has no automaton for a query exactly if it refuses it. -/
theorem oracle_eq_error_iff {source : OracleError} : c.oracle.automaton text = .error source ↔
    ∃ cause, c.compile text = .error cause ∧ source = .compiler ⟨text, cause.message⟩ := by
  simp only [Oracle.automaton_eq_error_iff h.parse_eq, h.compile_eq_error_iff]

/-- The compiler refuses a query by one of its limits; that for propositions does not depend on the
query. -/
theorem cause_of_compile (hcompile : c.compile text = .error cause) :
    (c.semantics.allows (Sorted.distinctStrings c.declared).length = false ∧
      cause = .tooManyPropositions (Sorted.distinctStrings c.declared).length
        EventSemantics.maxUnrestricted) ∨
    (c.semantics.allows (Sorted.distinctStrings c.declared).length = true ∧
      cause = .tooManyStates f c.maxStates) := by
  rw [h.compile_eq_error_iff, Compiler.automaton_eq_error_iff, h.propositions_eq] at hcompile
  exact hcompile.imp_right fun ⟨hallows, _, hcause⟩ => ⟨hallows, hcause⟩

end Query

namespace ReadAs

variable (h : ReadAs c all formulas)
include h

/-- The formula of all requirements is a query over the whole universe. -/
theorem query_conjoin : Query c (conjoin all) (Formula.conjoin formulas) :=
  ⟨h.parse_conjoin, h.propositions_conjoin⟩

/-- So is the formula of all requirements but one. -/
theorem query_without (i : Nat) :
    Query c (without all i) (Formula.conjoin (formulas.eraseIdx i)) :=
  (h.eraseIdx i).query_conjoin

/-- An analysis fails exactly if the compiler refuses a query, as it tells at the first such. -/
theorem analyze_eq_error_iff : (analyze c.oracle all).outcome = .error error ↔
    ∃ cause, Refused c all cause error := by
  constructor
  · intro herror
    rcases ok_or_failsAt c.oracle all with ⟨_, hok⟩ | ⟨source, hfails⟩ | ⟨i, r, source, hr, hfails⟩
    · rw [hok] at herror
      exact nomatch herror
    · rw [analyze_of_failsAt_zero hfails] at herror
      obtain ⟨q, hq, hsource⟩ := hfails.error_eq
      obtain rfl := Option.some.inj hq
      obtain ⟨cause, hcompile, rfl⟩ := h.query_conjoin.oracle_eq_error_iff.mp hsource
      obtain rfl := Except.error.inj herror
      exact ⟨cause, .whole hcompile⟩
    · rw [analyze_of_failsAt_succ hr hfails] at herror
      obtain ⟨q, hq, hsource⟩ := hfails.error_eq
      have hlt := (List.getElem?_eq_some_iff.mp hr).1
      obtain rfl := Option.some.inj ((getElem?_queries_succ hlt).symm.trans hq)
      obtain ⟨cause, hcompile, rfl⟩ := (h.query_without i).oracle_eq_error_iff.mp hsource
      obtain rfl := Except.error.inj herror
      exact ⟨cause, .without i r hr hfails.before hcompile⟩
  · rintro ⟨cause, hcompile | ⟨i, r, hr, hbefore, hcompile⟩⟩
    · have hsource := h.query_conjoin.oracle_eq_error_iff.mpr ⟨cause, hcompile, rfl⟩
      rw [analyze_of_failsAt_zero ⟨by simp, _, rfl, hsource⟩]
    · have hlt := (List.getElem?_eq_some_iff.mp hr).1
      have hsource := (h.query_without i).oracle_eq_error_iff.mpr ⟨cause, hcompile, rfl⟩
      rw [analyze_of_failsAt_succ hr ⟨hbefore, _, getElem?_queries_succ hlt, hsource⟩]

/-- A query is refused by a limit. -/
theorem cause_of_refused (hrefused : Refused c all cause error) :
    (∃ f, cause = .tooManyStates f c.maxStates) ∨
      (c.semantics.allows (Sorted.distinctStrings c.declared).length = false ∧
        cause = .tooManyPropositions (Sorted.distinctStrings c.declared).length
          EventSemantics.maxUnrestricted) := by
  obtain ⟨text, f, hquery, hcompile⟩ :
      ∃ text f, Query c text f ∧ c.compile text = .error cause := by
    rcases hrefused with hcompile | ⟨i, r, -, -, hcompile⟩
    · exact ⟨_, _, h.query_conjoin, hcompile⟩
    · exact ⟨_, _, h.query_without i, hcompile⟩
  rcases hquery.cause_of_compile hcompile with hprops | ⟨-, hstates⟩
  · exact Or.inr hprops
  · exact Or.inl ⟨f, hstates⟩

/-- Too many propositions are noticed at the first query. -/
theorem refused_tooManyPropositions_iff {count limit : Nat} :
    Refused c all (.tooManyPropositions count limit) error ↔
      c.semantics.allows (Sorted.distinctStrings c.declared).length = false ∧
      count = (Sorted.distinctStrings c.declared).length ∧
      limit = EventSemantics.maxUnrestricted ∧
      error = .satisfiability (.compiler ⟨conjoin all,
        (CompileError.tooManyPropositions count limit).message⟩) := by
  constructor
  · intro hrefused
    rcases h.cause_of_refused hrefused with ⟨f, hstates⟩ | ⟨hallows, hprops⟩
    · cases hstates
    · obtain ⟨rfl, rfl⟩ := CompileError.tooManyPropositions.inj hprops
      refine ⟨hallows, rfl, rfl, ?_⟩
      rcases hrefused with hcompile | ⟨i, r, -, hbefore, hcompile⟩
      · rfl
      · obtain ⟨a, ha⟩ := (Oracle.answers_iff h.parse_conjoin).mp
          (hbefore _ (by simp [queries]))
        have herror := Compiler.automaton_eq_error_iff (f := Formula.conjoin formulas).mpr
          (Or.inl ⟨h.propositions_conjoin ▸ hallows, rfl⟩)
        rw [ha] at herror
        cases herror
  · rintro ⟨hallows, rfl, rfl, rfl⟩
    refine .whole (h.query_conjoin.compile_eq_error_iff.mpr ?_)
    rw [Compiler.automaton_eq_error_iff, h.propositions_conjoin]
    exact Or.inl ⟨hallows, rfl⟩

end ReadAs

end Requirement

namespace ProcessModel

variable {model : ProcessModel} {options : AnalysisOptions} {error : AnalysisError}

/-- The first constraint that does not fit its template, and the error that tells of it. -/
structure Misfit (model : ProcessModel) (place : Nat) (constraint : Constraint)
    (source : TemplateError) : Prop where
  getElem?_eq : model.constraints[place]? = some constraint
  unfit : Requirement.Unfit constraint.template constraint.activities source
  before : ∀ earlier ∈ model.constraints.take place,
    Requirement.Fits earlier.template earlier.activities

/-- The constraints of a model are expanded exactly if all of them fit. -/
theorem exists_requirements_iff : (∃ requirements, model.requirements = .ok requirements) ↔
    ∀ c ∈ model.constraints, Requirement.Fits c.template c.activities := by
  simp only [requirements_eq, Fold.exists_mapM_iff, Fold.mapError_eq_ok_iff,
    Requirement.exists_expand_iff]

/-- Otherwise the first that does not fit is reported. -/
theorem requirements_eq_error_iff : model.requirements = .error error ↔
    ∃ place constraint source, model.Misfit place constraint source ∧
      error = .template constraint.line source := by
  simp only [requirements_eq, Fold.mapM_eq_error_iff, Fold.mapError_eq_ok_iff,
    Fold.mapError_eq_error_iff, Requirement.exists_expand_iff, Requirement.expand_eq_error_iff]
  constructor
  · rintro ⟨place, constraint, hplace, ⟨source, hunfit, rfl⟩, hbefore⟩
    exact ⟨place, constraint, source, ⟨hplace, hunfit, hbefore⟩, rfl⟩
  · rintro ⟨place, constraint, source, hmisfit, rfl⟩
    exact ⟨place, constraint, hmisfit.getElem?_eq, ⟨source, hmisfit.unfit, rfl⟩, hmisfit.before⟩

/-- The compiler refuses a formula, for a cause, after all constraints have been expanded. -/
def FailsBy (model : ProcessModel) (options : AnalysisOptions) (cause : CompileError)
    (error : AnalysisError) : Prop :=
  ∃ requirements, model.requirements = .ok requirements ∧
    Requirement.Refused (model.compiler options requirements) requirements cause error

/-- An analysis fails exactly if a constraint does not fit or a formula is not compiled. -/
theorem analyze_eq_error_iff : model.analyze options = .error error ↔
    (∃ place constraint source, model.Misfit place constraint source ∧
      error = .template constraint.line source) ∨
    ∃ cause, model.FailsBy options cause error := by
  rw [← requirements_eq_error_iff]
  cases hrequirements : model.requirements with
  | error e => simp [analyze, FailsBy, hrequirements, bind, Except.bind]
  | ok requirements =>
      obtain ⟨formulas, hread⟩ := exists_readAs_of_requirements hrequirements options
      simp [analyze_of_requirements hrequirements, hread.analyze_eq_error_iff, FailsBy,
        hrequirements]

/-- How many propositions the activities of a model have. -/
def propositionCount (model : ProcessModel) : Nat :=
  (Sorted.distinctStrings model.vocabulary).length

/-- A cause is one of the two limits, and that for propositions prevents the first automaton. -/
theorem cause_of_failsBy {cause : CompileError} (h : model.FailsBy options cause error) :
    (∃ f, cause = .tooManyStates f options.maxStates) ∨
      (cause = .tooManyPropositions model.propositionCount EventSemantics.maxUnrestricted ∧
        ∃ failure, error = .satisfiability (.compiler failure)) := by
  obtain ⟨requirements, hrequirements, hrefused⟩ := h
  obtain ⟨formulas, hread⟩ := exists_readAs_of_requirements hrequirements options
  refine (hread.cause_of_refused hrefused).imp_right fun ⟨_, hcause⟩ => ?_
  subst hcause
  obtain ⟨-, -, -, herror⟩ := hread.refused_tooManyPropositions_iff.mp hrefused
  have hcount : model.propositions requirements = model.vocabulary :=
    propositions_eq_vocabulary hrequirements
  exact ⟨by rw [compiler, hcount, propositionCount], _, herror⟩

/-- Too many propositions are the cause exactly if all constraints fit and the events cannot be
listed. -/
theorem exists_failsBy_tooManyPropositions_iff :
    (∃ count limit error, model.FailsBy options (.tooManyPropositions count limit) error) ↔
      (∀ c ∈ model.constraints, Requirement.Fits c.template c.activities) ∧
      options.semantics = .unrestricted ∧
      EventSemantics.maxUnrestricted < model.propositionCount := by
  rw [← exists_requirements_iff, ← EventSemantics.allows_eq_false_iff, propositionCount]
  constructor
  · rintro ⟨count, limit, error, requirements, hrequirements, hrefused⟩
    obtain ⟨formulas, hread⟩ := exists_readAs_of_requirements hrequirements options
    obtain ⟨hallows, -⟩ := hread.refused_tooManyPropositions_iff.mp hrefused
    rw [compiler, propositions_eq_vocabulary hrequirements] at hallows
    exact ⟨⟨requirements, hrequirements⟩, hallows⟩
  · rintro ⟨⟨requirements, hrequirements⟩, hallows⟩
    obtain ⟨formulas, hread⟩ := exists_readAs_of_requirements hrequirements options
    rw [← propositions_eq_vocabulary hrequirements] at hallows
    exact ⟨_, _, _, requirements, hrequirements,
      hread.refused_tooManyPropositions_iff.mpr ⟨hallows, rfl, rfl, rfl⟩⟩

/-- Only limits fail the analysis of a model whose constraints fit. An analysis fails exactly if
some constraint does not fit, of which the first is reported, or if the compiler refuses the
formula of all constraints or of all but one. It refuses them for too many states or too many
propositions and for nothing else. The latter happens exactly if all constraints fit, events are
unrestricted and there are more propositions than can be listed; then it is satisfiability that
could not be decided. -/
theorem analyze_fails_by_limits (model : ProcessModel) (options : AnalysisOptions) :
    (∀ error, model.analyze options = .error error ↔
      (∃ place constraint source, model.Misfit place constraint source ∧
        error = .template constraint.line source) ∨
      ∃ cause, model.FailsBy options cause error) ∧
    (∀ cause error, model.FailsBy options cause error →
      (∃ f, cause = .tooManyStates f options.maxStates) ∨
      (cause = .tooManyPropositions model.propositionCount EventSemantics.maxUnrestricted ∧
        ∃ failure, error = .satisfiability (.compiler failure))) ∧
    ((∃ count limit error, model.FailsBy options (.tooManyPropositions count limit) error) ↔
      (∀ c ∈ model.constraints, Requirement.Fits c.template c.activities) ∧
      options.semantics = .unrestricted ∧
      EventSemantics.maxUnrestricted < model.propositionCount) := by
  refine ⟨fun error => analyze_eq_error_iff, ?_, exists_failsBy_tooManyPropositions_iff⟩
  intro cause error h
  exact cause_of_failsBy h

/-- An unknown template is reported with its line. Seventeen activities are too many for
unrestricted events, though no constraint mentions them. -/
theorem analyze_fails_by_limits_cases :
    ProcessModel.analyze
        ⟨[], [⟨"Init", ["a"], [], 1⟩, ⟨" Last ", ["a"], [], 2⟩, ⟨"Init", [], [], 3⟩]⟩ {} =
      .error (.template 2 (.unknownTemplate "Last")) ∧
    let model : ProcessModel := ⟨["a", "b", "c", "d", "e", "f", "g", "h", "i", "j", "k", "l", "m",
      "n", "o", "p", "q"], []⟩
    ∃ failure, model.analyze {} = .error (.satisfiability (.compiler failure)) := by
  constructor
  · refine ((analyze_fails_by_limits _ _).1 _).mpr (Or.inl ⟨1, _, _, ⟨rfl, .unknown ?_, ?_⟩, rfl⟩)
    · decide
    · simp only [List.take_succ_cons, List.take_zero, List.forall_mem_singleton]
      exact ⟨.init, by decide, rfl⟩
  · intro model
    obtain ⟨hfails, hcauses, htoo⟩ := analyze_fails_by_limits model {}
    have hcount : model.propositionCount = 17 :=
      Sorted.length_distinct_of_nodup Sorted.linear_string (by decide)
    have hmany : EventSemantics.maxUnrestricted < model.propositionCount := by
      rw [hcount]
      decide
    obtain ⟨count, limit, error, h⟩ := htoo.mpr ⟨List.forall_mem_nil _, rfl, hmany⟩
    rcases hcauses _ _ h with ⟨f, hstates⟩ | ⟨-, failure, rfl⟩
    · exact nomatch hstates
    · exact ⟨failure, (hfails _).mpr (Or.inr ⟨_, h⟩)⟩

end ProcessModel

end ProcessLogic
