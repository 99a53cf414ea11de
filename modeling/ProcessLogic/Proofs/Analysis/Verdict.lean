import ProcessLogic.Proofs.Analysis.Implication
import ProcessLogic.Proofs.Collection.Fold
import ProcessLogic.Proofs.Constraint.Expansion

/-!
# The verdict on a model

The constraints of a model expand to formulas over its vocabulary, which its compiler knows from
the start. So the verdict of an analysis is about all traces over the vocabulary.
-/

namespace ProcessLogic

namespace ProcessModel

variable {model : ProcessModel} {options : AnalysisOptions} {requirements : List Requirement}

/-- The propositions of all declared and all constrained activities. -/
def vocabulary (model : ProcessModel) : List String :=
  (model.activities ++ model.constraints.flatMap (·.activities)).map proposition

/-- A model's requirements are its expanded constraints, and an error names the line. -/
theorem requirements_eq (model : ProcessModel) :
    model.requirements = model.constraints.mapM fun c =>
      (Requirement.expand c.template c.activities).mapError (.template c.line) := by
  refine congrArg (List.mapM · model.constraints) (funext fun c => ?_)
  cases Requirement.expand c.template c.activities <;> rfl

/-- Constraints expand to texts that are read as formulas over their own propositions. -/
theorem exists_formulas_of_requirements (h : model.requirements = .ok requirements) :
    (requirements.flatMap (·.activities)).map proposition =
        (model.constraints.flatMap (·.activities)).map proposition ∧
      ∃ formulas : List Formula,
        requirements.map (Formula.parse ·.formula) = formulas.map .ok ∧
        ∀ f ∈ formulas, ∀ p ∈ f.occurrences,
          p ∈ (model.constraints.flatMap (·.activities)).map proposition := by
  rw [requirements_eq, Fold.mapM_eq_ok_iff] at h
  generalize model.constraints = cs at h ⊢
  induction cs generalizing requirements with
  | nil =>
      obtain rfl := List.map_eq_nil_iff.mp h.symm
      exact ⟨rfl, [], rfl, by simp⟩
  | cons c cs ih =>
      obtain ⟨r, rs, rfl, hr, hrs⟩ := List.map_eq_cons_iff.mp h.symm
      obtain ⟨hnames, fs, hfs, hown⟩ := ih hrs.symm
      have hexpand := Fold.mapError_eq_ok_iff.mp hr.symm
      obtain ⟨hactivities, f, hf, hfown⟩ := Requirement.exists_formula_of_expand hexpand
      refine ⟨?_, f :: fs, ?_, ?_⟩
      · simp only [List.flatMap_cons, List.map_append, hnames, hactivities,
          map_proposition_trimmed]
      · rw [List.map_cons, List.map_cons, hf, hfs]
      · simp only [List.flatMap_cons, List.map_append, List.mem_append]
        refine List.forall_mem_cons.mpr ⟨fun p hp => Or.inl ((hfown p).mp hp), ?_⟩
        exact fun g hg p hp => Or.inr (hown g hg p hp)

/-- The compiler for a model knows its vocabulary. -/
theorem propositions_eq_vocabulary (h : model.requirements = .ok requirements) :
    model.propositions requirements = model.vocabulary := by
  rw [propositions, vocabulary, List.map_append, List.map_append,
    (exists_formulas_of_requirements h).1]

/-- The constraints of a model expand to texts of formulas over its vocabulary. -/
theorem exists_readAs_of_requirements (h : model.requirements = .ok requirements)
    (options : AnalysisOptions) :
    ∃ formulas, Requirement.ReadAs (model.compiler options requirements) requirements
      formulas := by
  obtain ⟨-, formulas, hparse, hown⟩ := exists_formulas_of_requirements h
  refine ⟨formulas, hparse, fun f hf p hp => ?_⟩
  rw [compiler, propositions_eq_vocabulary h, vocabulary, List.map_append]
  exact List.mem_append_right _ (hown f hf p hp)

/-- An analysis that succeeds has expanded all constraints. -/
theorem exists_requirements_of_analyze {analysis : Analysis}
    (h : model.analyze options = .ok analysis) :
    ∃ requirements, model.requirements = .ok requirements ∧
      (Requirement.analyze (model.compiler options requirements).oracle requirements).outcome =
        .ok analysis := by
  unfold analyze at h
  exact Fold.bind_eq_ok_iff.mp h

/-- After its constraints have been expanded, the analysis of a model is that of requirements. -/
theorem analyze_of_requirements (h : model.requirements = .ok requirements) :
    model.analyze options =
      (Requirement.analyze (model.compiler options requirements).oracle requirements).outcome := by
  rw [analyze, h]
  rfl

/-- A model whose formulas speak of the first event only has an analysis. -/
theorem exists_analyze_of_isImmediate (options : AnalysisOptions) (formulas : List Formula)
    (h : model.requirements = .ok requirements)
    (hparse : requirements.map (Formula.parse ·.formula) = formulas.map .ok)
    (himmediate : ∀ f ∈ formulas, f.nnf.isImmediate = true)
    (hvocabulary : model.vocabulary.length ≤ EventSemantics.maxUnrestricted)
    (hlimit : 2 ≤ options.maxStates) : ∃ analysis, model.analyze options = .ok analysis := by
  obtain ⟨formulas', hread⟩ := exists_readAs_of_requirements h options
  obtain rfl : formulas = formulas' :=
    (List.map_inj_right fun _ _ he => Except.ok.inj he).mp (hparse.symm.trans hread.parse_eq)
  have hdeclared : (model.compiler options requirements).declared.length ≤
      EventSemantics.maxUnrestricted := by
    rw [compiler, propositions_eq_vocabulary h]
    exact hvocabulary
  obtain ⟨analysis, hanalysis⟩ := hread.exists_analyze himmediate hdeclared hlimit
  exact ⟨analysis, (analyze_of_requirements h).trans hanalysis⟩

/-- The verdict of an analysis that succeeds is about all traces over the vocabulary of the
model. It is satisfiable if some trace satisfies every constraint. Its redundant constraints are,
in the order of the model, those whose formula is implied by all others and stands at no earlier
place; so of a formula that occurs twice exactly one is reported. -/
theorem analyze_correct {analysis : Analysis} (h : model.analyze options = .ok analysis) :
    ∃ (requirements : List Requirement) (formulas : List Formula),
      model.requirements = .ok requirements ∧
      requirements.map (Formula.parse ·.formula) = formulas.map .ok ∧
      (analysis.satisfiable = true ↔
        ∃ trace, options.semantics.AdmitsTrace model.vocabulary trace ∧
          ∀ f ∈ formulas, f.nnf.holds trace = true) ∧
      (∃ places : List Nat, places.Pairwise (· < ·) ∧
        analysis.redundant.map some = places.map (requirements[·]?) ∧
        ∀ i : Nat, i ∈ places ↔ ∃ r, requirements[i]? = some r ∧
          Formula.ImpliedAt options.semantics model.vocabulary formulas i ∧
          ∀ j < i, ∀ earlier, requirements[j]? = some earlier → earlier.formula ≠ r.formula) ∧
      ∀ (i j : Nat) (r s : Requirement), i ≠ j → requirements[i]? = some r →
        requirements[j]? = some s → r.formula = s.formula →
          (analysis.redundant.map (·.formula)).count r.formula = 1 := by
  obtain ⟨requirements, hrequirements, houtcome⟩ := exists_requirements_of_analyze h
  obtain ⟨formulas, hread⟩ := exists_readAs_of_requirements hrequirements options
  have hsatisfiable := hread.satisfiable_iff houtcome
  obtain ⟨chosen, hchosen, hredundant⟩ := hread.exists_chosen houtcome
  have hplaces := hread.exists_places_chosen hchosen
  rw [compiler, propositions_eq_vocabulary hrequirements] at hsatisfiable hplaces
  refine ⟨requirements, formulas, hrequirements, hread.parse_eq, hsatisfiable, ?_, ?_⟩
  · rw [hredundant]
    exact hplaces
  · intro i j r s hne hr hs hformula
    rw [hredundant]
    exact hread.count_chosen hchosen hne hr hs hformula

/-- Of three constraints on the first event the repeated one is redundant, and reported once. -/
theorem analyze_correct_repeated :
    ∃ analysis, ProcessModel.analyze
        ⟨["a"], [⟨"Init", ["a"], [], 1⟩, ⟨"Init", ["b"], [], 2⟩, ⟨"Init", [" a"], [], 3⟩]⟩ {} =
          .ok analysis ∧
      analysis.satisfiable = true ∧ analysis.redundant = [⟨"Init", ["a"], "a"⟩] := by
  have hexpanded : ProcessModel.requirements
      ⟨["a"], [⟨"Init", ["a"], [], 1⟩, ⟨"Init", ["b"], [], 2⟩, ⟨"Init", [" a"], [], 3⟩]⟩ =
        .ok [⟨"Init", ["a"], "a"⟩, ⟨"Init", ["b"], "b"⟩, ⟨"Init", ["a"], "a"⟩] := rfl
  obtain ⟨analysis, h⟩ := exists_analyze_of_isImmediate {} [.prop "a", .prop "b", .prop "a"]
    hexpanded rfl (by decide) (by decide) (by decide)
  obtain ⟨requirements, formulas, hrequirements, hparse, hsatisfiable,
    ⟨places, hincreasing, hitems, hplaces⟩, -⟩ := analyze_correct h
  obtain rfl := Except.ok.inj (hexpanded.symm.trans hrequirements)
  obtain rfl : [.prop "a", .prop "b", .prop "a"] = formulas :=
    (List.map_inj_right fun _ _ he => Except.ok.inj he).mp hparse
  have honly : ∀ i : Nat, i ∈ places ↔ i = 0 := by
    intro i
    rw [hplaces]
    constructor
    · rintro ⟨r, hr, himplied, hfirst⟩
      match i with
      | 0 => rfl
      | 1 =>
          have hsame := (Formula.impliedAt_iff (by decide)).mp himplied [["a"]] (by decide)
          exact absurd hsame (by decide)
      | 2 =>
          obtain rfl := Option.some.inj hr
          exact absurd rfl (hfirst 0 (by decide) _ rfl)
      | i + 3 => exact nomatch hr
    · rintro rfl
      exact ⟨_, rfl, Formula.impliedAt_of_repeated (j := 2) (by decide) rfl,
        fun j hj => absurd hj (Nat.not_lt_zero j)⟩
  refine ⟨analysis, h, hsatisfiable.mpr ⟨[["a", "b"]], by decide, by decide⟩, ?_⟩
  obtain rfl := eq_singleton_of_mem_iff hincreasing honly
  exact (List.map_inj_right fun _ _ he => Option.some.inj he).mp hitems

end ProcessModel

end ProcessLogic
