import ProcessLogic.Proofs.Analysis.Failure
import ProcessLogic.Proofs.Formula.NormalForm

/-!
# Comparing two analyses

Two analyses of the same constraints may differ in the events that traces hold and in the limit
for states. If every trace of the one has a trace of the other that satisfies the same of the
formulas, satisfiability carries over from the one to the other, and redundancy back.
-/

namespace ProcessLogic

namespace EventSemantics

/-- Every trace over a universe has one over another that satisfies the same of some formulas. -/
def Mirrored (semantics : EventSemantics) (props : List String) (semantics' : EventSemantics)
    (props' : List String) (formulas : List Formula) : Prop :=
  ∀ trace, semantics.AdmitsTrace props trace → ∃ trace', semantics'.AdmitsTrace props' trace' ∧
    ∀ f ∈ formulas, f.nnf.holds trace' = f.nnf.holds trace

variable {semantics semantics' : EventSemantics} {props props' : List String}
  {formulas : List Formula}

/-- Traces over a universe are traces over a larger one. -/
theorem mirrored_of_subset (h : ∀ p ∈ props, p ∈ props') :
    Mirrored semantics props semantics props' formulas := by
  intro trace htrace
  refine ⟨trace, fun event hevent => ?_, fun _ _ => rfl⟩
  obtain ⟨hprops, hsingle⟩ := htrace event hevent
  exact ⟨fun p hp => h p (hprops p hp), hsingle⟩

/-- Events of one proposition or none are among all events. -/
theorem mirrored_single : Mirrored .single props .unrestricted props formulas := by
  intro trace htrace
  refine ⟨trace, fun event hevent => ?_, fun _ _ => rfl⟩
  exact ⟨(htrace event hevent).1, fun h => nomatch h⟩

/-- Without the propositions that no formula mentions, a trace satisfies the same formulas. -/
theorem mirrored_of_occurrences (h : ∀ f ∈ formulas, ∀ p ∈ f.occurrences, p ∈ props) :
    Mirrored semantics props' semantics props formulas := by
  intro trace htrace
  refine ⟨trace.map (List.filter (· ∈ props)), htrace.map_filter props, fun f hf => ?_⟩
  exact Formula.holds_map_filter (fun p hp => decide_eq_true (h f hf p hp)) trace

/-- What is implied on all traces is implied on those that they mirror. -/
theorem Mirrored.impliedAt (h : Mirrored semantics props semantics' props' formulas) {i : Nat}
    (himplied : Formula.ImpliedAt semantics' props' formulas i) :
    Formula.ImpliedAt semantics props formulas i := by
  intro trace htrace hothers f hf
  obtain ⟨trace', htrace', hsame⟩ := h trace htrace
  rw [← hsame f (List.mem_of_getElem? hf)]
  refine himplied trace' htrace' (fun j g hne hg => ?_) f hf
  rw [hsame g (List.mem_of_getElem? hg)]
  exact hothers j g hne hg

end EventSemantics

namespace Requirement.ReadAs

variable {c c' : Compiler} {all : List Requirement} {formulas : List Formula}
  {analysis analysis' : Analysis}

/-- An analysis that sees all traces of another finds satisfiable what the other does, and redundant
no more than the other does. -/
theorem analysis_mono (h : ReadAs c all formulas) (h' : ReadAs c' all formulas)
    (hmirrored : EventSemantics.Mirrored c.semantics c.declared c'.semantics c'.declared formulas)
    (hanalysis : (analyze c.oracle all).outcome = .ok analysis)
    (hanalysis' : (analyze c'.oracle all).outcome = .ok analysis') :
    (analysis.satisfiable = true → analysis'.satisfiable = true) ∧
      analysis'.redundant.Sublist analysis.redundant := by
  constructor
  · rw [h.satisfiable_iff hanalysis, h'.satisfiable_iff hanalysis']
    rintro ⟨trace, htrace, hholds⟩
    obtain ⟨trace', htrace', hsame⟩ := hmirrored trace htrace
    exact ⟨trace', htrace', fun f hf => (hsame f hf).trans (hholds f hf)⟩
  · obtain ⟨chosen, hchosen, hredundant⟩ := h.exists_chosen hanalysis
    obtain ⟨chosen', hchosen', hredundant'⟩ := h'.exists_chosen hanalysis'
    rw [hredundant, hredundant', (h.perFormula hchosen).firstPerFormula_selectAt,
      (h'.perFormula hchosen').firstPerFormula_selectAt]
    refine selectAt_sublist fun i r hr => ?_
    have hi := (List.getElem?_eq_some_iff.mp hr).1
    rw [Bool.and_eq_true, Bool.and_eq_true, hchosen i hi, hchosen' i hi]
    exact And.imp_left hmirrored.impliedAt

/-- An analysis over fewer propositions succeeds if one over more does. -/
theorem exists_analyze_of_narrows (h : ReadAs c all formulas) (hnarrows : c.Narrows c')
    (h' : ∃ analysis, (analyze c'.oracle all).outcome = .ok analysis) :
    ∃ analysis, (analyze c.oracle all).outcome = .ok analysis := by
  have hanswers : ∀ {text : String} {f : Formula}, Formula.parse text = .ok f →
      c'.oracle.Answers text → c.oracle.Answers text := by
    intro text f hparse htext
    rw [Oracle.answers_iff hparse] at htext ⊢
    exact hnarrows.exists_automaton htext
  rw [exists_ok_iff, forall_mem_queries] at h' ⊢
  obtain ⟨hwhole, hothers⟩ := h'
  exact ⟨hanswers h.parse_conjoin hwhole,
    fun i hi => hanswers (h.eraseIdx i).parse_conjoin (hothers i hi)⟩

end Requirement.ReadAs

namespace ProcessModel

variable {options : AnalysisOptions} {analysis analysis' : Analysis}

/-- Declaring fewer activities does not change the outcome of an analysis that succeeds: neither
the verdict nor that it succeeds. -/
theorem analyze_of_fewer_activities {activities activities' : List String}
    {constraints : List Constraint} (hsubset : ∀ a ∈ activities, a ∈ activities')
    (h : ProcessModel.analyze ⟨activities', constraints⟩ options = .ok analysis) :
    ProcessModel.analyze ⟨activities, constraints⟩ options = .ok analysis := by
  obtain ⟨requirements, hrequirements, hanalysis⟩ := exists_requirements_of_analyze h
  have hfewer : ProcessModel.requirements ⟨activities, constraints⟩ = .ok requirements :=
    hrequirements
  obtain ⟨formulas, hread⟩ := exists_readAs_of_requirements hfewer options
  obtain ⟨_, hread'⟩ := exists_readAs_of_requirements hrequirements options
  obtain rfl := hread.formulas_eq hread'
  have hnarrows : (compiler ⟨activities, constraints⟩ options requirements).Narrows
      (compiler ⟨activities', constraints⟩ options requirements) := by
    refine ⟨rfl, rfl, fun p hp => ?_⟩
    obtain ⟨a, ha, rfl⟩ := List.mem_map.mp hp
    refine List.mem_map_of_mem (List.mem_append.mpr ?_)
    exact (List.mem_append.mp ha).imp_left (hsubset a)
  obtain ⟨found, hfound⟩ := hread.exists_analyze_of_narrows hnarrows ⟨analysis, hanalysis⟩
  have hmore := hread.analysis_mono hread'
    (EventSemantics.mirrored_of_subset hnarrows.declared_subset) hfound hanalysis
  have hless := hread'.analysis_mono hread
    (EventSemantics.mirrored_of_occurrences hread.declared) hanalysis hfound
  have hsame : found = analysis := by
    cases found
    cases analysis
    congr 1
    · exact Bool.eq_iff_iff.mpr ⟨hmore.1, hless.1⟩
    · exact hless.2.eq_of_length_le hmore.2.length_le
  rw [analyze_of_requirements hfewer, hfound, hsame]

/-- Activities that no constraint mentions can be left out. -/
theorem analyze_of_fewer_activities_unmentioned : ∃ analysis,
    ProcessModel.analyze ⟨["b", "c", "d"], [⟨"Init", ["a"], [], 1⟩]⟩ {} = .ok analysis ∧
    ProcessModel.analyze ⟨["c"], [⟨"Init", ["a"], [], 1⟩]⟩ {} = .ok analysis := by
  obtain ⟨analysis, h⟩ : ∃ analysis,
      ProcessModel.analyze ⟨["b", "c", "d"], [⟨"Init", ["a"], [], 1⟩]⟩ {} = .ok analysis :=
    exists_analyze_of_isImmediate {} [.prop "a"] rfl rfl (by decide) (by decide) (by decide)
  exact ⟨analysis, h, analyze_of_fewer_activities (by decide) h⟩

/-- Under single events a model that is satisfiable is so under unrestricted events, and what is
redundant under unrestricted events is so under single ones, whatever the limits for states. -/
theorem analyze_single_unrestricted {model : ProcessModel} {limit limit' : Nat}
    (h : model.analyze ⟨.single, limit⟩ = .ok analysis)
    (h' : model.analyze ⟨.unrestricted, limit'⟩ = .ok analysis') :
    (analysis.satisfiable = true → analysis'.satisfiable = true) ∧
      analysis'.redundant.Sublist analysis.redundant := by
  obtain ⟨requirements, hrequirements, hanalysis⟩ := exists_requirements_of_analyze h
  rw [analyze_of_requirements hrequirements] at h'
  obtain ⟨formulas, hread⟩ := exists_readAs_of_requirements hrequirements ⟨.single, limit⟩
  obtain ⟨_, hread'⟩ := exists_readAs_of_requirements hrequirements ⟨.unrestricted, limit'⟩
  obtain rfl := hread.formulas_eq hread'
  exact hread.analysis_mono hread' EventSemantics.mirrored_single hanalysis h'

/-- A model with a repeated constraint has an analysis under either semantics. -/
theorem analyze_single_unrestricted_repeated :
    let model : ProcessModel := ⟨[], [⟨"Init", ["a"], [], 1⟩, ⟨"Init", ["b"], [], 2⟩,
      ⟨"Init", [" a"], [], 3⟩]⟩
    ∃ analysis analysis', model.analyze ⟨.single, 2⟩ = .ok analysis ∧
      model.analyze ⟨.unrestricted, 3⟩ = .ok analysis' ∧
      (analysis.satisfiable = true → analysis'.satisfiable = true) ∧
      analysis'.redundant.Sublist analysis.redundant := by
  intro model
  have hanalyze : ∀ options : AnalysisOptions, 2 ≤ options.maxStates →
      ∃ analysis, model.analyze options = .ok analysis := fun options hlimit =>
    exists_analyze_of_isImmediate options [.prop "a", .prop "b", .prop "a"] rfl rfl (by decide)
      (by decide) hlimit
  obtain ⟨analysis, h⟩ := hanalyze ⟨.single, 2⟩ (by decide)
  obtain ⟨analysis', h'⟩ := hanalyze ⟨.unrestricted, 3⟩ (by decide)
  exact ⟨analysis, analysis', h, h', analyze_single_unrestricted h h'⟩

end ProcessModel

end ProcessLogic
