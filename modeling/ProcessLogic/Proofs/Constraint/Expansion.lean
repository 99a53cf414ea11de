import ProcessLogic.Proofs.Collection.Sorted
import ProcessLogic.Proofs.Constraint.Proposition
import ProcessLogic.Proofs.Constraint.Template

/-!
# Constraints expand to formulas over their activities

A constraint has no formula exactly if its name and the number of its activities do not fit a
template. Otherwise its text is read as the formula of the template over the propositions of its
activities, and mentions all of them and no others.
-/

namespace ProcessLogic

open Formula Text

namespace Template

/-- The proposition of the first activity. -/
def activation (activities : List String) : String := proposition (activities[0]?.getD "")

/-- The proposition of the second activity, or of the first where there is no other. -/
def target (activities : List String) : String :=
  (activities[1]?.map proposition).getD (activation activities)

/-- The constraint that a template makes of activities. -/
def requirement (t : Template) (activities : List String) : Requirement :=
  ⟨t.name, activities.map trimmed, t.formulaText (activation activities) (target activities)⟩

/-- The proposition of the second activity is a name that a formula can hold. -/
theorem isName_target (activities : List String) : IsName (target activities) := by
  unfold target
  cases activities[1]? with
  | none => exact isName_proposition _
  | some activity => exact isName_proposition activity

/-- The text of a constraint is read as the formula of its template. -/
theorem parse_requirement (t : Template) (activities : List String) :
    parse (t.requirement activities).formula =
      .ok (t.formula (.prop (activation activities)) (.prop (target activities))) :=
  parse_formulaText (isName_proposition _) (isName_target activities) t

/-- The formula of a constraint speaks of its activities and of nothing else. -/
theorem mem_occurrences_iff {t : Template} {activities : List String}
    (h : activities.length = t.arity) {p : String} :
    p ∈ (t.formula (.prop (activation activities)) (.prop (target activities))).occurrences ↔
      p ∈ activities.map proposition := by
  rw [mem_occurrences_formula_iff]
  rcases t.arity_eq with hone | htwo
  · rw [hone, List.length_eq_one_iff] at h
    obtain ⟨a, rfl⟩ := h
    simp [occurrences, activation, hone]
  · rw [htwo, List.length_eq_two] at h
    obtain ⟨a, b, rfl⟩ := h
    simp [occurrences, activation, target, htwo]

end Template

namespace Requirement

/-- A constraint expands if a template has its name and takes as many activities. -/
theorem expand_eq_ok_iff {name : String} {activities : List String} {r : Requirement} :
    expand name activities = .ok r ↔ ∃ t, Template.ofName? name = some t ∧
      activities.length = t.arity ∧ t.requirement activities = r := by
  unfold expand
  cases Template.ofName? name with
  | none => simp
  | some t =>
      by_cases hlength : activities.length = t.arity
      · simp [hlength, Template.requirement, Template.activation, Template.target]
      · simp [hlength]

/-- A template is found under its own name, so it expands over as many activities as it is
about. -/
theorem expand_of_trimmed {t : Template} {name : String} {activities : List String}
    (hname : trimmed name = t.name) (hlength : activities.length = t.arity) :
    expand name activities = .ok (t.requirement activities) :=
  expand_eq_ok_iff.mpr ⟨t, Template.ofName?_eq_some_iff.mpr hname, hlength, rfl⟩

/-- A name is that of a template that takes so many activities. -/
def Fits (name : String) (activities : List String) : Prop :=
  ∃ t, Template.ofName? name = some t ∧ activities.length = t.arity

/-- What is wrong with a name and activities that do not fit. -/
inductive Unfit (name : String) (activities : List String) : TemplateError → Prop
  | unknown : Template.ofName? name = none →
      Unfit name activities (.unknownTemplate (trimmed name))
  | arity (t : Template) : Template.ofName? name = some t → activities.length ≠ t.arity →
      Unfit name activities (.arityMismatch t activities.length)

/-- A constraint is expanded exactly if it fits its template. -/
theorem exists_expand_iff {name : String} {activities : List String} :
    (∃ r, expand name activities = .ok r) ↔ Fits name activities := by
  simp only [expand_eq_ok_iff]
  constructor
  · rintro ⟨r, t, ht, hlength, -⟩
    exact ⟨t, ht, hlength⟩
  · rintro ⟨t, ht, hlength⟩
    exact ⟨_, t, ht, hlength, rfl⟩

/-- The error of an expansion tells what does not fit. -/
theorem expand_eq_error_iff {name : String} {activities : List String} {source : TemplateError} :
    expand name activities = .error source ↔ Unfit name activities source := by
  constructor
  · intro h
    unfold expand at h
    cases ht : Template.ofName? name with
    | none =>
        simp only [ht] at h
        exact Except.error.inj h ▸ .unknown ht
    | some t =>
        simp only [ht] at h
        split at h
        · exact nomatch h
        · rename_i hlength
          exact Except.error.inj h ▸ .arity t ht hlength
  · rintro (ht | ⟨t, ht, hlength⟩)
    · simp only [expand, ht]
    · simp only [expand, ht, if_neg hlength]

/-- A constraint expands to a text that is read as a formula over the propositions of its
activities. -/
theorem exists_formula_of_expand {name : String} {activities : List String} {r : Requirement}
    (h : expand name activities = .ok r) :
    r.activities = activities.map trimmed ∧ ∃ f, parse r.formula = .ok f ∧
      ∀ p, p ∈ f.occurrences ↔ p ∈ activities.map proposition := by
  obtain ⟨t, -, hlength, rfl⟩ := expand_eq_ok_iff.mp h
  exact ⟨rfl, _, t.parse_requirement activities, fun p => Template.mem_occurrences_iff hlength⟩

/-- Every template over as many activities as it is about, whatever they are called, expands to a
text that is read as a formula over exactly the propositions of these activities, which are also
those of the trimmed names that the constraint keeps. Propositions are identifiers and no
constants, and are their own propositions. -/
theorem expand_mentions_activities (t : Template) (name : String) (activities : List String)
    (hname : trimmed name = t.name) (hlength : activities.length = t.arity) :
    (∃ r f, expand name activities = .ok r ∧ r.template = t.name ∧
      r.activities = activities.map trimmed ∧ parse r.formula = .ok f ∧
      (∀ p, p ∈ f.propositions ↔ p ∈ activities.map proposition) ∧
      (∀ p, p ∈ f.propositions ↔ p ∈ r.activities.map proposition)) ∧
    ∀ x, Token.isIdent (proposition x) = true ∧ proposition x ≠ "true" ∧
      proposition x ≠ "false" ∧ proposition (proposition x) = proposition x := by
  refine ⟨?_, fun x => ?_⟩
  · have hexpand := expand_of_trimmed hname hlength
    obtain ⟨hactivities, f, hf, hown⟩ := exists_formula_of_expand hexpand
    have hpropositions : ∀ p, p ∈ f.propositions ↔ p ∈ activities.map proposition := fun p => by
      rw [propositions, Sorted.mem_distinctStrings, hown]
    refine ⟨_, f, hexpand, rfl, hactivities, hf, hpropositions, fun p => ?_⟩
    rw [hpropositions, hactivities, map_proposition_trimmed]
  · have hx := isName_proposition x
    exact ⟨hx.isIdent, hx.ne_true, hx.ne_false, proposition_of_isName hx⟩

/-- A template whose name stands between blanks, over an activity that is called like a constant
and one of whose name only a digit is left. -/
theorem expand_mentions_activities_odd :
    ∃ r f, expand " Alternate Succession " ["TRUE", " 2 ¿ "] = .ok r ∧
      parse r.formula = .ok f ∧ "_true" ∈ f.propositions ∧ "_2" ∈ f.propositions ∧
      "true" ∉ f.propositions := by
  obtain ⟨⟨r, f, hexpand, -, -, hf, hown, -⟩, -⟩ := expand_mentions_activities .alternateSuccession
    " Alternate Succession " ["TRUE", " 2 ¿ "] (by decide) rfl
  have hprops : ["TRUE", " 2 ¿ "].map proposition = ["_true", "_2"] := by decide
  rw [hprops] at hown
  exact ⟨r, f, hexpand, hf, (hown _).mpr (by decide), (hown _).mpr (by decide),
    fun h => absurd ((hown _).mp h) (by decide)⟩

end Requirement

end ProcessLogic
