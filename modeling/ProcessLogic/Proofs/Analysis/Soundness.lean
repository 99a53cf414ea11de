import ProcessLogic.Proofs.Analysis.Transfer
import ProcessLogic.Proofs.Event.Universe
import ProcessLogic.Proofs.Formula.Reading

/-!
# Redundancy over too small a universe

A compiler adds the propositions of a formula to those it knows, so without a requirement the
universe may be smaller, and the languages compared are over different labels. No label of the one
universe is a label of the other. Languages that are equal all the same hold at most the empty word,
so what the check reports is redundant in any case.
-/

namespace ProcessLogic

namespace Automaton.Recognizes

variable {a b : Automaton} {semantics : EventSemantics} {props props' : List String}
  {holds : Trace → Bool}

/-- Equal languages without a common label hold at most the empty word. -/
theorem eq_nil_of_accepts (ha : a.Recognizes semantics props holds)
    (hlabels : ∀ event event', Event.label props event ≠ Event.label props' event')
    (hsame : ∀ word, a.accepts word = b.accepts word) {trace : Trace}
    (hw : b.accepts (trace.map (Event.label props')) = true) : trace = [] := by
  obtain ⟨twin, -, htwin, -⟩ := ha.exists_trace ((hsame _).trans hw)
  cases trace with
  | nil => rfl
  | cons event rest =>
      obtain ⟨event', rest', -, hlabel, -⟩ := List.map_eq_cons_iff.mp htwin
      exact absurd hlabel (hlabels event' event)

/-- If `holds` is true for no trace, no word is accepted. -/
theorem accepts_eq_false (h : a.Recognizes semantics props holds)
    (hnone : ∀ trace, holds trace = false) (word : List Label) : a.accepts word = false := by
  by_contra hw
  obtain ⟨trace, -, -, htrace⟩ := h.exists_trace (Bool.eq_true_of_not_eq_false hw)
  rw [hnone] at htrace
  exact nomatch htrace

end Automaton.Recognizes

namespace Compiler

variable {c : Compiler} {f g : Formula} {a b : Automaton}

/-- If a formula brings propositions that another of its universe lacks, their labels differ. -/
theorem label_ne_of_propositions_ne
    (hdeclared : ∀ p ∈ c.declared, Formula.Token.isIdent p = true)
    (hnames : ∀ p ∈ f.occurrences, Formula.IsName p)
    (hsub : ∀ p ∈ g.occurrences, p ∈ f.occurrences)
    (hne : c.propositions g ≠ c.propositions f) (event event' : Event) :
    Event.label (c.propositions f) event ≠ Event.label (c.propositions g) event' := by
  have hmem : ∀ p ∈ c.propositions g, p ∈ c.propositions f := by
    simp only [mem_propositions, Formula.propositions, Sorted.mem_distinctStrings]
    exact fun p hp => hp.imp_right (hsub p)
  have hplain : Event.Plain (c.propositions f) := by
    refine Event.plain_of_isIdent fun p hp => ?_
    rw [mem_propositions, Formula.propositions, Sorted.mem_distinctStrings] at hp
    exact hp.elim (hdeclared p) fun hp => (hnames p hp).isIdent
  have hlt : (c.propositions g).length < (c.propositions f).length :=
    (Sorted.increasing_distinct Sorted.linear_string _).length_lt Sorted.linear_string
      (Sorted.increasing_distinct Sorted.linear_string _) hmem hne
  have hfull : c.propositions f ≠ [] := List.ne_nil_of_length_pos (Nat.zero_lt_of_lt hlt)
  by_cases hempty : c.propositions g = []
  · -- nothing is declared then, and no formula mentions `true`
    have htrue : "true" ∉ c.propositions f := by
      rw [mem_propositions, Formula.propositions, Sorted.mem_distinctStrings]
      rintro (hp | hp)
      · have hdecl := (c.mem_propositions g "true").mpr (Or.inl hp)
        rw [hempty] at hdecl
        exact absurd hdecl List.not_mem_nil
      · exact (hnames "true" hp).ne_true rfl
    rw [hempty]
    exact Event.label_ne_true hplain hfull htrue event
  · intro hlabel
    have hplain' : Event.Plain (c.propositions g) := fun p hp => hplain p (hmem p hp)
    exact absurd (Event.length_eq_of_label_eq hplain hplain' hfull hempty hlabel).symm
      (Nat.ne_of_lt hlt)

/-- If two formulas have one language, the one with fewer propositions implies the other. -/
theorem holds_of_accepts_eq
    (hdeclared : ∀ p ∈ c.declared, Formula.Token.isIdent p = true)
    (hnames : ∀ p ∈ f.occurrences, Formula.IsName p)
    (hsub : ∀ p ∈ g.occurrences, p ∈ f.occurrences)
    (ha : a.Recognizes c.semantics (c.propositions f) fun trace => f.nnf.holds trace)
    (hb : b.Recognizes c.semantics (c.propositions g) fun trace => g.nnf.holds trace)
    (hsame : ∀ word, a.accepts word = b.accepts word) {trace : Trace}
    (htrace : c.semantics.AdmitsTrace (c.propositions f) trace) (hg : g.nnf.holds trace = true) :
    f.nnf.holds trace = true := by
  by_cases heq : c.propositions g = c.propositions f
  · rw [heq] at hb
    exact ((ha.accepts_eq_iff hb).mp hsame trace htrace).trans hg
  · -- the part of the trace that `g` speaks of has a word in both languages
    have howns : ∀ p ∈ g.occurrences, decide (p ∈ c.propositions g) = true := by
      intro p hp
      rw [decide_eq_true_eq, mem_propositions, Formula.propositions, Sorted.mem_distinctStrings]
      exact Or.inr hp
    have hpart := hb.accepts_map_label _ (htrace.map_filter (c.propositions g))
    rw [Formula.holds_map_filter howns, hg] at hpart
    have hnil := ha.eq_nil_of_accepts (label_ne_of_propositions_ne hdeclared hnames hsub heq) hsame
      hpart
    obtain rfl := List.map_eq_nil_iff.mp hnil
    rw [← ha.accepts_map_label [] htrace, hsame]
    exact hpart

/-- The universe of a conjunction holds the propositions of all its parts. -/
theorem mem_propositions_conjoin {fs : List Formula} {p : String} :
    p ∈ c.propositions (Formula.conjoin fs) ↔ p ∈ c.declared ++ fs.flatMap (·.propositions) := by
  simp only [mem_propositions, Formula.propositions, Sorted.mem_distinctStrings, List.mem_append,
    List.mem_flatMap, Formula.mem_occurrences_conjoin]

end Compiler

namespace Requirement

variable {oracle : Oracle} {c : Compiler} {all found : List Requirement} {formulas : List Formula}

/-- The check of redundancy succeeds exactly if the analysis does. -/
theorem redundant_eq_ok_iff (h : all ≠ []) : (redundant oracle all).outcome = .ok found ↔
    ∃ analysis, (analyze oracle all).outcome = .ok analysis ∧ analysis.redundant = found := by
  obtain ⟨-, hsame⟩ := redundant_of_ne_nil oracle h
  cases hredundant : (redundant oracle all).outcome <;>
    cases hanalyze : (analyze oracle all).outcome <;>
      simp_all [Except.map, Except.mapError]

/-- What the check reports stands at a place without which it found the language to stay as it is. -/
theorem exists_isImplied_of_redundant (h : (redundant oracle all).outcome = .ok found)
    {r : Requirement} (hr : r ∈ found) : ∃ whole i others, all[i]? = some r ∧
      oracle.automaton (conjoin all) = .ok whole ∧
      oracle.automaton (conjoin (all.eraseIdx i)) = .ok others ∧
      isImplied oracle whole all i = true := by
  by_cases hall : all = []
  · subst hall
    obtain rfl := Except.ok.inj h
    exact nomatch hr
  · obtain ⟨analysis, hanalysis, rfl⟩ := (redundant_eq_ok_iff hall).mp h
    obtain ⟨whole, hwhole, -, hredundant, hothers⟩ := analyze_cases hanalysis
    rw [hredundant, firstPerFormula_selectAt, mem_selectAt] at hr
    obtain ⟨i, hi, hchosen⟩ := hr
    obtain ⟨himplied, -⟩ := Bool.and_eq_true_iff.mp hchosen
    obtain ⟨others, ho⟩ := hothers i (List.getElem?_eq_some_iff.mp hi).1
    exact ⟨whole, i, others, hi, hwhole, ho, himplied⟩

/-- What the check reports is implied by the other requirements, on all traces over the propositions
of the compiler and of the requirements, even if the compiler does not know them all. -/
theorem redundant_sound (hdeclared : ∀ p ∈ c.declared, Formula.Token.isIdent p = true)
    (hparse : all.map (Formula.parse ·.formula) = formulas.map .ok)
    (h : (redundant c.oracle all).outcome = .ok found) :
    ∀ r ∈ found, (∃ i : Nat, all[i]? = some r) ∧ ∀ i : Nat, all[i]? = some r →
      Formula.ImpliedAt c.semantics (c.declared ++ formulas.flatMap (·.propositions)) formulas
        i := by
  intro r hr
  -- a compiler that knows all propositions reads the requirements in the same way
  have hread : ReadAs { c with declared := c.declared ++ formulas.flatMap (·.propositions) } all
      formulas := by
    refine ⟨hparse, fun f hf p hp => List.mem_append_right _ (List.mem_flatMap.mpr ⟨f, hf, ?_⟩)⟩
    rwa [Formula.propositions, Sorted.mem_distinctStrings]
  obtain ⟨whole, i, others, hi, hwhole, hothers, himplied⟩ := exists_isImplied_of_redundant h hr
  refine ⟨⟨i, hi⟩, fun j hj => ?_⟩
  by_cases hne : i = j
  · subst hne
    have ha := Oracle.recognizes_of_automaton hread.parse_conjoin hwhole
    have hb := Oracle.recognizes_of_automaton (hread.eraseIdx i).parse_conjoin hothers
    have hsame := (isImplied_iff ha.wellFormed hb.wellFormed hothers).mp himplied
    have hfewer : ∀ p ∈ (Formula.conjoin (formulas.eraseIdx i)).occurrences,
        p ∈ (Formula.conjoin formulas).occurrences := by
      simp only [Formula.mem_occurrences_conjoin]
      rintro p ⟨f, hf, hp⟩
      exact ⟨f, List.mem_of_mem_eraseIdx hf, hp⟩
    intro trace htrace hrest f hf
    have hadmits : c.semantics.AdmitsTrace (c.propositions (Formula.conjoin formulas)) trace := by
      simp only [EventSemantics.AdmitsTrace, EventSemantics.Admits,
        Compiler.mem_propositions_conjoin]
      exact htrace
    have hsatisfied : (Formula.conjoin (formulas.eraseIdx i)).nnf.holds trace = true := by
      rw [Formula.holds_conjoin, Formula.all_eraseIdx_eq_true_iff]
      exact hrest
    have hall := Compiler.holds_of_accepts_eq hdeclared
      (Formula.isName_of_parse hread.parse_conjoin) hfewer ha hb hsame hadmits hsatisfied
    rw [Formula.holds_conjoin, List.all_eq_true] at hall
    exact hall f (List.mem_of_getElem? hf)
  · exact hread.impliedAt_of_formula_eq (Ne.symm hne) hj hi rfl

/-- Without its second requirement the universe of a list may be empty, and the language as well:
the requirement is reported, and implied. -/
theorem redundant_sound_empty :
    let c : Compiler := { semantics := .single }
    let all : List Requirement := [⟨"", [], "false"⟩, ⟨"", [], "b"⟩]
    let formulas : List Formula := [.const false, .prop "b"]
    ∃ found, (redundant c.oracle all).outcome = .ok found ∧ ⟨"", [], "b"⟩ ∈ found ∧
      Formula.ImpliedAt c.semantics (c.declared ++ formulas.flatMap (·.propositions)) formulas
        1 := by
  intro c all formulas
  have hparse : all.map (Formula.parse ·.formula) = formulas.map .ok := rfl
  have himmediate : ∀ f ∈ formulas, f.nnf.isImmediate = true := by decide
  obtain ⟨whole, hwhole⟩ : c.oracle.Answers (conjoin all) :=
    answers_of_isImmediate hparse himmediate rfl (by decide)
  have hread : ∀ i, (all.eraseIdx i).map (Formula.parse ·.formula) =
      (formulas.eraseIdx i).map .ok := by
    intro i
    rw [← List.eraseIdx_map, ← List.eraseIdx_map, hparse]
  have hothers : ∀ i < all.length, c.oracle.Answers (without all i) := fun i _ =>
    answers_of_isImmediate (hread i)
      (fun f hf => himmediate f (List.mem_of_mem_eraseIdx hf)) rfl (by decide)
  obtain ⟨others, ho⟩ := hothers 1 (by decide)
  -- nothing satisfies `false`, with `b` or without
  have hnone : ∀ fs : List Formula, ∀ trace,
      (Formula.conjoin (.const false :: fs)).nnf.holds trace = false := by
    intro fs trace
    rw [Formula.holds_conjoin]
    rfl
  have himplied : isImplied c.oracle whole all 1 = true := by
    have ha := Oracle.recognizes_of_automaton (parse_conjoin hparse) hwhole
    have hb := Oracle.recognizes_of_automaton (parse_conjoin (hread 1)) ho
    rw [isImplied_iff ha.wellFormed hb.wellFormed ho]
    intro word
    rw [ha.accepts_eq_false (hnone _), hb.accepts_eq_false (hnone _)]
  have hfound := (redundant_eq_ok_iff (by decide)).mpr
    ⟨_, congrArg Consultation.outcome (analyze_of_answers hwhole hothers), rfl⟩
  have hmem : ⟨"", [], "b"⟩ ∈
      firstPerFormula (selectAt (fun _ i => isImplied c.oracle whole all i) all) := by
    rw [firstPerFormula_selectAt, mem_selectAt]
    refine ⟨1, rfl, Bool.and_eq_true_iff.mpr ⟨himplied, firstChosen_eq_true_iff.mpr ?_⟩⟩
    intro j hj earlier he _
    obtain rfl : j = 0 := by omega
    obtain rfl := Option.some.inj he
    decide
  refine ⟨_, hfound, hmem, ?_⟩
  exact (redundant_sound (List.forall_mem_nil _) hparse hfound _ hmem).2 1 rfl

end Requirement

end ProcessLogic
