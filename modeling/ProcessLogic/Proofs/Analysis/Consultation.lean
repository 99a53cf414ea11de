import ProcessLogic.Analysis.Report
import ProcessLogic.Proofs.Analysis.Oracle
import ProcessLogic.Proofs.Analysis.Redundancy

/-!
# What an analysis asks for

An analysis asks its oracle for the automaton of all requirements and then, in their order, for
those of all requirements but one. It stops at the first question that no automaton answers, and
its error tells which requirement was left out there. Nothing is assumed of the oracle: it may
refuse any formula, and its answers need not belong together.
-/

namespace ProcessLogic

namespace Oracle

variable {oracle oracle' : Oracle} {request : String}

/-- Whether a request is answered with the description of an automaton. -/
def Answers (oracle : Oracle) (request : String) : Prop :=
  ∃ a, oracle.automaton request = .ok a

/-- A request that is not answered has an error instead. -/
theorem not_answers_iff :
    ¬ oracle.Answers request ↔ ∃ source, oracle.automaton request = .error source := by
  unfold Answers
  cases oracle.automaton request <;> simp

/-- Whatever the oracle answers, only well-formed automata are read. -/
theorem wellFormed_of_automaton {a : Automaton} (h : oracle.automaton request = .ok a) :
    a.WellFormed := by
  unfold automaton at h
  cases hanswer : oracle request with
  | error failure => simp [hanswer] at h
  | ok description =>
      cases hread : Description.parse description with
      | error error => simp [hanswer, hread] at h
      | ok b =>
          simp only [hanswer, hread, Except.ok.injEq] at h
          exact h ▸ Description.wellFormed_of_parse hread

theorem automaton_congr (h : oracle' request = oracle request) :
    oracle'.automaton request = oracle.automaton request := by
  rw [automaton, automaton, h]

end Oracle

namespace Inquiry

variable {oracle oracle' : Oracle} {ε ε' α β : Type}

/-- A change of the outcome asks nothing more. -/
theorem run_map (f : Except ε α → Except ε' β) (inquiry : Inquiry ε α) :
    (inquiry.map f).run oracle =
      ⟨(inquiry.run oracle).requests, f (inquiry.run oracle).outcome⟩ := by
  induction inquiry with
  | settled outcome => rfl
  | asks request next ih => simp only [map, run, ih]

/-- Oracles that answer the requests of one run alike have the same run. -/
theorem run_congr {inquiry : Inquiry ε α}
    (h : ∀ q ∈ (inquiry.run oracle).requests, oracle' q = oracle q) :
    inquiry.run oracle' = inquiry.run oracle := by
  induction inquiry with
  | settled outcome => rfl
  | asks request next ih =>
      obtain ⟨hfirst, hrest⟩ := List.forall_mem_cons.mp h
      simp only [run, Oracle.automaton_congr hfirst, ih _ hrest]

end Inquiry

/-- The error of an analysis whose check of redundancy, or of the whole model before it, failed. -/
def RedundancyError.toAnalysisError : RedundancyError → AnalysisError
  | .model source => .satisfiability source
  | error => .redundancy error

namespace Requirement

variable {oracle oracle' : Oracle} {whole : Automaton} {all : List Requirement} {i : Nat}
  {r : Requirement} {source : OracleError}

/-- The formula of all requirements but the one at a place. -/
def without (all : List Requirement) (i : Nat) : String := conjoin (all.eraseIdx i)

/-- The formulas whose automata decide an analysis: of all requirements, and of all but one. -/
def queries (all : List Requirement) : List String :=
  conjoin all :: (List.range all.length).map (without all)

/-- The query at a place is the first that no automaton answers. -/
structure FailsAt (oracle : Oracle) (all : List Requirement) (place : Nat)
    (source : OracleError) : Prop where
  before : ∀ q ∈ (queries all).take place, oracle.Answers q
  error_eq : ∃ q, (queries all)[place]? = some q ∧ oracle.automaton q = .error source

/-- A query after the first leaves out some requirement. -/
theorem FailsAt.exists_getElem? (h : FailsAt oracle all (i + 1) source) :
    ∃ r, all[i]? = some r := by
  obtain ⟨q, hq, -⟩ := h.error_eq
  have hlt := (List.getElem?_eq_some_iff.mp hq).1
  simp only [queries, List.length_cons, List.length_map, List.length_range] at hlt
  exact ⟨_, List.getElem?_eq_getElem (Nat.lt_of_succ_lt_succ hlt)⟩

/-! ### Leaving out one requirement after the other -/

/-- Places whose automata are had are treated before the others. -/
theorem impliedAt_append (hwhole : whole.WellFormed) {before : List (Requirement × Nat)}
    (h : ∀ place ∈ before, oracle.Answers (without all place.2))
    (after : List (Requirement × Nat)) :
    (impliedAt whole all (before ++ after)).run oracle =
      ⟨before.map (fun place => without all place.2) ++
          ((impliedAt whole all after).run oracle).requests,
        ((impliedAt whole all after).run oracle).outcome.map fun found =>
          (before.filter fun (_, i) => isImplied oracle whole all i).map Prod.fst ++ found⟩ := by
  induction before with
  | nil =>
      simp only [List.nil_append, List.map_nil, List.filter_nil]
      cases (impliedAt whole all after).run oracle with
      | mk requests outcome => cases outcome <;> rfl
  | cons place before ih =>
      obtain ⟨⟨others, hothers⟩, hbefore⟩ := List.forall_mem_cons.mp h
      obtain ⟨word, hword, -⟩ :=
        Automaton.exists_counterexample hwhole (Oracle.wellFormed_of_automaton hothers)
      rw [without] at hothers
      have himplied : isImplied oracle whole all place.2 = word.isNone := by
        simp only [isImplied, hothers, hword]
      simp only [List.cons_append, impliedAt, Inquiry.run, Inquiry.run_map, hothers, hword,
        ih hbefore, List.filter_cons, himplied, List.map_cons, without]
      congr 1
      cases ((impliedAt whole all after).run oracle).outcome with
      | error source => rfl
      | ok found => cases word <;> rfl

/-- The first place whose automaton cannot be had ends the check. -/
theorem impliedAt_cons_of_error (h : oracle.automaton (without all i) = .error source)
    (after : List (Requirement × Nat)) :
    (impliedAt whole all ((r, i) :: after)).run oracle =
      ⟨[without all i], .error (.withoutConstraint i r.template source)⟩ := by
  rw [without] at h
  simp only [impliedAt, Inquiry.run, h, without]

/-- What the places of a list leave out is told by their numbers alone. -/
theorem map_without_zipIdx (all items : List Requirement) :
    items.zipIdx.map (fun place => without all place.2) =
      (List.range items.length).map (without all) := by
  rw [List.range_eq_range', ← List.zipIdx_map_snd 0 items, List.map_map]
  rfl

/-- With all automata the check collects the requirements whose absence changes nothing. -/
theorem redundantGiven_of_answers (hwhole : whole.WellFormed)
    (h : ∀ i < all.length, oracle.Answers (without all i)) :
    (redundantGiven whole all).run oracle =
      ⟨(List.range all.length).map (without all),
        .ok (firstPerFormula (selectAt (fun _ i => isImplied oracle whole all i) all))⟩ := by
  have hplaces : ∀ place ∈ all.zipIdx, oracle.Answers (without all place.2) :=
    fun place hplace => h place.2 (List.snd_lt_of_mem_zipIdx hplace)
  have himplied := impliedAt_append hwhole hplaces []
  rw [List.append_nil, map_without_zipIdx] at himplied
  simp only [redundantGiven, Inquiry.run_map, himplied, impliedAt, Inquiry.run, List.append_nil,
    Except.map, selectAt]

/-- Without the automaton for one place the check fails there. -/
theorem redundantGiven_of_error (hwhole : whole.WellFormed) (hr : all[i]? = some r)
    (hbefore : ∀ j < i, oracle.Answers (without all j))
    (hi : oracle.automaton (without all i) = .error source) :
    (redundantGiven whole all).run oracle =
      ⟨(List.range (i + 1)).map (without all),
        .error (.withoutConstraint i r.template source)⟩ := by
  obtain ⟨hlt, rfl⟩ := List.getElem?_eq_some_iff.mp hr
  have hlength : (all.take i).length = i := List.length_take_of_le (Nat.le_of_lt hlt)
  have hsplit : all.zipIdx =
      (all.take i).zipIdx ++ (all[i], i) :: (all.drop (i + 1)).zipIdx (i + 1) := by
    conv_lhs => rw [← List.take_append_drop i all, List.drop_eq_getElem_cons hlt]
    rw [List.zipIdx_append, hlength, Nat.zero_add, List.zipIdx_cons]
  have hplaces : ∀ place ∈ (all.take i).zipIdx, oracle.Answers (without all place.2) :=
    fun place hplace => hbefore place.2 (hlength ▸ List.snd_lt_of_mem_zipIdx hplace)
  rw [redundantGiven, Inquiry.run_map, hsplit, impliedAt_append hwhole hplaces,
    impliedAt_cons_of_error hi, map_without_zipIdx, hlength, List.range_succ, List.map_append]
  rfl

/-! ### The questions up to the first that is not answered -/

/-- The queries after the first leave out one requirement each, in order. -/
theorem getElem?_queries_succ (hi : i < all.length) :
    (queries all)[i + 1]? = some (without all i) := by
  rw [queries, List.getElem?_cons_succ, List.getElem?_map, List.getElem?_range hi]
  rfl

/-- The queries up to a place: all requirements, then all but each of those before it. -/
theorem take_queries_succ (hi : i ≤ all.length) :
    (queries all).take (i + 1) = conjoin all :: (List.range i).map (without all) := by
  rw [queries, List.take_succ_cons, ← List.map_take, List.take_range, Nat.min_eq_left hi]

/-- What holds of the formula of all requirements, and of that of all but any one, holds of every
query. -/
theorem forall_mem_queries {P : String → Prop} :
    (∀ q ∈ queries all, P q) ↔ P (conjoin all) ∧ ∀ i < all.length, P (without all i) := by
  simp [queries]

/-- Either all queries are answered, or there is a first that is not. -/
theorem answers_or_failsAt (oracle : Oracle) (all : List Requirement) :
    (∀ q ∈ queries all, oracle.Answers q) ∨ ∃ place source, FailsAt oracle all place source := by
  rcases forall_or_exists_first oracle.Answers (queries all) with h | ⟨place, q, hbefore, hq, hnot⟩
  · exact Or.inl h
  · obtain ⟨source, hsource⟩ := Oracle.not_answers_iff.mp hnot
    exact Or.inr ⟨place, source, hbefore, q, hq, hsource⟩

/-- A query that is not answered is the first such or comes after it. -/
theorem exists_failsAt_iff : (∃ place source, FailsAt oracle all place source) ↔
    ∃ q ∈ queries all, ¬ oracle.Answers q := by
  constructor
  · rintro ⟨place, source, -, q, hq, hsource⟩
    exact ⟨q, List.mem_of_getElem? hq, Oracle.not_answers_iff.mpr ⟨source, hsource⟩⟩
  · rintro ⟨q, hq, hnot⟩
    exact (answers_or_failsAt oracle all).resolve_left fun h => hnot (h q hq)

/-- If the automaton of all requirements cannot be had, nothing else is asked. -/
theorem analyze_of_failsAt_zero (h : FailsAt oracle all 0 source) :
    analyze oracle all = ⟨(queries all).take 1, .error (.satisfiability source)⟩ := by
  obtain ⟨q, hq, hsource⟩ := h.error_eq
  obtain rfl := Option.some.inj hq
  simp only [analyze, analysisInquiry, Inquiry.run, hsource]
  rfl

/-- An analysis whose first error is in a check of redundancy names the requirement left out, and
has asked for that formula last. -/
theorem analyze_of_failsAt_succ (hr : all[i]? = some r) (h : FailsAt oracle all (i + 1) source) :
    analyze oracle all =
      ⟨(queries all).take (i + 2),
        .error (.redundancy (.withoutConstraint i r.template source))⟩ := by
  obtain ⟨hlt, -⟩ := List.getElem?_eq_some_iff.mp hr
  obtain ⟨q, hq, hsource⟩ := h.error_eq
  obtain rfl := Option.some.inj ((getElem?_queries_succ hlt).symm.trans hq)
  have hbefore := h.before
  rw [take_queries_succ (Nat.le_of_lt hlt)] at hbefore
  obtain ⟨⟨whole, hwhole⟩, hothers⟩ := List.forall_mem_cons.mp hbefore
  have hgiven := redundantGiven_of_error (Oracle.wellFormed_of_automaton hwhole) hr
    (fun j hj => hothers _ (List.mem_map_of_mem (List.mem_range.mpr hj))) hsource
  rw [take_queries_succ hlt]
  simp only [analyze, analysisInquiry, Inquiry.run, hwhole, Inquiry.run_map, hgiven]

/-- With all automata the analysis succeeds. -/
theorem analyze_of_answers (hwhole : oracle.automaton (conjoin all) = .ok whole)
    (hothers : ∀ i < all.length, oracle.Answers (without all i)) :
    analyze oracle all = ⟨queries all, .ok ⟨!whole.isEmpty,
      firstPerFormula (selectAt (fun _ i => isImplied oracle whole all i) all)⟩⟩ := by
  have hgiven := redundantGiven_of_answers (Oracle.wellFormed_of_automaton hwhole) hothers
  simp only [analyze, analysisInquiry, Inquiry.run, hwhole, Inquiry.run_map, hgiven, queries]

/-- An analysis succeeds, or it fails at the first query or at a later one. -/
theorem ok_or_failsAt (oracle : Oracle) (all : List Requirement) :
    (∃ analysis, analyze oracle all = ⟨queries all, .ok analysis⟩) ∨
      (∃ source, FailsAt oracle all 0 source) ∨
      ∃ i r source, all[i]? = some r ∧ FailsAt oracle all (i + 1) source := by
  rcases answers_or_failsAt oracle all with h | ⟨place, source, h⟩
  · obtain ⟨⟨whole, hwhole⟩, hothers⟩ := forall_mem_queries.mp h
    exact Or.inl ⟨_, analyze_of_answers hwhole hothers⟩
  · cases place with
    | zero => exact Or.inr (Or.inl ⟨source, h⟩)
    | succ i =>
        obtain ⟨r, hr⟩ := h.exists_getElem?
        exact Or.inr (Or.inr ⟨i, r, source, hr, h⟩)

/-- An analysis fails exactly if an automaton cannot be had that it needs. -/
theorem exists_error_iff : (∃ error, (analyze oracle all).outcome = .error error) ↔
    ∃ q ∈ queries all, ¬ oracle.Answers q := by
  rw [← exists_failsAt_iff]
  constructor
  · rintro ⟨error, herror⟩
    rcases ok_or_failsAt oracle all with ⟨_, h⟩ | ⟨source, h⟩ | ⟨i, _, source, -, h⟩
    · rw [h] at herror
      exact nomatch herror
    · exact ⟨0, source, h⟩
    · exact ⟨i + 1, source, h⟩
  · rintro ⟨place, source, h⟩
    cases place with
    | zero => exact ⟨_, by rw [analyze_of_failsAt_zero h]⟩
    | succ i =>
        obtain ⟨r, hr⟩ := h.exists_getElem?
        exact ⟨_, by rw [analyze_of_failsAt_succ hr h]⟩

/-- An analysis succeeds exactly if it gets all the automata that it needs. -/
theorem exists_ok_iff : (∃ analysis, (analyze oracle all).outcome = .ok analysis) ↔
    ∀ q ∈ queries all, oracle.Answers q := by
  have herror := @exists_error_iff oracle all
  rw [← not_iff_not] at herror
  simp only [not_exists, not_and, not_not] at herror
  rw [← herror]
  cases (analyze oracle all).outcome <;> simp

/-- Of the errors of a redundancy check only one is met: no comparison fails, and the automaton of
all requirements is not asked for again. -/
theorem exists_withoutConstraint {error : RedundancyError}
    (h : (analyze oracle all).outcome = .error (.redundancy error)) :
    ∃ i template source, error = .withoutConstraint i template source := by
  rcases ok_or_failsAt oracle all with
    ⟨_, hok⟩ | ⟨source, hfails⟩ | ⟨i, r, source, hr, hfails⟩
  · rw [hok] at h
    exact nomatch h
  · rw [analyze_of_failsAt_zero hfails] at h
    exact nomatch h
  · rw [analyze_of_failsAt_succ hr hfails] at h
    exact ⟨i, r.template, source, (AnalysisError.redundancy.inj (Except.error.inj h)).symm⟩

/-- What the automata of all requirements and of all but one say: the redundant requirements stand
in their order, and are those without which the language stays as it is, of each formula the
first. -/
structure DecidedBy (whole : Automaton) (others : Nat → Automaton) (all : List Requirement)
    (analysis : Analysis) : Prop where
  satisfiable_iff : analysis.satisfiable = true ↔ ∃ word, whole.accepts word = true
  exists_places : ∃ places : List Nat, places.Pairwise (· < ·) ∧
    analysis.redundant.map some = places.map (all[·]?) ∧
    ∀ i, i ∈ places ↔ ∃ r, all[i]? = some r ∧
      (∀ word, whole.accepts word = (others i).accepts word) ∧
      ∀ j < i, ∀ earlier, all[j]? = some earlier →
        (∀ word, whole.accepts word = (others j).accepts word) → earlier.formula ≠ r.formula

/-- An analysis is decided by the automata it has got, however they were come by. -/
theorem exists_decidedBy {others : Nat → Automaton}
    (hwhole : oracle.automaton (conjoin all) = .ok whole)
    (hothers : ∀ i < all.length, oracle.automaton (without all i) = .ok (others i)) :
    ∃ analysis, analyze oracle all = ⟨queries all, .ok analysis⟩ ∧
      DecidedBy whole others all analysis := by
  have hwell := Oracle.wellFormed_of_automaton hwhole
  have himplied : ∀ (i : Nat) (r : Requirement), all[i]? = some r →
      (isImplied oracle whole all i = true ↔
        ∀ word, whole.accepts word = (others i).accepts word) := by
    intro i r hr
    have hi := hothers i (List.getElem?_eq_some_iff.mp hr).1
    exact isImplied_iff hwell (Oracle.wellFormed_of_automaton hi) hi
  refine ⟨_, analyze_of_answers hwhole fun i hi => ⟨_, hothers i hi⟩, ?_, ?_⟩
  · rw [Bool.not_eq_true', hwell.isEmpty_eq_false_iff]
  · rw [firstPerFormula_selectAt]
    obtain ⟨places, hincreasing, hitems, hplaces⟩ := exists_places (fun r i =>
      isImplied oracle whole all i && firstChosen (isImplied oracle whole all) all r i) all
    refine ⟨places, hincreasing, hitems, fun i => (hplaces i).trans (exists_congr fun r => ?_)⟩
    refine and_congr_right fun hr => ?_
    rw [Bool.and_eq_true, himplied i r hr, firstChosen_eq_true_iff]
    refine and_congr_right fun _ => forall_congr' fun j => forall_congr' fun _ => ?_
    exact forall_congr' fun earlier => forall_congr' fun he => by rw [himplied j earlier he]

/-- The check of redundancy asks what the analysis asks, and finds what it finds. -/
theorem redundant_of_ne_nil (oracle : Oracle) (h : all ≠ []) :
    (redundant oracle all).requests = (analyze oracle all).requests ∧
      (analyze oracle all).outcome.map (·.redundant) =
        (redundant oracle all).outcome.mapError RedundancyError.toAnalysisError := by
  have herror := @exists_withoutConstraint oracle all
  unfold redundant redundancyInquiry
  unfold analyze analysisInquiry at *
  rw [if_neg (by rwa [List.isEmpty_iff])]
  cases hwhole : oracle.automaton (conjoin all) with
  | error source => simp [Inquiry.run, hwhole, Except.map, Except.mapError,
      RedundancyError.toAnalysisError]
  | ok whole =>
      simp only [Inquiry.run, hwhole, Inquiry.run_map, true_and] at herror ⊢
      cases hrest : ((redundantGiven whole all).run oracle).outcome with
      | ok found => rfl
      | error error =>
          obtain ⟨i, template, source, rfl⟩ := herror (by rw [hrest])
          rfl

/-- An analysis with any oracle asks for the automata of all requirements and then, in their order,
of all but one, and stops after the first query that no automaton answers. It fails exactly if
there is one, and its error tells which; a comparison never fails. The check of redundancy alone
asks and finds the same, except that it asks nothing if there are no requirements. -/
theorem analyze_consults (oracle : Oracle) (all : List Requirement) :
    (∀ (whole : Automaton) (others : Nat → Automaton),
      oracle.automaton (conjoin all) = .ok whole →
      (∀ i < all.length, oracle.automaton (without all i) = .ok (others i)) →
        ∃ analysis, analyze oracle all = ⟨queries all, .ok analysis⟩ ∧
          DecidedBy whole others all analysis) ∧
    (∀ source, FailsAt oracle all 0 source →
      analyze oracle all = ⟨(queries all).take 1, .error (.satisfiability source)⟩) ∧
    (∀ i r source, all[i]? = some r → FailsAt oracle all (i + 1) source →
      analyze oracle all = ⟨(queries all).take (i + 2),
        .error (.redundancy (.withoutConstraint i r.template source))⟩) ∧
    ((∃ error, (analyze oracle all).outcome = .error error) ↔
      ∃ q ∈ queries all, ¬ oracle.Answers q) ∧
    (∀ index template violation, (analyze oracle all).outcome ≠
      .error (.redundancy (.comparison index template violation))) ∧
    (∀ oracle' : Oracle, (∀ q ∈ (analyze oracle all).requests, oracle' q = oracle q) →
      analyze oracle' all = analyze oracle all) ∧
    (all ≠ [] → (redundant oracle all).requests = (analyze oracle all).requests ∧
      (analyze oracle all).outcome.map (·.redundant) =
        (redundant oracle all).outcome.mapError RedundancyError.toAnalysisError) ∧
    (all = [] → redundant oracle all = ⟨[], .ok []⟩) := by
  refine ⟨fun whole others => exists_decidedBy, fun source => analyze_of_failsAt_zero,
    fun i r source => analyze_of_failsAt_succ, exists_error_iff, ?_,
    fun oracle' => Inquiry.run_congr, redundant_of_ne_nil oracle, ?_⟩
  · intro index template violation h
    obtain ⟨_, _, _, herror⟩ := exists_withoutConstraint h
    exact nomatch herror
  · rintro rfl
    rfl

/-- An oracle that refuses one formula is asked for it and then for nothing else. If all formulas
have one automaton, all requirements are redundant, and the repeated one is reported once. -/
theorem analyze_consults_refused : ∃ description,
    (let refusing : Oracle := fun q =>
        if q = "(a) & (c)" then .error ⟨q, "refused"⟩ else .ok description;
      analyze refusing [⟨"Init", ["a"], "a"⟩, ⟨"Init", ["b"], "b"⟩, ⟨"Init", ["c"], "c"⟩] =
        ⟨["(a) & (b) & (c)", "(b) & (c)", "(a) & (c)"],
          .error (.redundancy (.withoutConstraint 1 "Init" (.compiler ⟨"(a) & (c)", "refused"⟩)))⟩ ∧
      analyze refusing [⟨"Init", ["a"], "a"⟩, ⟨"Init", ["c"], "c"⟩] =
        ⟨["(a) & (c)"], .error (.satisfiability (.compiler ⟨"(a) & (c)", "refused"⟩))⟩ ∧
      redundant refusing [] = ⟨[], .ok []⟩) ∧
    analyze (fun _ => .ok description) [⟨"Init", ["a"], "a"⟩, ⟨"Init", [" a"], "a"⟩] =
      ⟨["(a) & (a)", "(a)", "(a)"], .ok ⟨true, [⟨"Init", ["a"], "a"⟩]⟩⟩ := by
  obtain ⟨loop, -, hloop, haccepts⟩ := Automaton.exists_loop "x"
  obtain ⟨a, hread, ha, hsame⟩ := Description.exists_parse_write hloop
  have hempty : a.accepts [] = true := by
    rw [← hsame.accepts_eq hloop ha, haccepts]
    simp
  have hautomaton : ∀ {oracle : Oracle} {q : String},
      oracle q = .ok (Description.write loop) → oracle.automaton q = .ok a := by
    intro oracle q hq
    simp only [Oracle.automaton, hq, hread]
  refine ⟨Description.write loop, ?_, ?_⟩
  · intro refusing
    refine ⟨?_, ?_, (analyze_consults refusing []).2.2.2.2.2.2.2 rfl⟩
    · refine (analyze_consults refusing [⟨"Init", ["a"], "a"⟩, ⟨"Init", ["b"], "b"⟩,
        ⟨"Init", ["c"], "c"⟩]).2.2.1 1 _ (.compiler ⟨"(a) & (c)", "refused"⟩) rfl
        ⟨fun q hq => ?_, "(a) & (c)", rfl, rfl⟩
      have hq : q ∈ ["(a) & (b) & (c)", "(b) & (c)"] := hq
      simp only [List.mem_cons, List.not_mem_nil, or_false] at hq
      rcases hq with rfl | rfl <;> exact ⟨a, hautomaton (if_neg (by decide))⟩
    · exact (analyze_consults refusing [⟨"Init", ["a"], "a"⟩, ⟨"Init", ["c"], "c"⟩]).2.1
        (.compiler ⟨"(a) & (c)", "refused"⟩) ⟨List.forall_mem_nil _, "(a) & (c)", rfl, rfl⟩
  · obtain ⟨⟨satisfiable, redundant⟩, hanalysis, hsatisfiable, places, hincreasing, hitems,
        hplaces⟩ := (analyze_consults (fun _ => .ok (Description.write loop))
      [⟨"Init", ["a"], "a"⟩, ⟨"Init", [" a"], "a"⟩]).1 a (fun _ => a)
      (hautomaton rfl) (fun _ _ => hautomaton rfl)
    have honly : ∀ i, i ∈ places ↔ i = 0 := by
      intro i
      rw [hplaces]
      constructor
      · rintro ⟨r, hr, -, hfirst⟩
        have hlt : i < 2 := (List.getElem?_eq_some_iff.mp hr).1
        by_cases hone : i = 1
        · subst hone
          obtain rfl := Option.some.inj hr
          exact absurd rfl (hfirst 0 (by decide) ⟨"Init", ["a"], "a"⟩ rfl fun _ => rfl)
        · omega
      · rintro rfl
        exact ⟨_, rfl, fun _ => rfl, fun j hj => absurd hj (Nat.not_lt_zero j)⟩
    obtain rfl := eq_singleton_of_mem_iff hincreasing honly
    obtain rfl := hsatisfiable.mpr ⟨[], hempty⟩
    obtain rfl : redundant = [⟨"Init", ["a"], "a"⟩] :=
      (List.map_inj_right fun _ _ he => Option.some.inj he).mp hitems
    exact hanalysis

end Requirement

end ProcessLogic
