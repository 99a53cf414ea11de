import ProcessLogic.Proofs.Automaton.Run
import ProcessLogic.Proofs.Compiler.Success

/-!
# The compiled automaton accepts exactly the traces of the formula

The automaton reads labels, the semantics reads events. Every event of the chosen semantics has
the label of a listed event with the same propositions, and no other word is accepted.
-/

namespace ProcessLogic

open Search

namespace Progression

variable {semantics : EventSemantics} {f : Nnf} {props : List String} {limit : Nat}
  {search : Search Stage Letter} {a : Automaton}

/-- An edge by the label of an event leads to the stage for what is left after the event. -/
theorem BuiltFrom.holds_of_step
    (h : (ofNnf f props (semantics.events props)).BuiltFrom search a)
    (hv : Valid (ofNnf f props (semantics.events props)).letters
      (ofNnf f props (semantics.events props)).step limit .initial search)
    {event : Event} (hadm : semantics.Admits props event) {i j : Nat} {stage : Stage}
    (hi : search.found.get? i = some stage) (hstep : a.step i (event.label props) = some j) :
    ∃ next, search.found.get? j = some next ∧
      ∀ rest, next.holds f rest = stage.holds f (event :: rest) := by
  obtain ⟨letter, hmove, hlabel⟩ := (h.step_iff_move hv).mp hstep
  obtain ⟨hletter, s, next, hs, hnext, hs'⟩ := hv.move_sound i letter j hmove
  obtain rfl := Option.some.inj (hi.symm.trans hs)
  obtain ⟨event', hlisted, rfl⟩ := mem_letters.mp hletter
  obtain ⟨-, rfl⟩ := step_eq_some_iff.mp hs'
  have hsame := Event.mem_iff_of_label_eq hadm (EventSemantics.admits_of_mem_events hlisted)
    hlabel.symm
  refine ⟨_, hnext, fun rest => ?_⟩
  rw [Stage.holds_cons_congr hsame]
  exact eval_after props _ event' stage rest

/-- A missing edge means that the formula can no longer hold. -/
theorem BuiltFrom.holds_of_step_eq_none
    (h : (ofNnf f props (semantics.events props)).BuiltFrom search a)
    (hf : Finished (ofNnf f props (semantics.events props)).letters
      (ofNnf f props (semantics.events props)).step (fun _ => false) limit .initial search none)
    {event : Event} (hadm : semantics.Admits props event) {i : Nat} {stage : Stage}
    (hi : search.found.get? i = some stage) (hstep : a.step i (event.label props) = none)
    (rest : Trace) : stage.holds f (event :: rest) = false := by
  obtain ⟨listed, hlisted, hsame⟩ := EventSemantics.exists_mem_events hadm
  have hletter : letterOf f props listed ∈ (ofNnf f props (semantics.events props)).letters :=
    mem_letters.mpr ⟨listed, hlisted, rfl⟩
  cases hs : (ofNnf f props (semantics.events props)).step stage (letterOf f props listed) with
  | some next =>
      obtain ⟨j, -, hmove, -⟩ := hf.covered i (Roster.lt_size_of_get? hi) _ hletter stage next hi hs
      have hedge := (h.step_iff_move hf.valid).mpr ⟨_, hmove, rfl⟩
      rw [letterOf, Event.label_congr hsame, hstep] at hedge
      exact absurd hedge (by simp)
  | none =>
      rw [← Stage.holds_cons_congr hsame,
        ← eval_after props (semantics.events props) listed stage rest]
      refine Dnf.eval_of_isBottom ?_ _
      by_cases hb : ((ofNnf f props (semantics.events props)).after
          (letterOf f props listed) stage).isBottom = true
      · exact hb
      · rw [step_eq_some_iff.mpr ⟨by simpa using hb, rfl⟩] at hs
        exact absurd hs (by simp)

/-- From the state of a stage exactly the traces are accepted that satisfy what is left. -/
theorem BuiltFrom.run_any_isFinal
    (h : (ofNnf f props (semantics.events props)).BuiltFrom search a)
    (hf : Finished (ofNnf f props (semantics.events props)).letters
      (ofNnf f props (semantics.events props)).step (fun _ => false) limit .initial search none)
    {trace : Trace} (hadm : ∀ event ∈ trace, semantics.Admits props event) {i : Nat}
    {stage : Stage} (hi : search.found.get? i = some stage) :
    (a.run i (trace.map (Event.label props))).any a.isFinal = stage.holds f trace := by
  induction trace generalizing i stage with
  | nil =>
      rw [← mayEnd_eq_holds_nil props (semantics.events props)]
      exact h.isFinal_iff_mayEnd hi
  | cons event rest ih =>
      have hevent := hadm event List.mem_cons_self
      rw [List.map_cons, Automaton.run_cons]
      cases hstep : a.step i (event.label props) with
      | none => exact (h.holds_of_step_eq_none hf hevent hi hstep rest).symm
      | some j =>
          obtain ⟨next, hj, hnext⟩ := h.holds_of_step hf.valid hevent hi hstep
          rw [← hnext rest]
          exact ih (fun e he => hadm e (List.mem_cons_of_mem event he)) hj

/-- Every label of the automaton is the label of an event. -/
theorem BuiltFrom.exists_event_of_mem_alphabet
    (h : (ofNnf f props (semantics.events props)).BuiltFrom search a)
    (hv : Valid (ofNnf f props (semantics.events props)).letters
      (ofNnf f props (semantics.events props)).step limit .initial search)
    {label : Label} (hl : label ∈ a.alphabet.toList) :
    ∃ event, semantics.Admits props event ∧ event.label props = label := by
  obtain ⟨tr, htr, rfl⟩ := h.mem_alphabet.mp hl
  obtain ⟨⟨i, letter, j⟩, hmove, rfl⟩ := List.mem_map.mp htr
  obtain ⟨hletter, -⟩ := hv.move_sound i letter j (Array.mem_toList_iff.mp hmove)
  obtain ⟨event, hlisted, rfl⟩ := mem_letters.mp hletter
  exact ⟨event, EventSemantics.admits_of_mem_events hlisted, rfl⟩

end Progression

namespace Compiler

variable {c : Compiler} {f : Formula} {a : Automaton}

/-- The universe of a formula holds the declared propositions and those of the formula. -/
theorem mem_propositions (c : Compiler) (f : Formula) (p : String) :
    p ∈ c.propositions f ↔ p ∈ c.declared ∨ p ∈ f.propositions := by
  rw [propositions, Sorted.mem_distinctStrings, List.mem_append]

/-- The trace of an event sequence is accepted exactly if it satisfies the formula. -/
theorem accepts_map_label (h : c.automaton f = .ok a) {trace : Trace}
    (hadm : ∀ event ∈ trace, c.semantics.Admits (c.propositions f) event) :
    a.accepts (trace.map (Event.label (c.propositions f))) = f.nnf.holds trace := by
  obtain ⟨search, hbuilt, hfinished⟩ := automaton_cases h
  rw [Automaton.accepts_eq_any, hbuilt.initial_eq]
  exact hbuilt.run_any_isFinal hfinished hadm hfinished.valid.found_start

/-- A word with a label of no event is rejected. -/
theorem accepts_eq_false_of_foreign (h : c.automaton f = .ok a) {word : List Label}
    {label : Label} (hm : label ∈ word)
    (hforeign : ∀ event, c.semantics.Admits (c.propositions f) event →
      Event.label (c.propositions f) event ≠ label) : a.accepts word = false := by
  obtain ⟨search, hbuilt, hfinished⟩ := automaton_cases h
  have hrank : a.alphabet.rank? label = none := by
    rw [hbuilt.alphabet_wellFormed.rank?_eq_none_iff]
    intro hl
    obtain ⟨event, hadm, hlabel⟩ := hbuilt.exists_event_of_mem_alphabet hfinished.valid hl
    exact hforeign event hadm hlabel
  rw [Automaton.accepts_eq_any, Automaton.run_eq_none_of_mem hm hrank]
  rfl

/-- Compiled automata are well-formed. -/
theorem wellFormed_of_automaton (h : c.automaton f = .ok a) : a.WellFormed := by
  obtain ⟨search, hbuilt, -⟩ := automaton_cases h
  exact Automaton.Built.wellFormed hbuilt

/-- A text compiles to a well-formed automaton only. -/
theorem wellFormed_of_automatonOfText {text : String} (h : c.automatonOfText text = .ok a) :
    a.WellFormed := by
  unfold automatonOfText at h
  cases hparse : Formula.parse text with
  | error error =>
      rw [hparse] at h
      exact nomatch h
  | ok f =>
      rw [hparse] at h
      exact wellFormed_of_automaton h

/-- The automaton of a formula accepts the labels of the traces that satisfy the formula, the
empty trace included, and no word with a label of no event. -/
theorem automaton_correct (h : c.automaton f = .ok a) :
    (∀ p, p ∈ c.propositions f ↔ p ∈ c.declared ∨ p ∈ f.propositions) ∧
    (∀ trace : Trace, (∀ event ∈ trace, c.semantics.Admits (c.propositions f) event) →
      a.accepts (trace.map (Event.label (c.propositions f))) = f.nnf.holds trace) ∧
    ∀ (word : List Label) (label : Label), label ∈ word →
      (∀ event, c.semantics.Admits (c.propositions f) event →
        Event.label (c.propositions f) event ≠ label) → a.accepts word = false := by
  refine ⟨c.mem_propositions f, ?_, ?_⟩
  · intro trace hadm
    exact accepts_map_label h hadm
  · intro word label hm hforeign
    exact accepts_eq_false_of_foreign h hm hforeign

/-- The automaton of `X a` accepts a trace of two events with `a` in the second, and none of
one event. -/
theorem automaton_correct_next :
    ∃ a, Compiler.automaton { declared := ["b"] } (.unary .next (.prop "a")) = .ok a ∧
      a.accepts ([[], ["a", "b"]].map (Event.label
        (Compiler.propositions { declared := ["b"] } (.unary .next (.prop "a"))))) = true ∧
      a.accepts ([["a"]].map (Event.label
        (Compiler.propositions { declared := ["b"] } (.unary .next (.prop "a"))))) = false := by
  obtain ⟨a, ha⟩ := exists_automaton_next_prop (c := { declared := ["b"] }) "a"
    (decide_eq_true (Nat.le_trans (length_propositions_le _ _) (by decide))) (by decide)
  obtain ⟨huniverse, htrace, -⟩ := automaton_correct ha
  refine ⟨a, ha, ?_, ?_⟩
  · rw [htrace]
    · decide
    · simp [EventSemantics.Admits, huniverse, Formula.propositions, Formula.occurrences,
        Sorted.mem_distinctStrings]
  · rw [htrace]
    · decide
    · simp [EventSemantics.Admits, huniverse, Formula.propositions, Formula.occurrences,
        Sorted.mem_distinctStrings]

end Compiler

end ProcessLogic
