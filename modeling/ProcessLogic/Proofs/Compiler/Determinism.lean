import ProcessLogic.Proofs.Compiler.Limits
import ProcessLogic.Proofs.Compiler.Correctness
import ProcessLogic.Proofs.Event.Listing
import ProcessLogic.Proofs.Search.Moves

/-!
# Labels never clash

Names are not escaped in labels, and any string may be a name. Still every letter of a formula has
a label of its own, so compilation draws at most one edge from a state for every event, and the
check for two successors on one label never fails.
-/

namespace ProcessLogic

open Search

namespace Automaton

variable {a : Automaton}

/-- Of the edges out of a state at most one has a given label. -/
theorem WellFormed.length_filter_edgesFrom_le (h : a.WellFormed) (s : Nat) (label : Label) :
    ((a.edgesFrom s).filter (·.1 == label)).length ≤ 1 := by
  have hnodup : ((a.edgesFrom s).map (·.1)).Nodup := by
    rw [h.labels_edgesFrom]
    exact h.alphabet_wellFormed.nodup.filter _
  have hcount := List.nodup_iff_count_le_one.mp hnodup label
  rwa [List.count, List.countP_map, List.countP_eq_length_filter] at hcount

end Automaton

namespace Compiler

variable {c : Compiler} {f : Formula} {a : Automaton}

/-- The universe of a formula has no repeats. -/
theorem nodup_propositions (c : Compiler) (f : Formula) : (c.propositions f).Nodup :=
  (Sorted.increasing_distinct Sorted.linear_string _).nodup

/-- The labels of the letters are those of the events. -/
theorem labels_progression (c : Compiler) (f : Formula) :
    (c.progression f).letters.map (·.label) =
      (c.semantics.events (c.propositions f)).map (Event.label (c.propositions f)) :=
  List.map_map

/-- An edge of a compiled automaton has the label of exactly one listed event. -/
theorem existsUnique_event_of_mem_edgesFrom (h : c.automaton f = .ok a) {s : Nat}
    {edge : Label × Nat} (hedge : edge ∈ a.edgesFrom s) :
    ∃! event, event ∈ c.semantics.events (c.propositions f) ∧
      Event.label (c.propositions f) event = edge.1 := by
  obtain ⟨search, hbuilt, hfinished⟩ := automaton_cases h
  have hlabel : edge.1 ∈ (a.edgesFrom s).map (·.1) := List.mem_map_of_mem hedge
  rw [(wellFormed_of_automaton h).labels_edgesFrom] at hlabel
  obtain ⟨event, hadmits, hevent⟩ :=
    hbuilt.exists_event_of_mem_alphabet hfinished.valid (List.mem_filter.mp hlabel).1
  obtain ⟨listed, hlisted, hsame⟩ := EventSemantics.exists_mem_events hadmits
  refine ⟨listed, ⟨hlisted, (Event.label_congr hsame).trans hevent⟩, ?_⟩
  rintro other ⟨hother, hlabel⟩
  exact Event.eq_of_label_eq (c.nodup_propositions f) hother hlisted
    (hlabel.trans ((Event.label_congr hsame).trans hevent).symm)

/-- No two letters of a formula have one label, and different events have different labels,
whatever strings the propositions are. So compilation never fails because parts do not make an
automaton: it draws no two edges from one state with one label, and every edge is that of one
event, of which a state has no other. -/
theorem labels_unambiguous (c : Compiler) (f : Formula) :
    ((c.progression f).letters.map (·.label)).Nodup ∧
    (∀ event ∈ c.semantics.events (c.propositions f),
      ∀ event' ∈ c.semantics.events (c.propositions f),
        Event.label (c.propositions f) event = Event.label (c.propositions f) event' →
          event = event') ∧
    (∀ violation, c.automaton f ≠ .error (.invalid violation)) ∧
    (∀ search stopped, run (c.progression f).letters (c.progression f).step (fun _ => false)
        c.maxStates .initial = some (search, stopped) → (search.drawn (·.label)).Nodup) ∧
    ∀ a, c.automaton f = .ok a → ∀ s,
      (∀ edge ∈ a.edgesFrom s, ∃! event, event ∈ c.semantics.events (c.propositions f) ∧
        Event.label (c.propositions f) event = edge.1) ∧
      ∀ event ∈ c.semantics.events (c.propositions f),
        ((a.edgesFrom s).filter (·.1 == Event.label (c.propositions f) event)).length ≤ 1 := by
  have hprops := c.nodup_propositions f
  have hletters : ((c.progression f).letters.map (·.label)).Nodup := by
    rw [labels_progression]
    exact Event.nodup_labels c.semantics hprops
  refine ⟨hletters, fun _ h _ h' => Event.eq_of_label_eq hprops h h', ?_, ?_, ?_⟩
  · intro violation herror
    rcases automaton_eq_error_iff.mp herror with ⟨-, he⟩ | ⟨-, -, he⟩ <;> exact nomatch he
  · intro search stopped hrun
    exact nodup_drawn_of_run hletters hrun
  · intro a ha s
    refine ⟨fun edge => existsUnique_event_of_mem_edgesFrom ha, fun event _ => ?_⟩
    exact (wellFormed_of_automaton ha).length_filter_edgesFrom_le s _

/-- Names that are empty or hold the signs of labels: the events of two of them differ in their
labels, and the formula has an automaton. -/
theorem labels_unambiguous_signs :
    let c : Compiler := { declared := ["", "~", " & ", "~ & ~"], semantics := .single }
    let f : Formula := .unary .next (.prop "~~")
    Event.label (c.propositions f) ["~"] ≠ Event.label (c.propositions f) ["~ & ~"] ∧
      (∀ violation, c.automaton f ≠ .error (.invalid violation)) ∧
      ∃ a, c.automaton f = .ok a ∧ ((a.edgesFrom 0).filter
        (·.1 == Event.label (c.propositions f) ["~~"])).length ≤ 1 := by
  intro c f
  have hmem : ∀ p ∈ c.declared ++ ["~~"], [p] ∈ c.semantics.events (c.propositions f) := by
    intro p hp
    refine List.mem_append_left _ (List.mem_map_of_mem ((c.mem_propositions f p).mpr ?_))
    exact (List.mem_append.mp hp).imp_right fun h => by
      rw [Formula.propositions, Sorted.mem_distinctStrings]
      exact h
  obtain ⟨-, hlabels, hvalid, -, hedges⟩ := labels_unambiguous c f
  obtain ⟨a, ha⟩ := exists_automaton_next_prop (c := c) "~~" rfl (by decide)
  refine ⟨fun he => ?_, hvalid, a, ha, (hedges a ha 0).2 _ (hmem "~~" (by simp))⟩
  have hsame := hlabels _ (hmem "~" (by simp [c])) _ (hmem "~ & ~" (by simp [c])) he
  exact absurd hsame (by decide)

end Compiler

end ProcessLogic
