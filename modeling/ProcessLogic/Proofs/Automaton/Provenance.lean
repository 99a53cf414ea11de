import ProcessLogic.Proofs.Automaton.Lookup
import ProcessLogic.Proofs.Compiler.Correctness
import ProcessLogic.Proofs.Description.RoundTrip

/-!
# Where automata come from

Automata are built from parts, read from descriptions, compiled from formulas, universal over some
labels or completed. Whatever is done one after the other, with earlier automata or with their
descriptions, the outcome is well-formed, and no operation on it leaves its tables.
-/

namespace ProcessLogic.Automaton

/-- The automata that a program can come by. -/
inductive Obtained : Automaton → Prop
  | built {states : List String} {transitions : List Transition} {initial : String}
      {finals : List String} {a : Automaton} :
      build states transitions initial finals = .ok a → Obtained a
  | parsed {text : String} {a : Automaton} : Description.parse text = .ok a → Obtained a
  | compiled {c : Compiler} {f : Formula} {a : Automaton} : c.automaton f = .ok a → Obtained a
  | compiledText {c : Compiler} {text : String} {a : Automaton} :
      c.automatonOfText text = .ok a → Obtained a
  | universal (labels : List Label) : Obtained (universal labels)
  | completed {a : Automaton} (extra : List Label) : Obtained a → Obtained (a.complete extra)

variable {a : Automaton}

/-- Every automaton obtained is well-formed: each way to one checks it or keeps it so. -/
theorem Obtained.wellFormed (h : Obtained a) : a.WellFormed := by
  induction h with
  | built hbuild => exact (built_of_build hbuild).wellFormed
  | parsed hparse => exact Description.wellFormed_of_parse hparse
  | compiled hcompile => exact Compiler.wellFormed_of_automaton hcompile
  | compiledText hcompile => exact Compiler.wellFormed_of_automatonOfText hcompile
  | universal labels => exact wellFormed_universal labels
  | completed extra _ ih => exact ih.complete extra

/-- Every automaton obtained has a state; its states have different names, of which none is the
marker of the initial state; its initial state is one of them; every state has one mark; edges are
between states and have labels of the alphabet; and every label of the alphabet is on some edge.
Hence no operation on it, and no comparison with another, looks up what is not there. -/
theorem Obtained.representation_invariant (h : Obtained a) :
    0 < a.size ∧ a.states.toList.Nodup ∧ initialMarker ∉ a.states.toList ∧ a.initial < a.size ∧
    a.accepting.size = a.size ∧
    (∀ s l t, a.edges[(s, l)]? = some t → s < a.size ∧ l < a.alphabet.size ∧ t < a.size) ∧
    (∀ label ∈ a.alphabet.toList, ∃ s t, (s, label, t) ∈ a.transitions) ∧
    a.LookupsInRange ∧ ∀ b, Obtained b → ComparisonInRange a b := by
  have hwell := h.wellFormed
  have hmarker : initialMarker ∉ a.states.toList := by
    rw [← hwell.states_wellFormed.contains_iff, hwell.marker_free]
    exact Bool.false_ne_true
  refine ⟨Nat.zero_lt_of_lt hwell.initial_lt, hwell.states_wellFormed.nodup, hmarker,
    hwell.initial_lt, hwell.accepting_size, hwell.edge_lt, ?_, hwell.lookupsInRange, ?_⟩
  · intro label hlabel
    obtain ⟨s, t, hstep⟩ := hwell.mem_alphabet_iff.mp hlabel
    exact ⟨s, t, hwell.mem_transitions_iff.mpr hstep⟩
  · intro b hb
    exact hwell.comparisonInRange hb.wellFormed

/-- The universal automaton over one label, completed for another, written and read back. -/
theorem Obtained.representation_invariant_readBack : ∃ a,
    Description.parse (Description.write ((Automaton.universal ["x"]).complete ["y"])) = .ok a ∧
      0 < a.size ∧ a.LookupsInRange ∧
      ComparisonInRange a ((Automaton.universal ["x"]).complete ["y"]) := by
  have hcompleted : Obtained ((Automaton.universal ["x"]).complete ["y"]) :=
    .completed ["y"] (.universal ["x"])
  obtain ⟨a, hread, -⟩ := Description.exists_parse_write hcompleted.wellFormed
  obtain ⟨hpos, -, -, -, -, -, -, hlookups, hcompare⟩ :=
    Obtained.representation_invariant (.parsed hread)
  exact ⟨a, hread, hpos, hlookups, hcompare _ hcompleted⟩

end ProcessLogic.Automaton
