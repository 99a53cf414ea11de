import ProcessLogic.Analysis.Oracle
import ProcessLogic.Proofs.Automaton.Reachable
import ProcessLogic.Proofs.Compiler.Correctness
import ProcessLogic.Proofs.Description.RoundTrip

/-!
# What an automaton from the compiler says about traces

The automaton that comes back from the compiler as a description accepts the labels of the traces
that satisfy the formula and no other word. So its emptiness is a question about traces, and so is
whether two of them over one universe have the same language.
-/

namespace ProcessLogic

namespace EventSemantics

/-- A trace all of whose events are events of the semantics over a universe. -/
def AdmitsTrace (semantics : EventSemantics) (props : List String) (trace : Trace) : Prop :=
  ∀ event ∈ trace, semantics.Admits props event

instance (semantics : EventSemantics) (props : List String) (trace : Trace) :
    Decidable (semantics.AdmitsTrace props trace) :=
  inferInstanceAs (Decidable (∀ event ∈ trace, _))

/-- Of a universe only its members matter. -/
theorem admitsTrace_distinctStrings {semantics : EventSemantics} {props : List String}
    {trace : Trace} :
    semantics.AdmitsTrace (Sorted.distinctStrings props) trace ↔
      semantics.AdmitsTrace props trace := by
  simp only [AdmitsTrace, Admits, Sorted.mem_distinctStrings]

/-- Without the propositions outside a universe a trace is one over that universe. Under single
events an event of such a proposition becomes the empty one. -/
theorem AdmitsTrace.map_filter {semantics : EventSemantics} {props : List String} {trace : Trace}
    (h : semantics.AdmitsTrace props trace) (props' : List String) :
    semantics.AdmitsTrace props' (trace.map (List.filter (· ∈ props'))) := by
  intro event hevent
  obtain ⟨whole, hwhole, rfl⟩ := List.mem_map.mp hevent
  obtain ⟨-, hsingle⟩ := h whole hwhole
  refine ⟨fun p hp => of_decide_eq_true (List.mem_filter.mp hp).2, fun hs p hp q hq => ?_⟩
  exact hsingle hs p (List.mem_filter.mp hp).1 q (List.mem_filter.mp hq).1

end EventSemantics

namespace Automaton

/-- The words accepted are the labels of the traces for which `holds` is true. -/
structure Recognizes (a : Automaton) (semantics : EventSemantics) (props : List String)
    (holds : Trace → Bool) : Prop where
  wellFormed : a.WellFormed
  accepts_map_label : ∀ trace, semantics.AdmitsTrace props trace →
    a.accepts (trace.map (Event.label props)) = holds trace
  rejects_foreign : ∀ (word : List Label) (label : Label), label ∈ word →
    (∀ event, semantics.Admits props event → Event.label props event ≠ label) →
      a.accepts word = false

namespace Recognizes

variable {a b : Automaton} {semantics : EventSemantics} {props : List String}
  {holds holds' : Trace → Bool}

/-- A word of labels of events is the word of a trace. -/
theorem exists_trace_of_labels {word : List Label}
    (h : ∀ label ∈ word, ∃ event, semantics.Admits props event ∧ Event.label props event = label) :
    ∃ trace, semantics.AdmitsTrace props trace ∧ trace.map (Event.label props) = word := by
  induction word with
  | nil => exact ⟨[], by simp [EventSemantics.AdmitsTrace], rfl⟩
  | cons label word ih =>
      obtain ⟨event, hadm, rfl⟩ := h label List.mem_cons_self
      obtain ⟨trace, htrace, rfl⟩ := ih fun l hl => h l (List.mem_cons_of_mem _ hl)
      exact ⟨event :: trace, List.forall_mem_cons.mpr ⟨hadm, htrace⟩, rfl⟩

/-- Every word accepted is the word of a trace for which `holds` is true. -/
theorem exists_trace (h : a.Recognizes semantics props holds) {word : List Label}
    (hw : a.accepts word = true) :
    ∃ trace, semantics.AdmitsTrace props trace ∧ trace.map (Event.label props) = word ∧
      holds trace = true := by
  have hlabels : ∀ label ∈ word, ∃ event, semantics.Admits props event ∧
      Event.label props event = label := by
    refine fun label hm => Classical.byContradiction fun hnone => ?_
    have hforeign := h.rejects_foreign word label hm fun event hadm hlabel =>
      hnone ⟨event, hadm, hlabel⟩
    rw [hw] at hforeign
    exact nomatch hforeign
  obtain ⟨trace, htrace, rfl⟩ := exists_trace_of_labels hlabels
  exact ⟨trace, htrace, rfl, (h.accepts_map_label trace htrace).symm.trans hw⟩

/-- The automaton is not empty exactly if `holds` is true for some trace. -/
theorem isEmpty_eq_false_iff (h : a.Recognizes semantics props holds) :
    a.isEmpty = false ↔ ∃ trace, semantics.AdmitsTrace props trace ∧ holds trace = true := by
  rw [h.wellFormed.isEmpty_eq_false_iff]
  constructor
  · rintro ⟨word, hw⟩
    obtain ⟨trace, htrace, -, hholds⟩ := h.exists_trace hw
    exact ⟨trace, htrace, hholds⟩
  · rintro ⟨trace, htrace, hholds⟩
    exact ⟨_, (h.accepts_map_label trace htrace).trans hholds⟩

/-- Over one universe languages differ exactly if they differ on some trace. -/
theorem accepts_eq_iff (ha : a.Recognizes semantics props holds)
    (hb : b.Recognizes semantics props holds') :
    (∀ word, a.accepts word = b.accepts word) ↔
      ∀ trace, semantics.AdmitsTrace props trace → holds trace = holds' trace := by
  constructor
  · intro h trace htrace
    rw [← ha.accepts_map_label trace htrace, h, hb.accepts_map_label trace htrace]
  · intro h word
    rw [Bool.eq_iff_iff]
    constructor
    · intro hw
      obtain ⟨trace, htrace, rfl, hholds⟩ := ha.exists_trace hw
      rw [hb.accepts_map_label trace htrace, ← h trace htrace, hholds]
    · intro hw
      obtain ⟨trace, htrace, rfl, hholds⟩ := hb.exists_trace hw
      rw [ha.accepts_map_label trace htrace, h trace htrace, hholds]

end Recognizes

end Automaton

/-- What a compiler's automaton accepts. -/
theorem Compiler.recognizes_of_automaton {c : Compiler} {f : Formula} {a : Automaton}
    (h : c.automaton f = .ok a) :
    a.Recognizes c.semantics (c.propositions f) fun trace => f.nnf.holds trace where
  wellFormed := wellFormed_of_automaton h
  accepts_map_label _ htrace := accepts_map_label h htrace
  rejects_foreign _ _ hm hforeign := accepts_eq_false_of_foreign h hm hforeign

/-- An automaton that looks the same by name accepts the same. -/
theorem Automaton.Recognizes.of_sameByName {a b : Automaton} {semantics : EventSemantics}
    {props : List String} {holds : Trace → Bool} (h : a.Recognizes semantics props holds)
    (hb : b.WellFormed) (hsame : SameByName a b) : b.Recognizes semantics props holds where
  wellFormed := hb
  accepts_map_label trace htrace := by
    rw [← hsame.accepts_eq h.wellFormed hb, h.accepts_map_label trace htrace]
  rejects_foreign word label hm hforeign := by
    rw [← hsame.accepts_eq h.wellFormed hb, h.rejects_foreign word label hm hforeign]

/-- Compiling a text is compiling the formula it is read as. -/
theorem Compiler.compile_of_parse {c : Compiler} {text : String} {f : Formula}
    (h : Formula.parse text = .ok f) :
    c.compile text = (c.automaton f).map Description.write := by
  simp only [compile, automatonOfText, h]

namespace Oracle

variable {c : Compiler} {text : String} {f : Formula} {a : Automaton} {source : OracleError}

/-- A compiled automaton comes back from its description. -/
theorem exists_automaton_of_compiled (hparse : Formula.parse text = .ok f)
    (hcompile : c.automaton f = .ok a) :
    ∃ b, c.oracle.automaton text = .ok b ∧ b.WellFormed ∧ Automaton.SameByName a b := by
  obtain ⟨b, hb, hwell, hsame⟩ :=
    Description.exists_parse_write (Compiler.wellFormed_of_automaton hcompile)
  have hanswer : c.compile text = .ok (Description.write a) := by
    rw [Compiler.compile_of_parse hparse, hcompile]
    rfl
  refine ⟨b, ?_, hwell, hsame⟩
  simp only [automaton, Compiler.oracle, hanswer, hb]

/-- The compiler as an oracle fails only by refusing to compile: its descriptions are read. -/
theorem automaton_eq_error_iff (hparse : Formula.parse text = .ok f) :
    c.oracle.automaton text = .error source ↔
      ∃ cause, c.automaton f = .error cause ∧ source = .compiler ⟨text, cause.message⟩ := by
  cases hcompile : c.automaton f with
  | ok a =>
      obtain ⟨b, hb, -⟩ := exists_automaton_of_compiled hparse hcompile
      simp [hb]
  | error cause =>
      have hanswer : c.compile text = .error cause := by
        rw [Compiler.compile_of_parse hparse, hcompile]
        rfl
      simp [automaton, Compiler.oracle, hanswer, eq_comm]

/-- An oracle's automaton accepts the traces of the formula. -/
theorem recognizes_of_automaton (hparse : Formula.parse text = .ok f)
    (h : c.oracle.automaton text = .ok a) :
    a.Recognizes c.semantics (c.propositions f) fun trace => f.nnf.holds trace := by
  cases hcompile : c.automaton f with
  | error cause =>
      have herror := (automaton_eq_error_iff hparse).mpr ⟨cause, hcompile, rfl⟩
      rw [h] at herror
      exact nomatch herror
  | ok compiled =>
      obtain ⟨b, hb, hwell, hsame⟩ := exists_automaton_of_compiled hparse hcompile
      obtain rfl := Except.ok.inj (hb.symm.trans h)
      exact (Compiler.recognizes_of_automaton hcompile).of_sameByName hwell hsame

end Oracle

/-- A formula over declared propositions adds none to the universe. -/
theorem Compiler.propositions_of_subset {c : Compiler} {f : Formula}
    (h : ∀ p ∈ f.occurrences, p ∈ c.declared) :
    c.propositions f = Sorted.distinctStrings c.declared := by
  refine Sorted.distinct_congr Sorted.linear_string fun p => ?_
  rw [List.mem_append, Formula.propositions, Sorted.mem_distinctStrings]
  exact ⟨fun hp => hp.elim id (h p), Or.inl⟩

end ProcessLogic
