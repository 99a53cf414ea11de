import Std.Data.String.ToNat
import ProcessLogic.Compiler
import ProcessLogic.Proofs.Automaton.Build
import ProcessLogic.Proofs.Event.Label
import ProcessLogic.Proofs.Residual.Progression
import ProcessLogic.Proofs.Search.Outcome

/-!
# The automaton of a formula follows its progression

A stage of a progression stands for the traces that satisfy what is left of the formula. A step
by a letter leads to the stage for the rest of the trace, so a run of the compiled automaton
over the labels of a trace accepts exactly if the trace satisfies the formula.
-/

namespace ProcessLogic

open Search

/-- The nodes of a formula. -/
def Nnf.stored (f : Nnf) : Store := (Store.intern {} f).2

/-- The number of a formula among its own nodes. -/
def Nnf.number (f : Nnf) : Nat := (Store.intern {} f).1

/-- The number of a formula denotes it among its nodes. -/
theorem Nnf.interned (f : Nnf) : Store.Interned {} f (f.number, f.stored) :=
  Store.interned_intern Store.closed_empty f

/-- Whether a trace satisfies what is left of a formula at a stage. -/
noncomputable def Stage.holds (f : Nnf) (trace : Trace) : Stage → Bool
  | .initial => f.holds trace
  | .residual obligations => obligations.eval (Obligation.met trace (f.stored.holds trace))

/-- What a stage asks for depends on the propositions of an event, not on their order. -/
theorem Stage.holds_cons_congr {event event' : Event} (h : ∀ p, p ∈ event ↔ p ∈ event')
    (f : Nnf) (rest : Trace) (stage : Stage) :
    stage.holds f (event :: rest) = stage.holds f (event' :: rest) := by
  cases stage with
  | initial => exact Nnf.holds_cons_congr h rest f
  | residual obligations =>
      have hmet : Obligation.met (event :: rest) (f.stored.holds (event :: rest)) =
          Obligation.met (event' :: rest) (f.stored.holds (event' :: rest)) := by
        funext o
        rw [Obligation.met_cons, Obligation.met_cons, Store.holds_cons_congr h]
      rw [holds, holds, hmet]

namespace Progression

/-- The letter of an event. -/
def letterOf (f : Nnf) (props : List String) (event : Event) : Letter where
  label := event.label props
  progress := ⟨fun _ => Progress.ofStore f.stored event⟩

variable {f : Nnf} {props : List String} {events : List Event}

theorem mem_letters {letter : Letter} : letter ∈ (ofNnf f props events).letters ↔
    ∃ event ∈ events, letterOf f props event = letter :=
  List.mem_map

/-- The first event turns the formula into its obligations. -/
theorem after_initial (event : Event) :
    (ofNnf f props events).after (letterOf f props event) .initial =
      (Progress.ofStore f.stored event).of f.number := rfl

/-- Every further event turns the obligations into their successors. -/
theorem after_residual (event : Event) (obligations : Dnf) :
    (ofNnf f props events).after (letterOf f props event) (.residual obligations) =
      (Progress.ofStore f.stored event).successor obligations := rfl

/-- What is left after an event holds on the rest of a trace exactly if the stage holds before
the event. -/
theorem eval_after (props : List String) (events : List Event) (event : Event) (stage : Stage) (rest : Trace) :
    ((ofNnf f props events).after (letterOf f props event) stage).eval
      (Obligation.met rest (f.stored.holds rest)) = stage.holds f (event :: rest) := by
  cases stage with
  | initial =>
      rw [after_initial, Progress.eval_of f.interned.closed, f.interned.denotes.holds_eq]
      rfl
  | residual obligations =>
      rw [after_residual, Progress.eval_successor f.interned.closed]
      rfl

/-- A trace may end at a stage exactly if the stage holds on the empty trace. -/
theorem mayEnd_eq_holds_nil (props : List String) (events : List Event) (stage : Stage) :
    (ofNnf f props events).mayEnd stage = stage.holds f [] := by
  cases stage with
  | initial => exact f.interned.denotes.holdsOnEmpty_eq f.interned.closed
  | residual obligations => rw [mayEnd, Stage.holds, Obligation.met_nil, Dnf.acceptsEnd_eq_eval]

/-- A stage has the next one on a letter unless nothing can be met any more. -/
theorem step_eq_some_iff {p : Progression} {stage next : Stage} {letter : Letter} :
    p.step stage letter = some next ↔
      (p.after letter stage).isBottom = false ∧ next = .residual (p.after letter stage) := by
  cases h : (p.after letter stage).isBottom with
  | true => simp [step, h]
  | false =>
      simp only [step, h, Bool.false_eq_true, if_false, Option.some.injEq, true_and]
      exact eq_comm

/-- Letters of events that hold the same propositions make the same steps, whatever the universe. -/
theorem step_congr {props' : List String} {events' : List Event} {event event' : Event}
    (h : ∀ p, p ∈ event ↔ p ∈ event') (stage : Stage) :
    (ofNnf f props events).step stage (letterOf f props event) =
      (ofNnf f props' events').step stage (letterOf f props' event') := by
  have hafter : (ofNnf f props events).after (letterOf f props event) stage =
      (ofNnf f props' events').after (letterOf f props' event') stage := by
    cases stage with
    | initial => rw [after_initial, after_initial, Progress.ofStore_congr h]
    | residual obligations => rw [after_residual, after_residual, Progress.ofStore_congr h]
  rw [step, step, hafter]

end Progression

theorem stateNumber_injective {m n : Nat} (h : stateNumber m = stateNumber n) : m = n := by
  simp only [stateNumber, Nat.toString_eq_repr, Nat.repr_inj] at h
  omega

theorem nodup_stateNumbers (n : Nat) : ((List.range n).map stateNumber).Nodup := by
  rw [List.nodup_iff_pairwise_ne, List.pairwise_map]
  refine List.nodup_range.imp fun hne he => hne (stateNumber_injective he)

namespace Progression

/-- The parts of the automaton of a finished search. -/
abbrev BuiltFrom (p : Progression) (search : Search Stage Letter) (a : Automaton) : Prop :=
  Automaton.Built ((List.range search.found.toList.length).map stateNumber)
    (search.moves.toList.map fun (s, letter, t) => ⟨stateNumber s, letter.label, stateNumber t⟩)
    (stateNumber 0)
    (search.found.toList.zipIdx.filterMap fun (stage, n) =>
      if p.mayEnd stage then some (stateNumber n) else none) a

/-- The automaton of a finished search is made of the stages and the moves found. -/
theorem builtFrom_of_automaton {p : Progression} {search : Search Stage Letter} {a : Automaton}
    (h : p.automaton search = .ok a) : p.BuiltFrom search a :=
  Automaton.built_of_build h

section Numbering

variable {p : Progression} {search : Search Stage Letter} {a : Automaton}
  {letters : List Letter} {limit : Nat} {stop : Stage → Bool}

/-- State number `i` has place `i`. -/
theorem BuiltFrom.rank?_iff (h : p.BuiltFrom search a) {n s : Nat} :
    a.states.rank? (stateNumber n) = some s ↔ n = s ∧ n < search.found.size := by
  rw [h.states_eq, Roster.rank?_ofList_of_nodup (nodup_stateNumbers _), List.getElem?_map,
    Option.map_eq_some_iff, Roster.length_toList]
  constructor
  · rintro ⟨m, hm, he⟩
    obtain ⟨hlt, hget⟩ := List.getElem?_eq_some_iff.mp hm
    rw [List.length_range] at hlt
    rw [List.getElem_range] at hget
    obtain rfl := stateNumber_injective he
    omega
  · rintro ⟨rfl, hn⟩
    exact ⟨n, List.getElem?_range hn, rfl⟩

/-- The first stage found is the initial state. -/
theorem BuiltFrom.initial_eq (h : p.BuiltFrom search a) : a.initial = 0 :=
  (h.rank?_iff.mp h.rank_initial).1.symm

/-- A state accepts exactly if a trace may end in its stage. -/
theorem BuiltFrom.isFinal_iff_mayEnd (h : p.BuiltFrom search a) {i : Nat} {stage : Stage}
    (hi : search.found.get? i = some stage) : a.isFinal i = p.mayEnd stage := by
  rw [Bool.eq_iff_iff, h.isFinal_iff]
  constructor
  · rintro ⟨name, hm, hr⟩
    obtain ⟨⟨stage', n⟩, hz, he⟩ := List.mem_filterMap.mp hm
    rw [List.mk_mem_zipIdx_iff_getElem?, Roster.getElem?_toList] at hz
    by_cases hend : p.mayEnd stage' = true
    · simp only [hend, if_true, Option.some.injEq] at he
      rw [← he] at hr
      obtain ⟨rfl, -⟩ := h.rank?_iff.mp hr
      rwa [Option.some.inj (hi.symm.trans hz)]
    · simp [hend] at he
  · intro hend
    refine ⟨stateNumber i, List.mem_filterMap.mpr ⟨(stage, i), ?_, by simp [hend]⟩, ?_⟩
    · rw [List.mk_mem_zipIdx_iff_getElem?, Roster.getElem?_toList]
      exact hi
    · exact h.rank?_iff.mpr ⟨rfl, Roster.lt_size_of_get? hi⟩

/-- The edges of the automaton are the moves of the search. -/
theorem BuiltFrom.step_iff_move (h : p.BuiltFrom search a)
    (hv : Valid letters p.step limit .initial search) {i j : Nat} {label : Label} :
    a.step i label = some j ↔ ∃ letter, (i, letter, j) ∈ search.moves ∧ letter.label = label := by
  rw [h.step_iff]
  constructor
  · rintro ⟨tr, hm, rfl, hs, ht⟩
    obtain ⟨⟨s, letter, t⟩, hmove, rfl⟩ := List.mem_map.mp hm
    obtain ⟨rfl, -⟩ := h.rank?_iff.mp hs
    obtain ⟨rfl, -⟩ := h.rank?_iff.mp ht
    exact ⟨letter, Array.mem_toList_iff.mp hmove, rfl⟩
  · rintro ⟨letter, hmove, rfl⟩
    obtain ⟨-, s, t, hs, ht, -⟩ := hv.move_sound i letter j hmove
    refine ⟨_, List.mem_map.mpr ⟨_, Array.mem_toList_iff.mpr hmove, rfl⟩, rfl, ?_, ?_⟩
    · exact h.rank?_iff.mpr ⟨rfl, Roster.lt_size_of_get? hs⟩
    · exact h.rank?_iff.mpr ⟨rfl, Roster.lt_size_of_get? ht⟩

end Numbering

end Progression

namespace Compiler

variable {c : Compiler} {f : Formula} {a : Automaton}

/-- A formula has the automaton of its search, if its events can be listed and the search is not
refused. -/
theorem automaton_eq_ok_iff : c.automaton f = .ok a ↔
    c.semantics.allows (c.propositions f).length = true ∧ ∃ search stopped,
      run (c.progression f).letters (c.progression f).step (fun _ => false) c.maxStates .initial =
        some (search, stopped) ∧ (c.progression f).automaton search = .ok a := by
  cases hallows : c.semantics.allows (c.propositions f).length with
  | false => simp [automaton, hallows]
  | true =>
      cases hrun : run (c.progression f).letters (c.progression f).step (fun _ => false)
          c.maxStates .initial with
      | none => simp [automaton, hallows, hrun]
      | some result =>
          obtain ⟨search, stopped⟩ := result
          cases hbuild : (c.progression f).automaton search <;>
            simp [automaton, hallows, hrun, hbuild]

/-- What a compiled automaton is made from. -/
theorem automaton_cases (h : c.automaton f = .ok a) :
    ∃ search, (c.progression f).BuiltFrom search a ∧
      Finished (c.progression f).letters (c.progression f).step (fun _ => false) c.maxStates
        .initial search none := by
  obtain ⟨-, search, stopped, hrun, hbuild⟩ := automaton_eq_ok_iff.mp h
  exact ⟨search, Progression.builtFrom_of_automaton hbuild, finished_of_run_unstopped hrun⟩

end Compiler

end ProcessLogic
