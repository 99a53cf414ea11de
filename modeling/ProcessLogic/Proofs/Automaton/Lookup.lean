import ProcessLogic.Description.Writer
import ProcessLogic.Proofs.Automaton.ByName
import ProcessLogic.Proofs.Automaton.Completion
import ProcessLogic.Proofs.Automaton.Equivalence
import ProcessLogic.Proofs.Automaton.Reachable

/-!
# Lookups stay in range

Marks and names of states are looked up by place, with a value to fall back on. Here the same
operations are written with lookups that fail out of range. On a well-formed automaton they never
fail, so no operation ever falls back.
-/

namespace ProcessLogic

namespace Automaton

/-- The mark of a state, if there is that state. -/
def mark? (a : Automaton) (s : Nat) : Option Bool := a.accepting[s]?

/-- The name of a state, if there is that state. -/
def name? (a : Automaton) (s : Nat) : Option String := a.states.get? s

/-- Whether a word is accepted, if the state that it leads to has a mark. -/
def accepts? (a : Automaton) (word : List Label) : Option Bool :=
  match a.run a.initial word with
  | some s => a.mark? s
  | none => some false

/-- The states of one mark, if all states have marks. -/
def statesMarked? (a : Automaton) (mark : Bool) : Option (List Nat) := do
  let marked ← (List.range a.size).mapM fun s => (a.mark? s).map (s, ·)
  return (marked.filter (·.2 == mark)).map (·.1)

/-- Whether exactly one side accepts, if both states have marks. -/
def separates? (a b : Automaton) (pair : Pair) : Option Bool := do
  let left ← pair.1.elim (some false) a.mark?
  let right ← pair.2.elim (some false) b.mark?
  return left != right

end Automaton

namespace Description

/-- The line of an edge, if both its ends have names. -/
def edgeLine? (a : Automaton) : Nat × Label × Nat → Option String
  | (s, label, t) => do return edgeLine (← a.name? s) label (← a.name? t)

/-- The description of an automaton, if all states in it have names and marks. -/
def write? (a : Automaton) : Option String := do
  let finals ← (← a.statesMarked? true).mapM a.name?
  let others ← (← a.statesMarked? false).mapM a.name?
  let initial ← a.name? a.initial
  let edges ← a.transitions.mapM (edgeLine? a)
  return heading ++ shapeLine "doublecircle" finals ++ shapeLine "circle" others ++
    " init [shape = plaintext, label = \"\"];\n" ++ " init -> " ++ writeName initial ++ ";\n" ++
    String.join edges ++ "\x7d\n"

end Description

namespace Automaton

open Search

variable {a b : Automaton}

theorem name?_eq_of_lt {s : Nat} (hs : s < a.size) : a.name? s = some (a.stateName s) := by
  obtain ⟨name, hname⟩ := Roster.exists_get?_of_lt hs
  rw [name?, stateName, hname, Option.getD_some]

namespace WellFormed

theorem mark?_eq (h : a.WellFormed) {s : Nat} (hs : s < a.size) :
    a.mark? s = some (a.isFinal s) := by
  have hlt : s < a.accepting.size := by
    rw [h.accepting_size]
    exact hs
  simp [mark?, isFinal, hlt]

/-- Reading a word never looks up a mark that there is not. -/
theorem accepts?_eq (h : a.WellFormed) (word : List Label) :
    a.accepts? word = some (a.accepts word) := by
  rw [accepts?, accepts]
  cases hrun : a.run a.initial word with
  | none => rfl
  | some s => exact h.mark?_eq (h.run_lt h.initial_lt hrun)

/-- Listing the states of a mark never looks up a mark that there is not. -/
theorem statesMarked?_eq (h : a.WellFormed) (mark : Bool) :
    a.statesMarked? mark = some ((List.range a.size).filter (a.isFinal · == mark)) := by
  have hmarks : (List.range a.size).mapM (fun s => (a.mark? s).map (s, ·)) =
      some ((List.range a.size).map fun s => (s, a.isFinal s)) := by
    refine Fold.mapM_eq_some_of_forall fun s hs => ?_
    rw [h.mark?_eq (List.mem_range.mp hs)]
    rfl
  simp only [statesMarked?, hmarks, Option.bind_eq_bind, Option.bind_some, Option.pure_def,
    List.filter_map, List.map_map]
  exact congrArg some (List.map_id _)

/-- Edges are between states. -/
theorem lt_of_mem_transitions (h : a.WellFormed) {s t : Nat} {label : Label}
    (hm : (s, label, t) ∈ a.transitions) :
    s < a.size ∧ label ∈ a.alphabet.toList ∧ t < a.size := by
  have hstep := h.mem_transitions_iff.mp hm
  exact ⟨h.step_source_lt hstep, h.mem_alphabet_iff.mpr ⟨s, t, hstep⟩, h.step_lt hstep⟩

/-- Writing an automaton never looks up a name or a mark that there is not. -/
theorem write?_eq (h : a.WellFormed) : Description.write? a = some (Description.write a) := by
  have hnames : ∀ mark : Bool, ((List.range a.size).filter (a.isFinal · == mark)).mapM a.name? =
      some (((List.range a.size).filter (a.isFinal · == mark)).map a.stateName) := by
    refine fun mark => Fold.mapM_eq_some_of_forall fun s hs => name?_eq_of_lt ?_
    exact List.mem_range.mp (List.mem_filter.mp hs).1
  have hedges : a.transitions.mapM (Description.edgeLine? a) =
      some (a.transitions.map fun (s, label, t) =>
        Description.edgeLine (a.stateName s) label (a.stateName t)) := by
    refine Fold.mapM_eq_some_of_forall fun (s, label, t) hm => ?_
    obtain ⟨hs, -, ht⟩ := h.lt_of_mem_transitions hm
    rw [Description.edgeLine?, name?_eq_of_lt hs, name?_eq_of_lt ht]
    rfl
  simp only [Description.write?, h.statesMarked?_eq, hnames, hedges, name?_eq_of_lt h.initial_lt,
    Option.bind_eq_bind, Option.bind_some, Option.pure_def]
  simp [Description.write]

/-- A search for reachable states meets only states, and looks up only states after them. -/
theorem lt_of_mem_reachable (h : a.WellFormed) {s : Nat} (hs : s ∈ a.reachable) : s < a.size := by
  obtain ⟨word, hword⟩ := h.mem_reachable_iff.mp hs
  exact h.run_lt h.initial_lt hword

/-- Both sides of a pair that the comparison meets are states with marks, or sinks. -/
theorem separates?_eq (ha : a.WellFormed) (hb : b.WellFormed) {pair : Pair}
    (h : Reaches (jointLabels a b) (pairStep a b) (some a.initial, some b.initial) pair) :
    separates? a b pair = some (separates a b pair) := by
  obtain ⟨letters, hletters, hwalk⟩ := h
  have hpair := pairRun_of_walk ha.alphabet_wellFormed hletters hwalk
  have hmark : ∀ {c : Automaton}, c.WellFormed → ∀ word : List Label,
      (c.run c.initial word).elim (some false) c.mark? =
        some (c.acceptsAt (c.run c.initial word)) := by
    intro c hc word
    cases hrun : c.run c.initial word with
    | none => rfl
    | some s => exact hc.mark?_eq (hc.run_lt hc.initial_lt hrun)
  obtain rfl := hpair
  simp only [separates?, separates, pairRun, Option.bind_some, hmark ha, hmark hb,
    Option.bind_eq_bind, Option.pure_def]

end WellFormed

/-- No operation on an automaton looks up a state that there is not. -/
structure LookupsInRange (a : Automaton) : Prop where
  accepts : ∀ word, a.accepts? word = some (a.accepts word)
  finals : a.statesMarked? true = some a.finals
  write : Description.write? a = some (Description.write a)
  transitions : ∀ s label t, (s, label, t) ∈ a.transitions →
    s < a.size ∧ label ∈ a.alphabet.toList ∧ t < a.size
  reachable : ∀ s ∈ a.reachable, s < a.size ∧ ∀ l t, a.stepAt s l = some t → t < a.size
  complete : ∀ extra s l t, (a.complete extra).stepAt s l = some t →
    s < (a.complete extra).size ∧ l < (a.complete extra).alphabet.size ∧
      t < (a.complete extra).size

/-- A comparison looks up labels where they stand, marks of states only, and the trail of a pair
that it has found. -/
structure ComparisonInRange (a b : Automaton) : Prop where
  left : ∀ letter ∈ jointLabels a b, ∀ l, letter.left = some l →
    a.alphabet.get? l = some letter.label
  right : ∀ letter ∈ jointLabels a b, ∀ l, letter.right = some l →
    b.alphabet.get? l = some letter.label
  marks : ∀ pair,
    Reaches (jointLabels a b) (pairStep a b) (some a.initial, some b.initial) pair →
      separates? a b pair = some (separates a b pair)
  trail : ∀ search rank,
    Search.run (jointLabels a b) (pairStep a b) (separates a b) ((a.size + 1) * (b.size + 1))
        (some a.initial, some b.initial) = some (search, some rank) →
      ∃ trail, search.trails[rank]? = some trail

/-- All lookups in a well-formed automaton are in range. -/
theorem WellFormed.lookupsInRange {a : Automaton} (h : a.WellFormed) : a.LookupsInRange where
  accepts := h.accepts?_eq
  finals := by
    rw [h.statesMarked?_eq, finals]
    simp
  write := h.write?_eq
  transitions _ _ _ := h.lt_of_mem_transitions
  reachable _ hs := ⟨h.lt_of_mem_reachable hs, fun _ _ => h.stepAt_lt⟩
  complete extra s l t := (h.complete extra).edge_lt s l t

/-- All lookups in a comparison of well-formed automata are in range. -/
theorem WellFormed.comparisonInRange {a b : Automaton} (ha : a.WellFormed) (hb : b.WellFormed) :
    ComparisonInRange a b where
  left letter hletter l hl := by
    obtain ⟨-, hleft, -⟩ := (mem_jointLabels ha.alphabet_wellFormed).mp hletter
    exact ha.alphabet_wellFormed.rank?_eq_some_iff.mp (hleft.symm.trans hl)
  right letter hletter l hl := by
    obtain ⟨-, -, hright⟩ := (mem_jointLabels ha.alphabet_wellFormed).mp hletter
    exact hb.alphabet_wellFormed.rank?_eq_some_iff.mp (hright.symm.trans hl)
  marks _ := ha.separates?_eq hb
  trail search rank hrun := by
    have hfinished := finished_of_run hrun
    obtain ⟨pair, hpair, -⟩ := hfinished.stopped_at rank rfl
    have hlt : rank < search.trails.size := by
      rw [hfinished.valid.trails_size]
      exact Roster.lt_size_of_get? hpair
    exact ⟨_, Array.getElem?_eq_getElem hlt⟩

end Automaton

end ProcessLogic
