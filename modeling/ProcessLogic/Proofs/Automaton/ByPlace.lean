import ProcessLogic.Proofs.Automaton.ByName

/-!
# Automata with the same places

The edges of an automaton are kept in a table whose inner shape depends on the order in which they
were entered. Automata that agree on all lookups are the same for every reader. Automata that look
alike by name agree on all lookups if their states and labels stand in the same order.
-/

namespace ProcessLogic.Automaton

variable {a b : Automaton}

/-- Automata with the same states, labels, marks and edges at the same places. -/
structure SameByPlace (a b : Automaton) : Prop where
  states : a.states.toList = b.states.toList
  alphabet : a.alphabet.toList = b.alphabet.toList
  initial : a.initial = b.initial
  accepting : a.accepting = b.accepting
  stepAt : ∀ s l, a.stepAt s l = b.stepAt s l

theorem size_congr (h : a.states.toList = b.states.toList) : a.size = b.size := by
  rw [size, size, ← Roster.length_toList, ← Roster.length_toList, h]

theorem stateName_congr (h : a.states.toList = b.states.toList) (s : Nat) :
    a.stateName s = b.stateName s := by
  rw [stateName, stateName, ← Roster.getElem?_toList, ← Roster.getElem?_toList, h]

namespace SameByPlace

theorem refl (a : Automaton) : SameByPlace a a := ⟨rfl, rfl, rfl, rfl, fun _ _ => rfl⟩

theorem isFinal_eq (h : SameByPlace a b) (s : Nat) : a.isFinal s = b.isFinal s := by
  rw [isFinal, isFinal, h.accepting]

/-- Automata that are the same by place have the same transitions, listed in one order. -/
theorem transitions_eq (h : SameByPlace a b) : a.transitions = b.transitions := by
  have hedges : a.edgesFrom = b.edgesFrom := by
    funext s
    simp only [edgesFrom, h.alphabet, h.stepAt]
  rw [transitions, transitions, size_congr h.states, hedges]

end SameByPlace

namespace SameByName

section Places

variable (h : SameByName a b) (ha : a.WellFormed) (hb : b.WellFormed)
  (hstates : a.states.toList = b.states.toList)
include h ha hb hstates

/-- Sameness by name keeps the initial state where the names stand in one order. -/
theorem initial_eq : a.initial = b.initial := by
  refine hb.stateName_inj ?_ hb.initial_lt ?_
  · have hlt := ha.initial_lt
    rwa [← size, size_congr hstates] at hlt
  · rw [← stateName_congr hstates, h.initial]

/-- It keeps the marks of all places there. -/
theorem accepting_eq : a.accepting = b.accepting := by
  have hsize : a.accepting.size = a.size := ha.accepting_size
  have hsize' : b.accepting.size = b.size := hb.accepting_size
  refine Array.ext ?_ fun s hs hs' => ?_
  · rw [hsize, hsize', size_congr hstates]
  · have hfinal := h.finals (a.stateName s)
    rw [ha.isFinalName_stateName (hsize ▸ hs), stateName_congr hstates,
      hb.isFinalName_stateName (hsize' ▸ hs')] at hfinal
    simpa [isFinal, hs, hs'] using hfinal

/-- An edge of the one automaton is an edge of the other. -/
theorem stepAt_of_stepAt (halphabet : a.alphabet.toList = b.alphabet.toList) {s l t : Nat}
    (he : a.stepAt s l = some t) : b.stepAt s l = some t := by
  obtain ⟨hs, hl, ht⟩ := ha.edge_lt s l t he
  rw [← size, size_congr hstates] at hs ht
  obtain ⟨label, hlabel⟩ := Roster.exists_get?_of_lt hl
  have hlabel' : b.alphabet.get? l = some label := by
    rw [← Roster.getElem?_toList, ← halphabet, Roster.getElem?_toList, hlabel]
  have hnext : b.nextName (b.stateName s) label = some (b.stateName t) := by
    rw [← h.next, ← stateName_congr hstates, ← stateName_congr hstates, ha.nextName_iff]
    exact ⟨s, t, (ha.step_of_get? hlabel s).trans he, rfl, rfl⟩
  rw [hb.nextName_stateName hs, hb.step_of_get? hlabel'] at hnext
  obtain ⟨t', ht', hname⟩ := Option.map_eq_some_iff.mp hnext
  rwa [hb.stateName_inj (hb.stepAt_lt ht') ht hname] at ht'

end Places

/-- Automata that look alike by name are the same if their states and labels stand in the same
order. -/
theorem sameByPlace (h : SameByName a b) (ha : a.WellFormed) (hb : b.WellFormed)
    (hstates : a.states.toList = b.states.toList)
    (halphabet : a.alphabet.toList = b.alphabet.toList) : SameByPlace a b where
  states := hstates
  alphabet := halphabet
  initial := h.initial_eq ha hb hstates
  accepting := h.accepting_eq ha hb hstates
  stepAt s l := by
    ext t
    exact ⟨h.stepAt_of_stepAt ha hb hstates halphabet,
      h.symm.stepAt_of_stepAt hb ha hstates.symm halphabet.symm⟩

end SameByName

end ProcessLogic.Automaton
