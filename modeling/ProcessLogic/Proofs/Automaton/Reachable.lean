import ProcessLogic.Automaton.Reachable
import ProcessLogic.Proofs.Automaton.Run
import ProcessLogic.Proofs.Search.Outcome

/-!
# Reachable states and emptiness

The search for reachable states goes by places of labels, runs go by labels; both lead to the
same states. There are not more states than the search allows, so it is never refused, and an
automaton is found empty exactly if it accepts nothing.
-/

namespace ProcessLogic.Automaton

open Search

namespace WellFormed

variable {a : Automaton}

/-- An edge by the place of a label is an edge by the label. -/
theorem exists_step_of_stepAt (h : a.WellFormed) {s l t : Nat} (he : a.stepAt s l = some t) :
    ∃ label, a.step s label = some t := by
  obtain ⟨-, hl, -⟩ := h.edge_lt s l t he
  obtain ⟨label, hlabel⟩ := Roster.exists_get?_of_lt hl
  exact ⟨label, (h.step_of_get? hlabel s).trans he⟩

/-- A step on a label is a step on the place of the label. -/
theorem exists_stepAt_of_step (h : a.WellFormed) {s t : Nat} {label : Label}
    (he : a.step s label = some t) : ∃ l < a.alphabet.size, a.stepAt s l = some t := by
  obtain ⟨l, -, hl⟩ := Option.bind_eq_some_iff.mp he
  exact ⟨l, (h.edge_lt s l t hl).2.1, hl⟩

/-- A walk of the search is a run on a word of the same length. -/
theorem exists_run_of_walk (h : a.WellFormed) {s t : Nat} {ls : List Nat}
    (hwalk : walk a.stepAt s ls = some t) :
    ∃ word, word.length = ls.length ∧ a.run s word = some t := by
  induction ls generalizing s with
  | nil => exact ⟨[], rfl, hwalk⟩
  | cons l ls ih =>
      rw [walk_cons] at hwalk
      obtain ⟨r, hr, hrest⟩ := Option.bind_eq_some_iff.mp hwalk
      obtain ⟨label, hlabel⟩ := h.exists_step_of_stepAt hr
      obtain ⟨word, hlength, hword⟩ := ih hrest
      refine ⟨label :: word, congrArg (· + 1) hlength, ?_⟩
      rw [run_cons, hlabel]
      exact hword

/-- A run on a word is a walk of the search of the same length. -/
theorem exists_walk_of_run (h : a.WellFormed) {s t : Nat} {word : List Label}
    (hword : a.run s word = some t) :
    ∃ ls, ls.length = word.length ∧ (∀ l ∈ ls, l ∈ List.range a.alphabet.size) ∧
      walk a.stepAt s ls = some t := by
  induction word generalizing s with
  | nil => exact ⟨[], rfl, by simp, hword⟩
  | cons label word ih =>
      rw [run_cons] at hword
      obtain ⟨r, hr, hrest⟩ := Option.bind_eq_some_iff.mp hword
      obtain ⟨l, hl, hstep⟩ := h.exists_stepAt_of_step hr
      obtain ⟨ls, hlength, hls, hwalk⟩ := ih hrest
      refine ⟨l :: ls, congrArg (· + 1) hlength, ?_, ?_⟩
      · exact List.forall_mem_cons.mpr ⟨List.mem_range.mpr hl, hls⟩
      · rw [walk_cons, hstep]
        exact hwalk

/-- The search goes where words lead. -/
theorem reaches_iff (h : a.WellFormed) {s t : Nat} :
    Reaches (List.range a.alphabet.size) a.stepAt s t ↔ ∃ word, a.run s word = some t := by
  constructor
  · rintro ⟨ls, -, hwalk⟩
    obtain ⟨word, -, hword⟩ := h.exists_run_of_walk hwalk
    exact ⟨word, hword⟩
  · rintro ⟨word, hword⟩
    obtain ⟨ls, -, hls, hwalk⟩ := h.exists_walk_of_run hword
    exact ⟨ls, hls, hwalk⟩

/-- There is room for all states in the search for reachable ones. -/
theorem not_exceeds_size (h : a.WellFormed) :
    ¬ Exceeds (List.range a.alphabet.size) a.stepAt a.size a.initial := by
  apply not_exceeds_of_mem (List.range a.size)
  · rw [List.length_range]
    exact Nat.le_max_right 1 a.size
  · intro s hs
    obtain ⟨word, hword⟩ := h.reaches_iff.mp hs
    exact List.mem_range.mpr (h.run_lt h.initial_lt hword)

/-- The reachable states are those that a search finds which is not refused. -/
theorem exists_search_reachable (h : a.WellFormed) : ∃ search : Search Nat Nat,
    Finished (List.range a.alphabet.size) a.stepAt (fun _ => false) a.size a.initial search none ∧
      a.reachable = search.found.toList := by
  rw [reachable]
  cases hrun : Search.run (List.range a.alphabet.size) a.stepAt (fun _ => false) a.size
      a.initial with
  | none => exact absurd (exceeds_of_run hrun) h.not_exceeds_size
  | some result => exact ⟨result.1, finished_of_run_unstopped hrun, rfl⟩

/-- The reachable states are those that words lead to. -/
theorem mem_reachable_iff (h : a.WellFormed) {s : Nat} :
    s ∈ a.reachable ↔ ∃ word, a.run a.initial word = some s := by
  obtain ⟨search, hfinished, hreachable⟩ := h.exists_search_reachable
  rw [hreachable]
  exact hfinished.mem_found_iff.trans h.reaches_iff

/-- An automaton is empty exactly if it accepts no word. -/
theorem isEmpty_eq_false_iff (h : a.WellFormed) :
    a.isEmpty = false ↔ ∃ word, a.accepts word = true := by
  simp only [isEmpty, Bool.not_eq_false', List.any_eq_true, h.mem_reachable_iff, accepts_iff]
  constructor
  · rintro ⟨s, ⟨word, hword⟩, hfinal⟩
    exact ⟨word, s, hword, hfinal⟩
  · rintro ⟨word, s, hword, hfinal⟩
    exact ⟨s, ⟨word, hword⟩, hfinal⟩

end WellFormed

end ProcessLogic.Automaton
