import ProcessLogic.Automaton.Basic
import ProcessLogic.Proofs.Collection.Roster

/-!
# Runs of automata

A word is read label by label, and a missing edge ends the run. A well-formed automaton never
leaves its states, and a label that it does not know is on none of its edges.
-/

namespace ProcessLogic.Automaton

theorem run_cons (a : Automaton) (s : Nat) (label : Label) (word : List Label) :
    a.run s (label :: word) = (a.step s label).bind fun t => a.run t word := rfl

/-- A word is accepted if it leads to an accepting state. -/
theorem accepts_eq_any (a : Automaton) (word : List Label) :
    a.accepts word = (a.run a.initial word).any a.isFinal := by
  unfold accepts
  cases a.run a.initial word <;> rfl

/-- A word is accepted exactly if its run ends in an accepting state. -/
theorem accepts_iff (a : Automaton) (word : List Label) :
    a.accepts word = true ↔ ∃ s, a.run a.initial word = some s ∧ a.isFinal s = true := by
  rw [accepts_eq_any, Option.any_eq_true]

/-- No edge has a label outside the alphabet. -/
theorem step_eq_none_of_rank? {a : Automaton} {label : Label}
    (h : a.alphabet.rank? label = none) (s : Nat) : a.step s label = none := by
  rw [step, h]
  rfl

/-- A word with a label outside the alphabet has no run. -/
theorem run_eq_none_of_mem {a : Automaton} {word : List Label} {label : Label}
    (hm : label ∈ word) (h : a.alphabet.rank? label = none) (s : Nat) :
    a.run s word = none := by
  induction word generalizing s with
  | nil => exact absurd hm (by simp)
  | cons first word ih =>
      rw [run_cons]
      rcases List.mem_cons.mp hm with rfl | hm
      · rw [step_eq_none_of_rank? h]
        rfl
      · cases a.step s first with
        | none => rfl
        | some t => exact ih hm t

namespace WellFormed

/-- A label leads where its place leads. -/
theorem step_of_get? {a : Automaton} (h : a.WellFormed) {l : Nat} {label : Label}
    (hl : a.alphabet.get? l = some label) (s : Nat) : a.step s label = a.stepAt s l := by
  rw [step, h.alphabet_wellFormed.rank?_eq_some_iff.mpr hl]
  rfl

/-- The labels of the edges out of a state are those that lead somewhere, in the order of the
alphabet. -/
theorem labels_edgesFrom {a : Automaton} (h : a.WellFormed) (s : Nat) :
    (a.edgesFrom s).map (·.1) =
      a.alphabet.toList.filter fun label => (a.step s label).isSome := by
  have hplaces : ∀ place ∈ a.alphabet.toList.zipIdx, a.step s place.1 = a.stepAt s place.2 := by
    rintro ⟨label, l⟩ hm
    rw [List.mk_mem_zipIdx_iff_getElem?, Roster.getElem?_toList] at hm
    exact h.step_of_get? hm s
  have hlabels := List.zipIdx_map_fst 0 a.alphabet.toList
  rw [edgesFrom]
  generalize a.alphabet.toList.zipIdx = places at hplaces hlabels
  rw [← hlabels]
  clear hlabels
  induction places with
  | nil => rfl
  | cons place places ih =>
      obtain ⟨hplace, hplaces⟩ := List.forall_mem_cons.mp hplaces
      cases ht : a.stepAt s place.2 <;> simp [ht, hplace, ih hplaces]

/-- An edge leads to a state. -/
theorem stepAt_lt {a : Automaton} (h : a.WellFormed) {s l t : Nat} (he : a.stepAt s l = some t) :
    t < a.size :=
  (h.edge_lt s l t he).2.2

theorem step_lt {a : Automaton} (h : a.WellFormed) {s t : Nat} {label : Label}
    (he : a.step s label = some t) : t < a.size := by
  obtain ⟨l, _, hl⟩ := Option.bind_eq_some_iff.mp he
  exact h.stepAt_lt hl

theorem run_lt {a : Automaton} (h : a.WellFormed) {s t : Nat} {word : List Label}
    (hs : s < a.size) (hr : a.run s word = some t) : t < a.size := by
  induction word generalizing s with
  | nil =>
      obtain rfl := Option.some.inj hr
      exact hs
  | cons label word ih =>
      obtain ⟨r, hr₁, hr₂⟩ := Option.bind_eq_some_iff.mp hr
      exact ih (h.step_lt hr₁) hr₂

end WellFormed

end ProcessLogic.Automaton
