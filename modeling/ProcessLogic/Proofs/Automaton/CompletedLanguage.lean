import ProcessLogic.Proofs.Automaton.ByName
import ProcessLogic.Proofs.Automaton.ByPlace
import ProcessLogic.Proofs.Automaton.Completion

/-!
# What completion keeps and what it adds

A completed automaton has an edge for every state and label. The edges that were missing lead to
the sink, which no word leaves and in which no word is accepted, so the language stays the same.
The sink is the only new state, and there is one only if some edge was missing.
-/

namespace ProcessLogic.Automaton

section Tables

variable {a : Automaton} {extra : List Label} {s l : Nat}

theorem alphabet_complete (a : Automaton) (extra : List Label) :
    (a.complete extra).alphabet = a.alphabet.insertMany extra := by
  cases hcovers : a.covers (a.alphabet.insertMany extra).size with
  | true => rw [complete_of_covers hcovers]
  | false => rw [complete_of_not_covers hcovers]

theorem initial_complete (a : Automaton) (extra : List Label) :
    (a.complete extra).initial = a.initial := by
  cases hcovers : a.covers (a.alphabet.insertMany extra).size with
  | true => rw [complete_of_covers hcovers]
  | false => rw [complete_of_not_covers hcovers]

/-- The sink has the mark that is read for a state that there is not. -/
theorem isFinal_complete (a : Automaton) (extra : List Label) (s : Nat) :
    (a.complete extra).isFinal s = a.isFinal s := by
  cases hcovers : a.covers (a.alphabet.insertMany extra).size with
  | true => rw [complete_of_covers hcovers]; rfl
  | false =>
      rw [complete_of_not_covers hcovers]
      simp only [isFinal, Array.getD_eq_getD_getElem?, Array.getElem?_push]
      split
      · rename_i hsink
        simp [hsink]
      · rfl

/-- Completion keeps all states at their places. -/
theorem extends_states_complete (a : Automaton) (extra : List Label) :
    a.states.Extends (a.complete extra).states := by
  cases hcovers : a.covers (a.alphabet.insertMany extra).size with
  | true =>
      rw [complete_of_covers hcovers]
      exact Roster.Extends.refl _
  | false =>
      rw [complete_of_not_covers hcovers]
      exact Roster.extends_intern _ _

/-- If no edge is missing, all edges stay and none is added. -/
theorem stepAt_complete_of_covers (hcovers : a.covers (a.alphabet.insertMany extra).size = true)
    (s l : Nat) : (a.complete extra).stepAt s l =
      if s < a.size ∧ l < (a.alphabet.insertMany extra).size then
        some ((a.stepAt s l).getD a.size)
      else none := by
  rw [complete_of_covers hcovers, stepAt, getElem?_edgesToSink]

/-- With a sink every missing edge leads there, and so do those of the sink itself. -/
theorem stepAt_complete_of_not_covers
    (hcovers : a.covers (a.alphabet.insertMany extra).size = false) (s l : Nat) :
    (a.complete extra).stepAt s l =
      if s = a.size ∧ l < (a.alphabet.insertMany extra).size then some a.size
      else if s < a.size ∧ l < (a.alphabet.insertMany extra).size then
        some ((a.stepAt s l).getD a.size)
      else none := by
  rw [complete_of_not_covers hcovers, stepAt, getElem?_foldl_insert_range, getElem?_edgesToSink]

/-- The edges of a state that was there before: missing ones lead to the sink. -/
theorem stepAt_complete (hs : s < a.size) (l : Nat) : (a.complete extra).stepAt s l =
    if l < (a.alphabet.insertMany extra).size then some ((a.stepAt s l).getD a.size)
    else none := by
  cases hcovers : a.covers (a.alphabet.insertMany extra).size with
  | true => simp [stepAt_complete_of_covers hcovers, hs]
  | false => simp [stepAt_complete_of_not_covers hcovers, hs, Nat.ne_of_lt hs]

/-- No edge leaves the sink. -/
theorem eq_of_stepAt_complete {t : Nat} (ht : (a.complete extra).stepAt a.size l = some t) :
    t = a.size := by
  cases hcovers : a.covers (a.alphabet.insertMany extra).size with
  | true => simp [stepAt_complete_of_covers hcovers] at ht
  | false =>
      rw [stepAt_complete_of_not_covers hcovers] at ht
      simp only [Nat.lt_irrefl, true_and, false_and, if_false] at ht
      split at ht
      · exact (Option.some.inj ht).symm
      · exact nomatch ht

end Tables

/-- The labels over which an automaton is completed. -/
def completedLabels (a : Automaton) (extra : List Label) : List Label :=
  a.alphabet.toList ++ extra

/-- Completion is over the automaton's own labels and the further ones. -/
theorem mem_completedLabels {a : Automaton} {extra : List Label} {label : Label} :
    label ∈ a.completedLabels extra ↔ label ∈ a.alphabet.toList ∨ label ∈ extra :=
  List.mem_append

/-- Some state has no edge on some label over which the automaton is to be completed. -/
def Lacks (a : Automaton) (extra : List Label) : Prop :=
  ∃ s < a.size, ∃ label ∈ a.completedLabels extra, a.step s label = none

/-- What `a` has stands in `c` at the same places. -/
structure KeptBy (a c : Automaton) : Prop where
  initial : c.initial = a.initial
  names : a.states.Extends c.states
  marks : ∀ s < a.size, c.isFinal s = a.isFinal s
  steps : ∀ s label t, a.step s label = some t → c.step s label = some t

/-- `c` has one state more than `a`. It has a name of its own, no word is accepted in it, and the
edges that are missing in `a`, with its own, lead to it. -/
structure SinkAdded (a : Automaton) (extra : List Label) (c : Automaton) : Prop where
  size_eq : c.size = a.size + 1
  fresh : c.stateName a.size ∉ a.states.toList
  rejecting : c.isFinal a.size = false
  steps : ∀ s ≤ a.size, ∀ label ∈ a.completedLabels extra, a.step s label = none →
    c.step s label = some a.size

namespace WellFormed

variable {a : Automaton} {extra : List Label} {s : Nat} {label : Label}

/-- These are the labels of the completed automaton. -/
theorem mem_alphabet_complete (h : a.WellFormed) :
    label ∈ (a.complete extra).alphabet.toList ↔ label ∈ a.completedLabels extra := by
  rw [alphabet_complete, h.alphabet_wellFormed.mem_insertMany, mem_completedLabels]

/-- Places of the larger alphabet are good for the edges that were there before. -/
theorem step_eq_stepAt (h : a.WellFormed) {l : Nat}
    (hl : (a.alphabet.insertMany extra).rank? label = some l) (s : Nat) :
    a.step s label = a.stepAt s l := by
  have hextends := Roster.extends_insertMany a.alphabet extra
  have hunion := h.alphabet_wellFormed.insertMany extra
  by_cases hm : label ∈ a.alphabet.toList
  · rw [step, ← hextends.rank?_eq h.alphabet_wellFormed hunion hm, hl]
    rfl
  · rw [step_eq_none_of_rank? (h.alphabet_wellFormed.rank?_eq_none_iff.mpr hm)]
    -- an edge at a place of the old alphabet would make `label` an old label
    cases ht : a.stepAt s l with
    | none => rfl
    | some t =>
        obtain ⟨old, hold⟩ := Roster.exists_get?_of_lt (h.edge_lt s l t ht).2.1
        have hsame : old = label :=
          Option.some.inj ((hextends l old hold).symm.trans (hunion.rank?_eq_some_iff.mp hl))
        exact absurd ((Roster.mem_toList_iff _ _).mpr ⟨l, hsame ▸ hold⟩) hm

/-- The steps of a state that was there before. -/
theorem step_complete (h : a.WellFormed) (hs : s < a.size) :
    (a.complete extra).step s label =
      if label ∈ a.completedLabels extra then some ((a.step s label).getD a.size) else none := by
  have hunion := h.alphabet_wellFormed.insertMany extra
  by_cases hm : label ∈ a.completedLabels extra
  · rw [if_pos hm]
    have hlisted := h.mem_alphabet_complete.mpr hm
    rw [alphabet_complete] at hlisted
    obtain ⟨l, hl⟩ := (Roster.mem_toList_iff _ _).mp hlisted
    have hrank := hunion.rank?_eq_some_iff.mpr hl
    rw [step, alphabet_complete, hrank, Option.bind_some, stepAt_complete hs,
      if_pos (Roster.lt_size_of_get? hl), h.step_eq_stepAt hrank]
  · rw [if_neg hm]
    refine step_eq_none_of_rank? ?_ s
    exact (h.complete extra).alphabet_wellFormed.rank?_eq_none_iff.mpr
      fun hlisted => hm (h.mem_alphabet_complete.mp hlisted)

/-- There is no mark beyond the states. -/
theorem isFinal_size (h : a.WellFormed) : a.isFinal a.size = false := by
  have hsize : a.accepting.size = a.size := h.accepting_size
  simp [isFinal, ← hsize]

/-- A word that has met a missing edge is not accepted. -/
theorem run_sink_any_isFinal (h : a.WellFormed) (word : List Label) :
    ((a.complete extra).run a.size word).any (a.complete extra).isFinal = false := by
  induction word with
  | nil => exact (isFinal_complete a extra a.size).trans h.isFinal_size
  | cons label word ih =>
      rw [run_cons]
      cases ht : (a.complete extra).step a.size label with
      | none => rfl
      | some t =>
          obtain ⟨l, -, hl⟩ := Option.bind_eq_some_iff.mp ht
          obtain rfl := eq_of_stepAt_complete hl
          exact ih

/-- Words are accepted from a state as they were before completion. -/
theorem run_complete_any_isFinal (h : a.WellFormed) (hs : s < a.size) (word : List Label) :
    ((a.complete extra).run s word).any (a.complete extra).isFinal =
      (a.run s word).any a.isFinal := by
  induction word generalizing s with
  | nil => exact isFinal_complete a extra s
  | cons label word ih =>
      rw [run_cons, run_cons, h.step_complete hs]
      by_cases hm : label ∈ a.completedLabels extra
      · rw [if_pos hm, Option.bind_some]
        cases ht : a.step s label with
        | none => exact h.run_sink_any_isFinal word
        | some t => exact ih (h.step_lt ht)
      · have hnone : a.step s label = none := by
          refine step_eq_none_of_rank? (h.alphabet_wellFormed.rank?_eq_none_iff.mpr ?_) s
          exact fun hold => hm (mem_completedLabels.mpr (Or.inl hold))
        rw [if_neg hm, hnone]
        rfl

/-- Completion keeps the language, over all words. -/
theorem accepts_complete (h : a.WellFormed) (word : List Label) :
    (a.complete extra).accepts word = a.accepts word := by
  rw [accepts_eq_any, accepts_eq_any, initial_complete]
  exact h.run_complete_any_isFinal h.initial_lt word

/-- Completion keeps the states, marks, labels and edges that there are. -/
theorem keptBy_complete (h : a.WellFormed) : KeptBy a (a.complete extra) where
  initial := initial_complete a extra
  names := extends_states_complete a extra
  marks s _ := isFinal_complete a extra s
  steps s label t ht := by
    have hold := h.mem_alphabet_iff.mpr ⟨s, t, ht⟩
    rw [h.step_complete (h.step_source_lt ht), if_pos (mem_completedLabels.mpr (Or.inl hold)), ht,
      Option.getD_some]

/-- The test of completion for missing edges goes by places. -/
theorem covers_eq_false_iff (h : a.WellFormed) :
    a.covers (a.alphabet.insertMany extra).size = false ↔ a.Lacks extra := by
  have hunion := h.alphabet_wellFormed.insertMany extra
  have hmem : ∀ label, label ∈ (a.alphabet.insertMany extra).toList ↔
      label ∈ a.completedLabels extra := by
    intro label
    rw [← alphabet_complete, h.mem_alphabet_complete]
  constructor
  · intro hcovers
    obtain ⟨⟨s, l⟩, hslot, hnone⟩ := List.all_eq_false.mp hcovers
    obtain ⟨hs, hl⟩ := mem_slots.mp hslot
    obtain ⟨label, hlabel⟩ := Roster.exists_get?_of_lt hl
    refine ⟨s, hs, label, (hmem label).mp ((Roster.mem_toList_iff _ _).mpr ⟨l, hlabel⟩), ?_⟩
    rw [h.step_eq_stepAt (hunion.rank?_eq_some_iff.mpr hlabel)]
    exact Option.not_isSome_iff_eq_none.mp hnone
  · rintro ⟨s, hs, label, hm, hnone⟩
    obtain ⟨l, hl⟩ := (Roster.mem_toList_iff _ _).mp ((hmem label).mpr hm)
    rw [h.step_eq_stepAt (hunion.rank?_eq_some_iff.mpr hl)] at hnone
    refine Bool.eq_false_iff.mpr fun hcovers => ?_
    obtain ⟨t, ht⟩ := covers_iff.mp hcovers s hs l (Roster.lt_size_of_get? hl)
    rw [hnone] at ht
    exact nomatch ht

/-- If some edge is missing, a sink is added. -/
theorem sinkAdded_complete (h : a.WellFormed) (hlacks : a.Lacks extra) :
    SinkAdded a extra (a.complete extra) := by
  have hcovers := h.covers_eq_false_iff.mpr hlacks
  have hfree := rank?_sinkName h
  have hstates : (a.complete extra).states = a.states.insert (freshName a.states "sink") := by
    rw [complete_of_not_covers hcovers]
  constructor
  case size_eq => rw [size, hstates, Roster.size_insert_of_rank?_eq_none hfree, size]
  case fresh =>
      have hname : (a.complete extra).stateName a.size = freshName a.states "sink" := by
        rw [stateName, hstates, Roster.get?_insert_of_rank?_eq_none hfree, size, if_pos rfl,
          Option.getD_some]
      rw [hname]
      exact h.states_wellFormed.rank?_eq_none_iff.mp hfree
  case rejecting => exact (isFinal_complete a extra a.size).trans h.isFinal_size
  case steps =>
      intro s hs label hm hnone
      rcases Nat.lt_or_eq_of_le hs with hs | rfl
      · rw [h.step_complete hs, if_pos hm, hnone, Option.getD_none]
      · obtain ⟨l, hl⟩ := (Roster.mem_toList_iff _ _).mp (h.mem_alphabet_complete.mpr hm)
        have hlt := Roster.lt_size_of_get? hl
        rw [alphabet_complete] at hlt
        rw [(h.complete extra).step_of_get? hl, stepAt_complete_of_not_covers hcovers,
          if_pos ⟨rfl, hlt⟩]

/-- If no edge is missing, no state is added. -/
theorem size_complete_of_not_lacks (h : a.WellFormed) (hlacks : ¬ a.Lacks extra) :
    (a.complete extra).size = a.size := by
  have hcovers : a.covers (a.alphabet.insertMany extra).size = true := by
    rw [← Bool.not_eq_false, h.covers_eq_false_iff]
    exact hlacks
  rw [complete_of_covers hcovers]
  rfl

/-- A completed automaton lacks no edge, not even its sink. -/
theorem exists_step_complete (h : a.WellFormed) (hs : s < (a.complete extra).size)
    (hm : label ∈ a.completedLabels extra) :
    ∃ t < (a.complete extra).size, (a.complete extra).step s label = some t := by
  have hstep : ∃ t, (a.complete extra).step s label = some t := by
    by_cases hlacks : a.Lacks extra
    · have hsink := h.sinkAdded_complete hlacks
      cases ht : a.step s label with
      | none =>
          rw [hsink.size_eq] at hs
          exact ⟨_, hsink.steps s (Nat.le_of_lt_succ hs) label hm ht⟩
      | some t => exact ⟨t, h.keptBy_complete.steps s label t ht⟩
    · rw [h.size_complete_of_not_lacks hlacks] at hs
      exact ⟨_, (h.step_complete hs).trans (if_pos hm)⟩
  obtain ⟨t, ht⟩ := hstep
  exact ⟨t, (h.complete extra).step_lt ht, ht⟩

/-- Nothing is left to complete. -/
theorem not_lacks_complete (h : a.WellFormed) : ¬ (a.complete extra).Lacks extra := by
  rintro ⟨s, hs, label, hm, hnone⟩
  have hm' : label ∈ a.completedLabels extra := by
    rcases mem_completedLabels.mp hm with hm | hm
    · exact h.mem_alphabet_complete.mp hm
    · exact mem_completedLabels.mpr (Or.inr hm)
  obtain ⟨t, -, ht⟩ := h.exists_step_complete hs hm'
  rw [hnone] at ht
  exact nomatch ht

/-- Completion over the same labels a second time does nothing. -/
theorem sameByPlace_complete_complete (h : a.WellFormed) :
    SameByPlace ((a.complete extra).complete extra) (a.complete extra) := by
  have hc := h.complete extra
  have halphabet : (a.complete extra).alphabet.insertMany extra = (a.complete extra).alphabet :=
    hc.alphabet_wellFormed.insertMany_of_subset fun label hm =>
      h.mem_alphabet_complete.mpr (mem_completedLabels.mpr (Or.inr hm))
  have hcovers : (a.complete extra).covers
      ((a.complete extra).alphabet.insertMany extra).size = true := by
    rw [← Bool.not_eq_false, hc.covers_eq_false_iff]
    exact h.not_lacks_complete
  refine ⟨?_, ?_, initial_complete _ extra, ?_, fun s l => ?_⟩
  · rw [complete_of_covers hcovers]
  · rw [alphabet_complete, halphabet]
  · rw [complete_of_covers hcovers]
  · rw [stepAt_complete_of_covers hcovers]
    split
    · rename_i hslot
      obtain ⟨t, ht⟩ := covers_iff.mp hcovers s hslot.1 l hslot.2
      rw [ht, Option.getD_some]
    · rename_i hslot
      rw [halphabet] at hslot
      cases ht : (a.complete extra).stepAt s l with
      | none => rfl
      | some t =>
          obtain ⟨hs, hl, -⟩ := hc.edge_lt s l t ht
          exact absurd ⟨hs, hl⟩ hslot

/-- Completion materializes the sink and changes nothing else. The completed automaton accepts the
same words; every state has a successor on every label of the alphabet and of those added; all
states keep their places, names, marks and edges; the only new state, if some edge was missing and
not otherwise, is a rejecting one with a name of its own; and completing again changes nothing. -/
theorem complete_materializes (h : a.WellFormed) (extra : List Label) :
    (∀ word, (a.complete extra).accepts word = a.accepts word) ∧
    (∀ s < (a.complete extra).size, ∀ label, label ∈ a.alphabet.toList ∨ label ∈ extra →
      ∃ t < (a.complete extra).size, (a.complete extra).step s label = some t) ∧
    KeptBy a (a.complete extra) ∧
    (SinkAdded a extra (a.complete extra) ↔ a.Lacks extra) ∧
    (¬ a.Lacks extra → (a.complete extra).size = a.size) ∧
    SameByPlace ((a.complete extra).complete extra) (a.complete extra) := by
  refine ⟨h.accepts_complete, ?_, h.keptBy_complete, ⟨?_, h.sinkAdded_complete⟩,
    h.size_complete_of_not_lacks, h.sameByPlace_complete_complete⟩
  · intro s hs label hm
    exact h.exists_step_complete hs (mem_completedLabels.mpr hm)
  · intro hsink
    refine Classical.byContradiction fun hlacks => ?_
    have hsize := hsink.size_eq
    rw [h.size_complete_of_not_lacks hlacks] at hsize
    omega

/-- The sink of an automaton with a state called `sink` gets another name. -/
theorem complete_materializes_taken :
    ∃ a, build ["p", "sink"] [⟨"p", "x", "sink"⟩] "p" ["sink"] = .ok a ∧ a.WellFormed ∧
      a.Lacks ["y"] ∧ (a.complete ["y"]).size = 3 ∧
      (a.complete ["y"]).stateName 2 ∉ ["p", "sink"] ∧
      ∀ word, (a.complete ["y"]).accepts word = a.accepts word := by
  have hfits : Fits ["p", "sink"] [⟨"p", "x", "sink"⟩] "p" ["sink"] :=
    ⟨by decide, by decide, by decide, by decide, by decide, by decide⟩
  obtain ⟨a, ha⟩ := exists_build hfits
  have hb := built_of_build ha
  have hstates : a.states.toList = ["p", "sink"] := by
    rw [hb.states_eq]
    exact Roster.toList_ofList_of_nodup (by decide)
  have hsize : a.size = 2 := by
    rw [size, ← Roster.length_toList, hstates]
    rfl
  have hlacks : a.Lacks ["y"] := by
    refine ⟨a.initial, hb.wellFormed.initial_lt, "y", ?_, ?_⟩
    · exact mem_completedLabels.mpr (Or.inr List.mem_cons_self)
    · refine Option.eq_none_iff_forall_ne_some.mpr fun t ht => ?_
      obtain ⟨tr, hm, hlabel, -⟩ := hb.step_iff.mp ht
      obtain rfl := List.mem_singleton.mp hm
      exact absurd hlabel (by decide)
  obtain ⟨haccepts, -, -, hsink, -⟩ := complete_materializes hb.wellFormed ["y"]
  obtain ⟨hcount, hfresh, -, -⟩ := hsink.mpr hlacks
  rw [hsize] at hcount hfresh
  rw [hstates] at hfresh
  exact ⟨a, ha, hb.wellFormed, hlacks, hcount, hfresh, haccepts⟩

end WellFormed

end ProcessLogic.Automaton
