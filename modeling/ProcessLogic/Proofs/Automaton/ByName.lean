import ProcessLogic.Proofs.Automaton.Build
import ProcessLogic.Proofs.Automaton.Run

/-!
# Automata up to the numbering of states

An automaton is seen through the names of its states: which there are, which is initial, which
are accepting, and to which name a label leads. Automata that look alike accept the same words.
-/

namespace ProcessLogic.Automaton

/-- The name of the successor of a state that is given by name, if there is one. -/
def nextName (a : Automaton) (name : String) (label : Label) : Option String :=
  (a.state? name).bind fun s => (a.step s label).map a.stateName

/-- Whether a name is that of an accepting state. -/
def isFinalName (a : Automaton) (name : String) : Bool := (a.state? name).any a.isFinal

/-- Automata with the same names in the same roles, the same labels and the same steps. -/
structure SameByName (a b : Automaton) : Prop where
  states : ∀ name, name ∈ a.states.toList ↔ name ∈ b.states.toList
  initial : a.stateName a.initial = b.stateName b.initial
  finals : ∀ name, a.isFinalName name = b.isFinalName name
  labels : ∀ label, label ∈ a.alphabet.toList ↔ label ∈ b.alphabet.toList
  next : ∀ name label, a.nextName name label = b.nextName name label

/-- Whether a word is accepted from a state given by name. -/
def acceptsFromName (a : Automaton) (name : String) : List Label → Bool
  | [] => a.isFinalName name
  | label :: word => (a.nextName name label).any fun next => a.acceptsFromName next word

/-- The names listed are those of the states, in order. -/
theorem toList_states (a : Automaton) : a.states.toList = (List.range a.size).map a.stateName := by
  refine List.ext_getElem? fun s => ?_
  rw [Roster.getElem?_toList, List.getElem?_map]
  by_cases hs : s < a.size
  · obtain ⟨name, hname⟩ := Roster.exists_get?_of_lt (r := a.states) hs
    rw [List.getElem?_range hs, Option.map_some, stateName, hname]
    rfl
  · rw [(Roster.get?_eq_none_iff a.states s).mpr (Nat.le_of_not_lt hs),
      List.getElem?_eq_none (by simpa using hs)]
    rfl

theorem mem_states_toList_iff (a : Automaton) (name : String) :
    name ∈ a.states.toList ↔ ∃ s < a.size, a.stateName s = name := by
  simp only [toList_states, List.mem_map, List.mem_range]

namespace WellFormed

variable {a : Automaton}

/-- A state has its name. -/
theorem state?_stateName (h : a.WellFormed) {s : Nat} (hs : s < a.size) :
    a.state? (a.stateName s) = some s := by
  obtain ⟨name, hname⟩ := Roster.exists_get?_of_lt (r := a.states) hs
  rw [state?, stateName, hname, Option.getD_some, h.states_wellFormed.rank?_eq_some_iff]
  exact hname

/-- A name leads to a state of that name. -/
theorem stateName_of_state? (h : a.WellFormed) {s : Nat} {name : String}
    (hs : a.state? name = some s) : a.stateName s = name := by
  rw [stateName, h.states_wellFormed.rank?_eq_some_iff.mp hs]
  rfl

theorem state?_lt (h : a.WellFormed) {s : Nat} {name : String} (hs : a.state? name = some s) :
    s < a.size :=
  Roster.rank?_lt_size h.states_wellFormed hs

/-- No two states have one name. -/
theorem stateName_inj (h : a.WellFormed) {s t : Nat} (hs : s < a.size) (ht : t < a.size)
    (he : a.stateName s = a.stateName t) : s = t := by
  have hplace := h.state?_stateName hs
  rw [he, h.state?_stateName ht] at hplace
  exact (Option.some.inj hplace).symm

/-- Only states have successors. -/
theorem step_source_lt (h : a.WellFormed) {s t : Nat} {label : Label}
    (he : a.step s label = some t) : s < a.size := by
  obtain ⟨l, _, hl⟩ := Option.bind_eq_some_iff.mp he
  exact (h.edge_lt s l t hl).1

/-- A name is that of an accepting state exactly if one of that name is accepting. -/
theorem isFinalName_iff (h : a.WellFormed) {name : String} :
    a.isFinalName name = true ↔ ∃ s < a.size, a.isFinal s = true ∧ a.stateName s = name := by
  rw [isFinalName, Option.any_eq_true]
  constructor
  · rintro ⟨s, hs, hf⟩
    exact ⟨s, h.state?_lt hs, hf, h.stateName_of_state? hs⟩
  · rintro ⟨s, hlt, hf, rfl⟩
    exact ⟨s, h.state?_stateName hlt, hf⟩

/-- A state accepts exactly if its name does. -/
theorem isFinalName_stateName (h : a.WellFormed) {s : Nat} (hs : s < a.size) :
    a.isFinalName (a.stateName s) = a.isFinal s := by
  rw [isFinalName, h.state?_stateName hs]
  rfl

/-- The step of a name is the step of its state. -/
theorem nextName_stateName (h : a.WellFormed) {s : Nat} (hs : s < a.size) (label : Label) :
    a.nextName (a.stateName s) label = (a.step s label).map a.stateName := by
  rw [nextName, h.state?_stateName hs]
  rfl

/-- The steps between names are the steps between states. -/
theorem nextName_iff (h : a.WellFormed) {name next : String} {label : Label} :
    a.nextName name label = some next ↔
      ∃ s t, a.step s label = some t ∧ a.stateName s = name ∧ a.stateName t = next := by
  rw [nextName, Option.bind_eq_some_iff]
  constructor
  · rintro ⟨s, hs, hnext⟩
    obtain ⟨t, ht, hname⟩ := Option.map_eq_some_iff.mp hnext
    exact ⟨s, t, ht, h.stateName_of_state? hs, hname⟩
  · rintro ⟨s, t, ht, rfl, rfl⟩
    exact ⟨s, h.state?_stateName (h.step_source_lt ht), by rw [ht]; rfl⟩

/-- Words are accepted from a state as from its name. -/
theorem run_any_isFinal (h : a.WellFormed) {s : Nat} (hs : s < a.size) (word : List Label) :
    (a.run s word).any a.isFinal = a.acceptsFromName (a.stateName s) word := by
  induction word generalizing s with
  | nil =>
      rw [acceptsFromName, isFinalName, h.state?_stateName hs]
      rfl
  | cons label word ih =>
      rw [run_cons, acceptsFromName, nextName, h.state?_stateName hs, Option.bind_some]
      cases ht : a.step s label with
      | none => rfl
      | some t => exact ih (h.step_lt ht)

/-- Acceptance can be told from the names of the states alone. -/
theorem accepts_eq_acceptsFromName (h : a.WellFormed) (word : List Label) :
    a.accepts word = a.acceptsFromName (a.stateName a.initial) word := by
  rw [accepts_eq_any]
  exact h.run_any_isFinal h.initial_lt word

/-- The transitions listed are the steps between states. -/
theorem mem_transitions_iff (h : a.WellFormed) {s t : Nat} {label : Label} :
    (s, label, t) ∈ a.transitions ↔ a.step s label = some t := by
  simp only [transitions, edgesFrom, List.mem_flatMap, List.mem_map, List.mem_filterMap,
    List.mem_range]
  constructor
  · rintro ⟨s', _, ⟨_, _⟩, ⟨⟨label', l⟩, hl, hstep⟩, he⟩
    obtain ⟨rfl, rfl, rfl⟩ := by simpa using he
    rw [List.mk_mem_zipIdx_iff_getElem?, Roster.getElem?_toList] at hl
    obtain ⟨t', ht, hpair⟩ := Option.map_eq_some_iff.mp hstep
    obtain ⟨rfl, rfl⟩ := Prod.mk.inj hpair
    exact (h.step_of_get? hl s').trans ht
  · intro ht
    obtain ⟨l, hl, he⟩ := Option.bind_eq_some_iff.mp ht
    refine ⟨s, h.step_source_lt ht, (label, t), ⟨(label, l), ?_, ?_⟩, rfl⟩
    · rw [List.mk_mem_zipIdx_iff_getElem?, Roster.getElem?_toList]
      exact h.alphabet_wellFormed.rank?_eq_some_iff.mp hl
    · rw [he]
      rfl

/-- Every label is on a transition. -/
theorem mem_alphabet_iff (h : a.WellFormed) {label : Label} :
    label ∈ a.alphabet.toList ↔ ∃ s t, a.step s label = some t := by
  rw [Roster.mem_toList_iff]
  constructor
  · rintro ⟨l, hl⟩
    obtain ⟨s, t, ht⟩ := h.label_used l (Roster.lt_size_of_get? hl)
    exact ⟨s, t, (h.step_of_get? hl s).trans ht⟩
  · rintro ⟨s, t, ht⟩
    obtain ⟨l, hl, -⟩ := Option.bind_eq_some_iff.mp ht
    exact ⟨l, h.alphabet_wellFormed.rank?_eq_some_iff.mp hl⟩

end WellFormed

namespace Built

variable {states : List String} {transitions : List Transition} {initial : String}
  {finals : List String} {a : Automaton}

/-- The states of an automaton that has been built have the names given for them. -/
theorem mem_states_iff (h : Built states transitions initial finals a) {name : String} :
    name ∈ a.states.toList ↔ name ∈ states := by
  rw [h.states_eq, Roster.mem_ofList]

/-- Its initial state has the name given for it. -/
theorem stateName_initial (h : Built states transitions initial finals a) :
    a.stateName a.initial = initial :=
  h.wellFormed.stateName_of_state? h.rank_initial

/-- The accepting states are the declared ones among those named. -/
theorem isFinalName_iff (h : Built states transitions initial finals a) {name : String} :
    a.isFinalName name = true ↔ name ∈ finals ∧ name ∈ states := by
  rw [isFinalName, Option.any_eq_true]
  constructor
  · rintro ⟨s, hs, hf⟩
    obtain ⟨name', hm, hs'⟩ := (h.isFinal_iff s).mp hf
    have hname : name' = name :=
      (h.wellFormed.stateName_of_state? hs').symm.trans (h.wellFormed.stateName_of_state? hs)
    rw [hname] at hm
    refine ⟨hm, h.mem_states_iff.mp ((Roster.mem_toList_iff _ _).mpr ⟨s, ?_⟩)⟩
    exact h.states_wellFormed.rank?_eq_some_iff.mp hs
  · rintro ⟨hm, hstates⟩
    obtain ⟨s, hs⟩ := (Roster.mem_toList_iff _ _).mp (h.mem_states_iff.mpr hstates)
    have hs' := h.states_wellFormed.rank?_eq_some_iff.mpr hs
    exact ⟨s, hs', (h.isFinal_iff s).mpr ⟨name, hm, hs'⟩⟩

/-- The steps between names are the transitions given. -/
theorem nextName_iff (h : Built states transitions initial finals a) {name next : String}
    {label : Label} :
    a.nextName name label = some next ↔ ⟨name, label, next⟩ ∈ transitions := by
  rw [h.wellFormed.nextName_iff]
  constructor
  · rintro ⟨s, t, hst, rfl, rfl⟩
    obtain ⟨⟨source, label', target⟩, hm, rfl, hs, ht⟩ := h.step_iff.mp hst
    rwa [h.wellFormed.stateName_of_state? hs, h.wellFormed.stateName_of_state? ht]
  · intro hm
    obtain ⟨s, t, hs, ht⟩ := h.declared _ hm
    exact ⟨s, t, h.step_iff.mpr ⟨_, hm, rfl, hs, ht⟩, h.wellFormed.stateName_of_state? hs,
      h.wellFormed.stateName_of_state? ht⟩

end Built

namespace SameByName

variable {a b : Automaton}

theorem symm (h : SameByName a b) : SameByName b a where
  states name := (h.states name).symm
  initial := h.initial.symm
  finals name := (h.finals name).symm
  labels label := (h.labels label).symm
  next name label := (h.next name label).symm

/-- Automata that are the same by name accept the same words from every name. -/
theorem acceptsFromName_eq (h : SameByName a b) (name : String) (word : List Label) :
    a.acceptsFromName name word = b.acceptsFromName name word := by
  induction word generalizing name with
  | nil => exact h.finals name
  | cons label word ih => rw [acceptsFromName, acceptsFromName, h.next, funext ih]

/-- Automata that look alike by name accept the same words. -/
theorem accepts_eq (h : SameByName a b) (ha : a.WellFormed) (hb : b.WellFormed)
    (word : List Label) : a.accepts word = b.accepts word := by
  rw [ha.accepts_eq_acceptsFromName, hb.accepts_eq_acceptsFromName, h.initial,
    h.acceptsFromName_eq]

end SameByName

end ProcessLogic.Automaton
