import Mathlib.Data.List.Induction
import ProcessLogic.Proofs.Automaton.ByName
import ProcessLogic.Proofs.Description.Reader

/-!
# What a list of statements means

The reader goes through the statements with a default shape that changes on the way, and builds an
automaton of the parts collected. Which lists make an automaton, and which, can be said of the list
as a whole, without any order but that of default shapes and nodes.
-/

namespace ProcessLogic.Description

open Automaton

namespace Statement

variable {statement : Statement} {name : String}

/-- The names in a node statement or an edge. -/
def names : Statement → List String
  | .node name _ => [name]
  | .edge source target _ _ => [source, target]
  | _ => []

/-- The shape that a statement sets for the nodes after it. -/
def defaultShape? : Statement → Option String
  | .nodeDefaults attributes => attribute? attributes "shape"
  | _ => none

/-- All names but that of the marker are declared. -/
theorem mem_declared_iff (hname : name ≠ initialMarker) :
    name ∈ statement.declared ↔ name ∈ statement.names := by
  cases statement with
  | node other attributes =>
      by_cases hother : other = initialMarker
      · simp [declared, names, hother, hname]
      · simp [declared, names, hother]
  | edge source target attributes start =>
      by_cases hsource : source = initialMarker
      · simp [declared, names, hsource, hname]
      · simp [declared, names, hsource]
  | nodeDefaults | noEffect => rfl

/-- The name of the marker is declared by an edge to it only. -/
theorem marker_mem_declared_iff : initialMarker ∈ statement.declared ↔
    ∃ source attributes start, statement = .edge source initialMarker attributes start := by
  cases statement with
  | node other attributes =>
      by_cases hother : other = initialMarker
      · simp [declared, hother]
      · simp [declared, hother, Ne.symm hother]
  | edge source target attributes start =>
      by_cases hsource : source = initialMarker
      · simp [declared, hsource, eq_comm]
      · simp [declared, hsource, Ne.symm hsource, eq_comm]
  | nodeDefaults | noEffect => simp [declared]

/-- A statement declares an accepting state if it is a node of that shape. -/
theorem final?_eq_some_iff {shape : Option String} : statement.final? shape = some name ↔
    name ≠ initialMarker ∧ ∃ attributes, statement = .node name attributes ∧
      (attribute? attributes "shape" <|> shape) = some finalShape := by
  cases statement with
  | node other attributes =>
      by_cases hother : other = initialMarker
      · simp only [final?, hother, if_true, node.injEq]
        constructor
        · intro h
          cases h
        · rintro ⟨hname, _, ⟨rfl, -⟩, -⟩
          exact absurd rfl hname
      · simp only [final?, hother, if_false, Option.ite_none_right_eq_some, Option.some.injEq,
          node.injEq]
        constructor
        · rintro ⟨hshape, rfl⟩
          exact ⟨hother, attributes, ⟨rfl, rfl⟩, hshape⟩
        · rintro ⟨-, _, ⟨rfl, rfl⟩, hshape⟩
          exact ⟨hshape, rfl⟩
  | nodeDefaults | edge | noEffect => simp [final?]

/-- A statement draws a transition if it is an edge with a label that is no marker. -/
theorem transition?_eq_some_iff {tr : Transition} : statement.transition? = some tr ↔
    tr.source ≠ initialMarker ∧ ∃ attributes start,
      statement = .edge tr.source tr.target attributes start ∧
        attribute? attributes "label" = some tr.label := by
  obtain ⟨from_, label, to_⟩ := tr
  cases statement with
  | edge source target attributes start =>
      by_cases hsource : source = initialMarker
      · simp only [transition?, hsource, if_true, edge.injEq]
        constructor
        · intro h
          cases h
        · rintro ⟨hname, _, _, ⟨rfl, -⟩, -⟩
          exact absurd rfl hname
      · simp only [transition?, hsource, if_false, Option.map_eq_some_iff, Transition.mk.injEq,
          edge.injEq]
        constructor
        · rintro ⟨_, hlabel, rfl, rfl, rfl⟩
          exact ⟨hsource, attributes, start, ⟨rfl, rfl, rfl, rfl⟩, hlabel⟩
        · rintro ⟨-, _, _, ⟨rfl, rfl, rfl, rfl⟩, hlabel⟩
          exact ⟨label, hlabel, rfl, rfl, rfl⟩
  | nodeDefaults | node | noEffect => simp [transition?]

/-- A marked state is declared with its marker. -/
theorem mem_declared_of_marked? (h : statement.marked? = some name) :
    name ∈ statement.declared := by
  cases statement with
  | edge source target attributes start =>
      by_cases hsource : source = initialMarker
      · simp only [marked?, hsource, if_true, Option.some.injEq] at h
        simp [declared, hsource, h]
      · simp [marked?, hsource] at h
  | nodeDefaults | node | noEffect => cases h

end Statement

/-- An edge has the given ends and, by its last label attribute, the given label. -/
def Draws (statements : List Statement) (source : String) (label : Label) (target : String) :
    Prop :=
  ∃ attributes start, .edge source target attributes start ∈ statements ∧
    attribute? attributes "label" = some label

/-- A node statement for the name has the shape of accepting states: its own last shape, or else
that of the last statement before it that sets one for nodes. -/
def Accepts (statements : List Statement) (name : String) : Prop :=
  ∃ before attributes after, statements = before ++ .node name attributes :: after ∧
    (attribute? attributes "shape" <|> (before.filterMap Statement.defaultShape?).getLast?) =
      some finalShape

/-- The statements make an automaton: exactly one edge is a marker, every other edge has a label, no
edge leads to the marker, and no two edges have one source and one label but different targets. -/
structure Readable (statements : List Statement) : Prop where
  marker : ∃ target, statements.filterMap Statement.marked? = [target]
  labelled : ∀ statement ∈ statements, statement.Labelled
  target_ne : ∀ source target attributes start,
    .edge source target attributes start ∈ statements → target ≠ initialMarker
  deterministic : ∀ source label target target', source ≠ initialMarker →
    Draws statements source label target → Draws statements source label target' →
      target = target'

/-- The statements describe the automaton: its states are the names in node statements and edges
but for that of the marker, the edge out of the marker leads to the initial state, and accepting
states and steps are those of the statements. -/
structure Describes (statements : List Statement) (a : Automaton) : Prop where
  states : ∀ name, name ∈ a.states.toList ↔
    name ≠ initialMarker ∧ ∃ statement ∈ statements, name ∈ statement.names
  initial : statements.filterMap Statement.marked? = [a.stateName a.initial]
  finals : ∀ name, a.isFinalName name = true ↔ name ≠ initialMarker ∧ Accepts statements name
  next : ∀ source label target, a.nextName source label = some target ↔
    source ≠ initialMarker ∧ Draws statements source label target

section Defaults

variable {statements : List Statement} {name : String}

/-- The default shape is the last that was set. -/
theorem shapeAfter_none (statements : List Statement) :
    shapeAfter none statements = (statements.filterMap Statement.defaultShape?).getLast? := by
  induction statements using List.reverseRecOn with
  | nil => rfl
  | append_singleton before statement ih =>
      have hstep : shapeAfter none (before ++ [statement]) =
          statement.shapeAfter (shapeAfter none before) := by
        rw [shapeAfter, List.foldl_append]
        rfl
      rw [hstep, ih, List.filterMap_append]
      cases statement with
      | nodeDefaults attributes =>
          cases hshape : attribute? attributes "shape" <;>
            simp [Statement.shapeAfter, Statement.defaultShape?, hshape]
      | node | edge | noEffect => simp [Statement.shapeAfter, Statement.defaultShape?]

/-- A name accepts by a statement whose shape, own or set before, is the accepting one. -/
theorem mem_finalsFrom_iff {shape : Option String} : name ∈ finalsFrom shape statements ↔
    name ≠ initialMarker ∧ ∃ before attributes after,
      statements = before ++ .node name attributes :: after ∧
        (attribute? attributes "shape" <|> shapeAfter shape before) = some finalShape := by
  induction statements generalizing shape with
  | nil => simp [finalsFrom]
  | cons statement statements ih =>
      rw [finalsFrom, List.mem_append, Option.mem_toList, ih, Statement.final?_eq_some_iff]
      constructor
      · rintro (⟨hname, attributes, rfl, hshape⟩ | ⟨hname, before, attributes, after, rfl, hshape⟩)
        · exact ⟨hname, [], attributes, statements, rfl, hshape⟩
        · exact ⟨hname, statement :: before, attributes, after, rfl, hshape⟩
      · rintro ⟨hname, before, attributes, after, hsplit, hshape⟩
        cases before with
        | nil =>
            obtain ⟨rfl, rfl⟩ := List.cons.inj hsplit
            exact Or.inl ⟨hname, attributes, rfl, hshape⟩
        | cons first before =>
            obtain ⟨rfl, rfl⟩ := List.cons.inj hsplit
            exact Or.inr ⟨hname, before, attributes, after, rfl, hshape⟩

/-- Which accepting states statements declare. -/
theorem mem_finalsFrom_none_iff : name ∈ finalsFrom none statements ↔
    name ≠ initialMarker ∧ Accepts statements name := by
  rw [mem_finalsFrom_iff]
  simp only [shapeAfter_none, Accepts]

end Defaults

namespace Collected

variable {statements : List Statement} {parts : Parts} {initial name : String} {a : Automaton}
  (h : Collected statements parts)
include h

/-- The states collected are the names of the statements. -/
theorem mem_states_iff (hname : name ≠ initialMarker) : name ∈ parts.states.toList ↔
    ∃ statement ∈ statements, name ∈ statement.names := by
  rw [h.states, List.mem_flatMap]
  exact exists_congr fun statement => and_congr_right fun _ => Statement.mem_declared_iff hname

/-- The accepting states collected are those of the statements. -/
theorem mem_finals_iff : name ∈ parts.finals.toList ↔
    name ≠ initialMarker ∧ Accepts statements name := by
  rw [h.finals, mem_finalsFrom_none_iff]

/-- The transitions collected are those drawn out of names other than the marker. -/
theorem mem_transitions_iff {tr : Transition} : tr ∈ parts.transitions.toList ↔
    tr.source ≠ initialMarker ∧ Draws statements tr.source tr.label tr.target := by
  rw [h.transitions, List.mem_filterMap]
  simp only [Statement.transition?_eq_some_iff, Draws]
  constructor
  · rintro ⟨_, hm, hsource, attributes, start, rfl, hlabel⟩
    exact ⟨hsource, attributes, start, hm, hlabel⟩
  · rintro ⟨hsource, attributes, start, hm, hlabel⟩
    exact ⟨_, hm, hsource, attributes, start, rfl, hlabel⟩

/-- The initial state is declared. -/
theorem initial_mem (hinitial : parts.initial = some initial) :
    initial ∈ parts.states.toList := by
  have hm : initial ∈ parts.initial.toList := by simp [hinitial]
  rw [h.initial, List.mem_filterMap] at hm
  obtain ⟨statement, hstatement, hmarked⟩ := hm
  rw [h.states, List.mem_flatMap]
  exact ⟨statement, hstatement, Statement.mem_declared_of_marked? hmarked⟩

/-- Accepting states are declared. -/
theorem finals_mem : ∀ name ∈ parts.finals.toList, name ∈ parts.states.toList := by
  intro name hm
  obtain ⟨hname, before, attributes, after, rfl, -⟩ := h.mem_finals_iff.mp hm
  rw [h.mem_states_iff hname]
  exact ⟨.node name attributes, by simp, List.mem_singleton_self name⟩

/-- The ends of transitions are declared. -/
theorem ends_mem : ∀ tr ∈ parts.transitions.toList,
    tr.source ∈ parts.states.toList ∧ tr.target ∈ parts.states.toList := by
  intro tr htr
  rw [h.transitions, List.mem_filterMap] at htr
  obtain ⟨statement, hstatement, htransition⟩ := htr
  obtain ⟨hsource, attributes, start, rfl, -⟩ :=
    Statement.transition?_eq_some_iff.mp htransition
  rw [h.states, List.mem_flatMap, List.mem_flatMap]
  constructor <;> exact ⟨_, hstatement, by simp [Statement.declared, hsource]⟩

/-- The parts of readable statements fit together. -/
theorem fits (hreadable : Readable statements) (hinitial : parts.initial = some initial) :
    Fits parts.states.toList parts.transitions.toList initial parts.finals.toList where
  marker_notMem hm := by
    rw [h.states, List.mem_flatMap] at hm
    obtain ⟨statement, hstatement, hdeclared⟩ := hm
    obtain ⟨source, attributes, start, rfl⟩ := Statement.marker_mem_declared_iff.mp hdeclared
    exact hreadable.target_ne source initialMarker attributes start hstatement rfl
  initial_mem := h.initial_mem hinitial
  finals_mem := h.finals_mem
  source_mem tr htr := (h.ends_mem tr htr).1
  target_mem tr htr := (h.ends_mem tr htr).2
  deterministic tr htr tr' htr' hsource hlabel := by
    obtain ⟨hne, hdraws⟩ := h.mem_transitions_iff.mp htr
    obtain ⟨-, hdraws'⟩ := h.mem_transitions_iff.mp htr'
    rw [← hsource, ← hlabel] at hdraws'
    exact hreadable.deterministic tr.source tr.label tr.target tr'.target hne hdraws hdraws'

section Built

variable (hinitial : parts.initial = some initial)
  (hbuilt : Built parts.states.toList parts.transitions.toList initial parts.finals.toList a)
include hinitial hbuilt

/-- Statements are readable if their parts make an automaton. -/
theorem readable : Readable statements where
  marker := ⟨initial, by rw [← h.initial, hinitial]; rfl⟩
  labelled := h.labelled
  target_ne source target attributes start hm := by
    rintro rfl
    refine hbuilt.marker_notMem ?_
    rw [h.states, List.mem_flatMap]
    exact ⟨_, hm, Statement.marker_mem_declared_iff.mpr ⟨source, attributes, start, rfl⟩⟩
  deterministic source label target target' hsource hdraws hdraws' := by
    have hnext := hbuilt.nextName_iff.mpr (h.mem_transitions_iff.mpr ⟨hsource, hdraws⟩)
    have hnext' := hbuilt.nextName_iff.mpr (h.mem_transitions_iff.mpr ⟨hsource, hdraws'⟩)
    exact Option.some.inj (hnext.symm.trans hnext')

/-- The statements describe the automaton that their parts make. -/
theorem describes : Describes statements a where
  states name := by
    rw [hbuilt.mem_states_iff]
    by_cases hname : name = initialMarker
    · simp only [hname, ne_eq, not_true_eq_false, false_and, iff_false]
      exact hbuilt.marker_notMem
    · rw [h.mem_states_iff hname, and_iff_right hname]
  initial := by rw [← h.initial, hinitial, hbuilt.stateName_initial]; rfl
  finals name := by
    rw [hbuilt.isFinalName_iff, h.mem_finals_iff, and_iff_left_iff_imp]
    exact fun hfinal => h.finals_mem name (h.mem_finals_iff.mpr hfinal)
  next source label target := by rw [hbuilt.nextName_iff, h.mem_transitions_iff]

end Built

end Collected

end ProcessLogic.Description
