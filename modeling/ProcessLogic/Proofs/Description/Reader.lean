import ProcessLogic.Description.Reader
import ProcessLogic.Proofs.Automaton.Build
import ProcessLogic.Proofs.Description.Parser

/-!
# What a list of statements describes

Each statement declares states, and may mark the initial state, draw a transition or declare an
accepting state; which shape a state has may depend on the node defaults before it. A list of
statements is read exactly if every transition has a label and at most one edge is a marker,
and the parts collected are those of the statements one after the other.
-/

namespace ProcessLogic.Description

open Text

namespace Statement

/-- The states that a statement declares. -/
def declared : Statement → List String
  | .node name _ => if name = Automaton.initialMarker then [] else [name]
  | .edge source target _ _ =>
    if source = Automaton.initialMarker then [target] else [source, target]
  | _ => []

/-- The state that a statement marks as initial. -/
def marked? : Statement → Option String
  | .edge source target _ _ => if source = Automaton.initialMarker then some target else none
  | _ => none

/-- The transition that a statement draws. -/
def transition? : Statement → Option Transition
  | .edge source target attributes _ =>
    if source = Automaton.initialMarker then none
    else (attribute? attributes "label").map (⟨source, ·, target⟩)
  | _ => none

/-- Whether a statement is no transition without a label. -/
def Labelled : Statement → Prop
  | .edge source _ attributes _ =>
    source = Automaton.initialMarker ∨ (attribute? attributes "label").isSome = true
  | _ => True

/-- The default shape after a statement. -/
def shapeAfter (shape : Option String) : Statement → Option String
  | .nodeDefaults attributes => attribute? attributes "shape" <|> shape
  | _ => shape

/-- The accepting state that a statement declares under a default shape. -/
def final? (shape : Option String) : Statement → Option String
  | .node name attributes =>
    if name = Automaton.initialMarker then none
    else if (attribute? attributes "shape" <|> shape) = some finalShape then some name
    else none
  | _ => none

end Statement

/-- The default shape after some statements. -/
def shapeAfter (shape : Option String) (statements : List Statement) : Option String :=
  statements.foldl Statement.shapeAfter shape

/-- The accepting states that statements declare, from a default shape on. -/
def finalsFrom : Option String → List Statement → List String
  | _, [] => []
  | shape, statement :: statements =>
    (statement.final? shape).toList ++ finalsFrom (statement.shapeAfter shape) statements

/-- The shape set by the statements before holds for those after them. -/
theorem finalsFrom_append (shape : Option String) (before after : List Statement) :
    finalsFrom shape (before ++ after) =
      finalsFrom shape before ++ finalsFrom (shapeAfter shape before) after := by
  induction before generalizing shape with
  | nil => rfl
  | cons statement before ih =>
      rw [List.cons_append, finalsFrom, finalsFrom, ih, List.append_assoc]
      rfl

/-- The parts are those that the statements so far give. -/
structure Collected (statements : List Statement) (parts : Parts) : Prop where
  labelled : ∀ statement ∈ statements, statement.Labelled
  shape : parts.shape = shapeAfter none statements
  states : parts.states.toList = statements.flatMap Statement.declared
  finals : parts.finals.toList = finalsFrom none statements
  initial : parts.initial.toList = statements.filterMap Statement.marked?
  transitions : parts.transitions.toList = statements.filterMap Statement.transition?

theorem collected_empty : Collected [] {} := by
  constructor <;> simp [shapeAfter, finalsFrom]

/-- The parts with what one more statement gives. -/
def Parts.after (parts : Parts) (statement : Statement) : Parts where
  shape := statement.shapeAfter parts.shape
  states := parts.states ++ statement.declared
  finals := parts.finals ++ (statement.final? parts.shape).toList
  initial := parts.initial <|> statement.marked?
  transitions := parts.transitions ++ statement.transition?.toList

/-- A statement is added unless it is a transition without a label or a second marker. -/
theorem Parts.add_eq_ok_iff {parts parts' : Parts} {lineOf : Nat → Nat} {statement : Statement} :
    parts.add lineOf statement = .ok parts' ↔ statement.Labelled ∧
      (statement.marked? = none ∨ parts.initial = none) ∧ parts.after statement = parts' := by
  cases statement with
  | nodeDefaults attributes =>
      simp [add, after, Statement.Labelled, Statement.marked?, Statement.shapeAfter,
        Statement.declared, Statement.final?, Statement.transition?]
  | node name attributes =>
      by_cases hname : name = Automaton.initialMarker
      · simp [add, after, hname, Statement.Labelled, Statement.marked?, Statement.shapeAfter,
          Statement.declared, Statement.final?, Statement.transition?]
      · have hadd : parts.add lineOf (.node name attributes) = .ok { parts with
            states := parts.states.push name
            finals := parts.finals ++
              ((Statement.node name attributes).final? parts.shape).toList } := by
          simp only [add, Statement.final?, if_neg hname]
          split <;> simp
        simp [hadd, after, hname, Statement.Labelled, Statement.marked?, Statement.shapeAfter,
          Statement.declared, Statement.transition?]
  | edge source target attributes start =>
      by_cases hsource : source = Automaton.initialMarker
      · cases hinitial : parts.initial with
        | some earlier => simp [add, hsource, hinitial, Statement.marked?]
        | none =>
            simp [add, after, hsource, hinitial, Statement.Labelled, Statement.marked?,
              Statement.shapeAfter, Statement.declared, Statement.final?, Statement.transition?]
      · cases hlabel : attribute? attributes "label" with
        | none => simp [add, hsource, hlabel, Statement.Labelled]
        | some label =>
            simp [add, after, hsource, hlabel, Statement.Labelled, Statement.marked?,
              Statement.shapeAfter, Statement.declared, Statement.final?, Statement.transition?]
  | noEffect =>
      simp [add, after, Statement.Labelled, Statement.marked?, Statement.shapeAfter,
        Statement.declared, Statement.final?, Statement.transition?]

/-- A labelled statement is collected, and marks at most one initial state. -/
theorem Collected.after {statements : List Statement} {parts : Parts}
    (h : Collected statements parts) {statement : Statement} (hlabelled : statement.Labelled)
    (hmarked : statement.marked? = none ∨ parts.initial = none) :
    Collected (statements ++ [statement]) (parts.after statement) where
  labelled st hst := by
    rcases List.mem_append.mp hst with hst | hst
    · exact h.labelled st hst
    · rwa [List.mem_singleton.mp hst]
  shape := by
    rw [Parts.after, h.shape, shapeAfter, shapeAfter, List.foldl_append]
    rfl
  states := by simp [Parts.after, h.states]
  finals := by simp [Parts.after, h.finals, h.shape, finalsFrom_append, finalsFrom]
  initial := by
    rw [List.filterMap_append, ← h.initial]
    rcases hmarked with hmarked | hmarked
    · simp [Parts.after, hmarked]
    · cases hm : statement.marked? <;> simp [Parts.after, hmarked, hm]
  transitions := by
    rw [List.filterMap_append, ← h.transitions]
    cases ht : statement.transition? <;> simp [Parts.after, ht]

/-- Statements can be read if every transition has a label and at most one edge is a marker. -/
theorem exists_collected (statements : List Statement) (lineOf : Nat → Nat)
    (hlabelled : ∀ statement ∈ statements, statement.Labelled)
    (hmarked : (statements.filterMap Statement.marked?).length ≤ 1) :
    ∃ parts, statements.foldlM (Parts.add lineOf) {} = .ok parts ∧ Collected statements parts := by
  refine Fold.exists_foldlM (P := Collected) [] ?_ collected_empty
  intro before statement after parts hsplit hparts
  rw [List.nil_append] at hsplit
  have hlabelled' := hlabelled statement (by simp [hsplit])
  have hmarked' : statement.marked? = none ∨ parts.initial = none := by
    have hlen := congrArg List.length hparts.initial
    rw [hsplit, List.filterMap_append, List.filterMap_cons] at hmarked
    cases hm : statement.marked? with
    | none => exact Or.inl rfl
    | some target =>
        apply Or.inr
        cases hi : parts.initial with
        | none => rfl
        | some earlier =>
            rw [hm] at hmarked
            simp only [hi, Option.toList_some, List.length_singleton] at hlen
            simp only [List.length_append, List.length_cons] at hmarked
            omega
  exact ⟨_, Parts.add_eq_ok_iff.mpr ⟨hlabelled', hmarked', rfl⟩,
    hparts.after hlabelled' hmarked'⟩

/-- What is read is well-formed. -/
theorem wellFormed_of_parse {text : String} {a : Automaton} (h : parse text = .ok a) :
    a.WellFormed := by
  unfold parse at h
  simp only at h
  split at h
  · exact nomatch h
  split at h
  · exact nomatch h
  obtain ⟨parts, -, hparts⟩ := Fold.bind_eq_ok_iff.mp h
  unfold Parts.automaton at hparts
  split at hparts
  · exact nomatch hparts
  split at hparts
  · obtain rfl := Except.ok.inj hparts
    exact (Automaton.built_of_build ‹_›).wellFormed
  · exact nomatch hparts

end ProcessLogic.Description
