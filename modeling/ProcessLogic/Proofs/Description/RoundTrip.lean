import ProcessLogic.Proofs.Description.Writer

/-!
# Written descriptions are read back

The statements of a written description declare the accepting states under one shape and the
others under another, so reading finds the same names, accepting states and transitions that
were written, and makes an automaton that differs in the numbering of states only.
-/

namespace ProcessLogic.Description

open Text

namespace Statement

variable (statement : Statement)

@[simp] theorem declared_startingAt : (statement.startingAt 0).declared = statement.declared := by
  cases statement <;> rfl

@[simp] theorem marked?_startingAt : (statement.startingAt 0).marked? = statement.marked? := by
  cases statement <;> rfl

@[simp] theorem transition?_startingAt :
    (statement.startingAt 0).transition? = statement.transition? := by
  cases statement <;> rfl

@[simp] theorem labelled_startingAt : (statement.startingAt 0).Labelled ↔ statement.Labelled := by
  cases statement <;> rfl

@[simp] theorem shapeAfter_startingAt (shape : Option String) :
    (statement.startingAt 0).shapeAfter shape = statement.shapeAfter shape := by
  cases statement <;> rfl

@[simp] theorem final?_startingAt (shape : Option String) :
    (statement.startingAt 0).final? shape = statement.final? shape := by
  cases statement <;> rfl

end Statement

/-- Accepting names do not depend on where statements start. -/
theorem finalsFrom_startingAt (shape : Option String) (statements : List Statement) :
    finalsFrom shape (statements.map (·.startingAt 0)) = finalsFrom shape statements := by
  induction statements generalizing shape with
  | nil => rfl
  | cons statement statements ih => simp [finalsFrom, ih]

/-- Where statements stand does not matter for what they give. -/
theorem exists_collected_of_startingAt {statements read : List Statement} (lineOf : Nat → Nat)
    (hread : statements.map (·.startingAt 0) = read)
    (hlabelled : ∀ statement ∈ read, statement.Labelled)
    (hmarked : (read.filterMap Statement.marked?).length ≤ 1) :
    ∃ parts, statements.foldlM (Parts.add lineOf) {} = .ok parts ∧
      parts.states.toList = read.flatMap Statement.declared ∧
      parts.finals.toList = finalsFrom none read ∧
      parts.initial.toList = read.filterMap Statement.marked? ∧
      parts.transitions.toList = read.filterMap Statement.transition? := by
  subst hread
  obtain ⟨parts, hparts, hcollected⟩ := exists_collected statements lineOf
    (by simpa using hlabelled) (by simpa [List.filterMap_map, Function.comp_def] using hmarked)
  refine ⟨parts, hparts, ?_, ?_, ?_, ?_⟩
  · simpa [List.flatMap_map] using hcollected.states
  · rw [finalsFrom_startingAt]
    exact hcollected.finals
  · simpa [List.filterMap_map, Function.comp_def] using hcollected.initial
  · simpa [List.filterMap_map, Function.comp_def] using hcollected.transitions

section Written

variable {a : Automaton}

/-- No state of a well-formed automaton has the name of the marker. -/
theorem ne_marker (h : a.WellFormed) {s : Nat} (hs : s < a.size) :
    a.stateName s ≠ Automaton.initialMarker := by
  intro he
  have hmem := h.state?_stateName hs
  rw [he] at hmem
  have hfree := h.marker_free
  rw [Roster.contains, ← Automaton.state?, hmem] at hfree
  exact absurd hfree (by simp)

/-- No name that is written is that of the marker. -/
theorem ne_marker_of_mem_namesOf (h : a.WellFormed) {p : Nat → Bool} {name : String}
    (hm : name ∈ namesOf a p) : name ≠ Automaton.initialMarker := by
  obtain ⟨s, hs, rfl⟩ := List.mem_map.mp hm
  exact ne_marker h (List.mem_range.mp (List.mem_filter.mp hs).1)

/-- The transitions by name are the steps between names. -/
theorem mem_transitionsOf (h : a.WellFormed) {tr : Transition} :
    tr ∈ transitionsOf a ↔ a.nextName tr.source tr.label = some tr.target := by
  rw [h.nextName_iff, transitionsOf, List.mem_map]
  constructor
  · rintro ⟨⟨s, label, t⟩, hm, rfl⟩
    exact ⟨s, t, h.mem_transitions_iff.mp hm, rfl, rfl⟩
  · rintro ⟨s, t, hst, hs, ht⟩
    exact ⟨(s, tr.label, t), h.mem_transitions_iff.mpr hst, by simp only [hs, ht]⟩

/-- The lines of a shape set it and then list the names. -/
theorem statements_shapeLines (shape name : String) (names : List String) :
    (shapeLines shape (name :: names)).map (·.2) =
      .nodeDefaults [("shape", shape)] :: (name :: names).map fun name => .node name [] := by
  rw [shapeLines, List.map_cons, List.map_map]
  · rfl
  · simp

section Blocks

variable {shape : String} {names : List String}
  (h : ∀ name ∈ names, name ≠ Automaton.initialMarker)
include h

theorem declared_nodes :
    (names.map fun name => Statement.node name []).flatMap Statement.declared = names := by
  induction names with
  | nil => rfl
  | cons name names ih =>
      rw [List.map_cons, List.flatMap_cons, ih fun name' hm => h name' (List.mem_cons_of_mem name hm),
        Statement.declared, if_neg (h name List.mem_cons_self)]
      rfl

/-- The lines of a shape declare the names listed. -/
theorem declared_shapeLines :
    ((shapeLines shape names).map (·.2)).flatMap Statement.declared = names := by
  cases names with
  | nil => rfl
  | cons name names =>
      rw [statements_shapeLines, List.flatMap_cons, declared_nodes h]
      rfl

/-- Plain node statements accept exactly under the accepting shape. -/
theorem finalsFrom_nodes (shape : String) :
    finalsFrom (some shape) (names.map fun name => .node name []) =
      if shape = finalShape then names else [] := by
  induction names with
  | nil => simp [finalsFrom]
  | cons name names ih =>
      have hname := h name List.mem_cons_self
      have hrest := ih fun name' hm => h name' (List.mem_cons_of_mem name hm)
      have hafter : (Statement.node name []).shapeAfter (some shape) = some shape := rfl
      rw [List.map_cons, finalsFrom, hafter, hrest]
      by_cases hd : shape = finalShape <;> simp [Statement.final?, hname, hd, attribute?]

/-- A group under the shape of accepting states declares accepting states. -/
theorem finalsFrom_shapeLines (before : Option String) :
    finalsFrom before ((shapeLines shape names).map (·.2)) =
      if shape = finalShape then names else [] := by
  cases names with
  | nil => simp [shapeLines, finalsFrom]
  | cons name names =>
      have hafter : (Statement.nodeDefaults [("shape", shape)]).shapeAfter before =
          some shape := rfl
      rw [statements_shapeLines, finalsFrom, hafter, finalsFrom_nodes h]
      rfl

end Blocks

theorem marked_shapeLines (shape : String) (names : List String) :
    ((shapeLines shape names).map (·.2)).filterMap Statement.marked? = [] := by
  cases names with
  | nil => rfl
  | cons name names =>
      rw [statements_shapeLines]
      simp [Statement.marked?]

theorem transitions_shapeLines (shape : String) (names : List String) :
    ((shapeLines shape names).map (·.2)).filterMap Statement.transition? = [] := by
  cases names with
  | nil => rfl
  | cons name names =>
      rw [statements_shapeLines]
      simp [Statement.transition?]

section Transitions

variable {trs : List Transition}

theorem finalsFrom_transitionLines (before : Option String) :
    finalsFrom before ((trs.map transitionLine).map (·.2)) = [] := by
  induction trs generalizing before with
  | nil => rfl
  | cons tr trs ih => exact ih before

variable (h : ∀ tr ∈ trs, tr.source ≠ Automaton.initialMarker)
include h

theorem marked_transitionLines :
    ((trs.map transitionLine).map (·.2)).filterMap Statement.marked? = [] := by
  rw [List.map_map, List.filterMap_map, List.filterMap_eq_nil_iff]
  intro tr hm
  exact if_neg (h tr hm)

theorem transitions_transitionLines :
    ((trs.map transitionLine).map (·.2)).filterMap Statement.transition? = trs := by
  induction trs with
  | nil => rfl
  | cons tr trs ih =>
      have hfirst : (transitionLine tr).2.transition? = some tr :=
        if_neg (h tr List.mem_cons_self)
      rw [List.map_cons, List.map_cons, List.filterMap_cons, hfirst,
        ih fun tr' hm => h tr' (List.mem_cons_of_mem tr hm)]

theorem declared_transitionLines :
    ((trs.map transitionLine).map (·.2)).flatMap Statement.declared =
      trs.flatMap fun tr => [tr.source, tr.target] := by
  induction trs with
  | nil => rfl
  | cons tr trs ih =>
      have hfirst : (transitionLine tr).2.declared = [tr.source, tr.target] :=
        if_neg (h tr List.mem_cons_self)
      rw [List.map_cons, List.map_cons, List.flatMap_cons, List.flatMap_cons, hfirst,
        ih fun tr' hm => h tr' (List.mem_cons_of_mem tr hm)]

end Transitions

/-- No transition that is written leaves the marker. -/
theorem source_ne_marker (h : a.WellFormed) :
    ∀ tr ∈ transitionsOf a, tr.source ≠ Automaton.initialMarker := by
  intro tr hm
  obtain ⟨⟨s, label, t⟩, hst, rfl⟩ := List.mem_map.mp hm
  exact ne_marker h (h.step_source_lt (h.mem_transitions_iff.mp hst))

/-- The accepting states read are those written. -/
theorem finalsFrom_written (h : a.WellFormed) :
    finalsFrom none ((lines a).map (·.2)) = namesOf a a.isFinal := by
  have hheading : finalsFrom none (headingLines.map (·.2)) = [] := rfl
  have hmarker : ∀ before initial, finalsFrom before ((markerLines initial).map (·.2)) = [] :=
    fun _ _ => rfl
  simp only [lines, List.map_append, finalsFrom_append, hheading, hmarker,
    finalsFrom_transitionLines,
    finalsFrom_shapeLines (fun _ hm => ne_marker_of_mem_namesOf h hm)]
  simp [finalShape]

/-- The one marker read is the one written. -/
theorem marked_written (h : a.WellFormed) :
    ((lines a).map (·.2)).filterMap Statement.marked? = [a.stateName a.initial] := by
  simp only [lines, List.map_append, List.filterMap_append, marked_shapeLines,
    marked_transitionLines (source_ne_marker h)]
  rfl

/-- The transitions read are those written. -/
theorem transitions_written (h : a.WellFormed) :
    ((lines a).map (·.2)).filterMap Statement.transition? = transitionsOf a := by
  simp only [lines, List.map_append, List.filterMap_append, transitions_shapeLines,
    transitions_transitionLines (source_ne_marker h)]
  rfl

/-- Every edge that is written has a label, but for that of the marker. -/
theorem labelled_written (a : Automaton) :
    ∀ statement ∈ (lines a).map (·.2), statement.Labelled := by
  have hshape : ∀ (shape : String) (names : List String),
      ∀ statement ∈ (shapeLines shape names).map (·.2), statement.Labelled := by
    intro shape names statement hm
    cases names with
    | nil => exact nomatch hm
    | cons name names =>
        rw [statements_shapeLines] at hm
        rcases List.mem_cons.mp hm with rfl | hm
        · trivial
        · obtain ⟨name', -, rfl⟩ := List.mem_map.mp hm
          trivial
  intro statement hm
  simp only [lines, List.map_append, List.mem_append] at hm
  rcases hm with (((hm | hm) | hm) | hm) | hm
  · simp only [headingLines, List.map_cons, List.map_nil, List.mem_cons, List.not_mem_nil,
      or_false] at hm
    rcases hm with rfl | rfl | rfl | rfl | rfl <;> trivial
  · exact hshape _ _ statement hm
  · exact hshape _ _ statement hm
  · simp only [markerLines, List.map_cons, List.map_nil, List.mem_cons, List.not_mem_nil,
      or_false] at hm
    rcases hm with rfl | rfl
    · trivial
    · exact Or.inl rfl
  · rw [List.map_map] at hm
    obtain ⟨tr, -, rfl⟩ := List.mem_map.mp hm
    exact Or.inr rfl

theorem mem_namesOf {p : Nat → Bool} {name : String} :
    name ∈ namesOf a p ↔ ∃ s < a.size, p s = true ∧ a.stateName s = name := by
  simp only [namesOf, List.mem_map, List.mem_filter, List.mem_range, and_assoc]

/-- The states are declared by their roles first, and then by the marker and the transitions. -/
theorem declared_written (h : a.WellFormed) :
    ((lines a).map (·.2)).flatMap Statement.declared =
      namesOf a a.isFinal ++ namesOf a (fun s => !a.isFinal s) ++ [a.stateName a.initial] ++
        (transitionsOf a).flatMap fun tr => [tr.source, tr.target] := by
  have hnames : ∀ p : Nat → Bool, ∀ name ∈ namesOf a p, name ≠ Automaton.initialMarker :=
    fun _ _ hm => ne_marker_of_mem_namesOf h hm
  have hheading : (headingLines.map (·.2)).flatMap Statement.declared = [] := rfl
  have hmarker : ∀ initial, ((markerLines initial).map (·.2)).flatMap Statement.declared =
      [initial] := fun _ => rfl
  simp only [lines, List.map_append, List.flatMap_append, hheading, hmarker,
    declared_shapeLines (hnames _), declared_transitionLines (source_ne_marker h),
    List.nil_append]

/-- Exactly the names of states are declared. -/
theorem mem_declared_written (h : a.WellFormed) {name : String} :
    name ∈ ((lines a).map (·.2)).flatMap Statement.declared ↔
      ∃ s < a.size, a.stateName s = name := by
  simp only [declared_written h, List.mem_append, List.mem_singleton, List.mem_flatMap,
    mem_namesOf]
  constructor
  · rintro (((⟨s, hs, -, hn⟩ | ⟨s, hs, -, hn⟩) | rfl) | ⟨tr, hm, hn⟩)
    · exact ⟨s, hs, hn⟩
    · exact ⟨s, hs, hn⟩
    · exact ⟨a.initial, h.initial_lt, rfl⟩
    · obtain ⟨⟨s, label, t⟩, hst, rfl⟩ := List.mem_map.mp hm
      have hstep := h.mem_transitions_iff.mp hst
      simp only [List.mem_cons, List.not_mem_nil, or_false] at hn
      rcases hn with rfl | rfl
      · exact ⟨s, h.step_source_lt hstep, rfl⟩
      · exact ⟨t, h.step_lt hstep, rfl⟩
  · rintro ⟨s, hs, hn⟩
    refine Or.inl (Or.inl ?_)
    cases hf : a.isFinal s with
    | true => exact Or.inl ⟨s, hs, hf, hn⟩
    | false => exact Or.inr ⟨s, hs, by rw [hf]; rfl, hn⟩

end Written

/-- The parts that are written fit together. -/
theorem fits_written {a : Automaton} (h : a.WellFormed) :
    Automaton.Fits (((lines a).map (·.2)).flatMap Statement.declared) (transitionsOf a)
      (a.stateName a.initial) (namesOf a a.isFinal) where
  marker_notMem hm := by
    obtain ⟨s, hs, hn⟩ := (mem_declared_written h).mp hm
    exact ne_marker h hs hn
  initial_mem := (mem_declared_written h).mpr ⟨a.initial, h.initial_lt, rfl⟩
  finals_mem name hm := by
    obtain ⟨s, hs, -, hn⟩ := mem_namesOf.mp hm
    exact (mem_declared_written h).mpr ⟨s, hs, hn⟩
  source_mem tr hm := by
    obtain ⟨s, t, hst, hs, -⟩ := h.nextName_iff.mp ((mem_transitionsOf h).mp hm)
    exact (mem_declared_written h).mpr ⟨s, h.step_source_lt hst, hs⟩
  target_mem tr hm := by
    obtain ⟨s, t, hst, -, ht⟩ := h.nextName_iff.mp ((mem_transitionsOf h).mp hm)
    exact (mem_declared_written h).mpr ⟨t, h.step_lt hst, ht⟩
  deterministic tr hm tr' hm' hsource hlabel := by
    have hnext := (mem_transitionsOf h).mp hm
    have hnext' := (mem_transitionsOf h).mp hm'
    rw [hsource, hlabel, hnext'] at hnext
    exact (Option.some.inj hnext).symm

/-- An automaton made of the parts that are written looks like the one written. -/
theorem sameByName_of_built {a b : Automaton} (h : a.WellFormed)
    (hb : Automaton.Built (((lines a).map (·.2)).flatMap Statement.declared) (transitionsOf a)
      (a.stateName a.initial) (namesOf a a.isFinal) b) : Automaton.SameByName a b where
  states name := by
    rw [hb.mem_states_iff, mem_declared_written h, a.mem_states_toList_iff]
  initial := hb.stateName_initial.symm
  finals name := by
    rw [Bool.eq_iff_iff, hb.isFinalName_iff, h.isFinalName_iff, mem_namesOf,
      mem_declared_written h]
    constructor
    · rintro ⟨s, hs, hf, hn⟩
      exact ⟨⟨s, hs, hf, hn⟩, s, hs, hn⟩
    · exact fun hm => hm.1
  labels label := by
    rw [hb.mem_alphabet, h.mem_alphabet_iff, transitionsOf]
    constructor
    · rintro ⟨s, t, hst⟩
      exact ⟨_, List.mem_map.mpr ⟨(s, label, t), h.mem_transitions_iff.mpr hst, rfl⟩, rfl⟩
    · rintro ⟨tr, hm, rfl⟩
      obtain ⟨⟨s, label, t⟩, hst, rfl⟩ := List.mem_map.mp hm
      exact ⟨s, t, h.mem_transitions_iff.mp hst⟩
  next name label := by
    ext next
    rw [hb.nextName_iff, mem_transitionsOf h]

/-- A description is not blank. -/
theorem not_blank_write (a : Automaton) : (write a).toList.all isBlank = false := by
  have hword : "digraph".toList.all isBlank = false := by decide
  simp only [write, heading_eq, String.toList_append, List.all_append, hword, Bool.false_and]

/-- The text written for a well-formed automaton is read as an automaton made of the parts that are
written. -/
theorem exists_parse_write_built {a : Automaton} (h : a.WellFormed) :
    ∃ b, parse (write a) = .ok b ∧
      Automaton.Built (((lines a).map (·.2)).flatMap Statement.declared) (transitionsOf a)
        (a.stateName a.initial) (namesOf a a.isFinal) b := by
  obtain ⟨statements, hsentence, hread⟩ := exists_sentence a
  obtain ⟨parts, hparts, hstates, hfinals, hinitial, htransitions⟩ :=
    exists_collected_of_startingAt (lineAt (write a).toList) hread (labelled_written a)
      (Nat.le_of_eq (by rw [marked_written h, List.length_singleton]))
  rw [finalsFrom_written h] at hfinals
  rw [marked_written h] at hinitial
  rw [transitions_written h] at htransitions
  obtain ⟨b, hb⟩ := Automaton.exists_build (fits_written h)
  refine ⟨b, ?_, Automaton.built_of_build hb⟩
  have hinitial' : parts.initial = some (a.stateName a.initial) := by
    cases hi : parts.initial with
    | none => simp [hi] at hinitial
    | some name => simpa [hi] using hinitial
  have hautomaton : parts.automaton = .ok b := by
    simp only [Parts.automaton, hinitial', hstates, hfinals, htransitions, hb]
  simp only [parse, not_blank_write, Bool.false_eq_true, if_false,
    statements_of_sentence hsentence, hparts]
  exact hautomaton

/-- It looks like the one written. -/
theorem exists_parse_write {a : Automaton} (h : a.WellFormed) :
    ∃ b, parse (write a) = .ok b ∧ b.WellFormed ∧ Automaton.SameByName a b := by
  obtain ⟨b, hb, hbuilt⟩ := exists_parse_write_built h
  exact ⟨b, hb, hbuilt.wellFormed, sameByName_of_built h hbuilt⟩

/-- Writing an automaton and reading the text gives the automaton back up to the numbering of
its states: the same names in the same roles, the same labels and the same steps, and so the
same language. -/
theorem parse_write {a : Automaton} (h : a.WellFormed) :
    ∃ b, parse (write a) = .ok b ∧ Automaton.SameByName a b ∧
      ∀ word, a.accepts word = b.accepts word := by
  obtain ⟨b, hb, hw, hsame⟩ := exists_parse_write h
  exact ⟨b, hb, hsame, hsame.accepts_eq h hw⟩

/-- Keywords, the empty name, quotes, backslashes, newlines and comment signs survive. -/
theorem parse_write_odd_names :
    ∃ a b : Automaton, Automaton.build ["node", "", "a\n\"b"]
        [⟨"node", "// \"", ""⟩, ⟨"", "é\\", "a\n\"b"⟩] "node" ["", "a\n\"b"] = .ok a ∧
      parse (write a) = .ok b ∧ b.nextName "" "é\\" = some "a\n\"b" ∧
      ∀ word, a.accepts word = b.accepts word := by
  have hfits : Automaton.Fits ["node", "", "a\n\"b"]
      [⟨"node", "// \"", ""⟩, ⟨"", "é\\", "a\n\"b"⟩] "node" ["", "a\n\"b"] :=
    ⟨by decide, by decide, by decide, by decide, by decide, by decide⟩
  obtain ⟨a, ha⟩ := Automaton.exists_build hfits
  have hbuilt := Automaton.built_of_build ha
  obtain ⟨b, hb, hsame, haccepts⟩ := parse_write hbuilt.wellFormed
  refine ⟨a, b, ha, hb, ?_, haccepts⟩
  rw [← hsame.next, hbuilt.nextName_iff]
  decide

end ProcessLogic.Description
