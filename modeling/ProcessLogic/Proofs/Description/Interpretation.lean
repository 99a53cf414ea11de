import ProcessLogic.Proofs.Description.Meaning
import ProcessLogic.Proofs.Description.RoundTrip

/-!
# Reading gives what the statements mean

A text whose tokens are a sentence is read exactly if its statements make an automaton, and then as
the automaton that they describe. Since edges stand in no order there, they may be written in any
order.
-/

namespace ProcessLogic.Description

open Text Automaton

section Blank

/-- Identifiers are written in visible ASCII characters. -/
theorem Token.toNat_of_isIdentChar {c : Char} (h : isIdentChar c = true) :
    33 ≤ c.toNat ∧ c.toNat ≤ 126 := by
  have hclass : c.isAlphanum = (c.isUpper || c.isLower || c.isDigit) := rfl
  have hupper : c.isUpper = decide (65 ≤ c.toNat ∧ c.toNat ≤ 90) := rfl
  have hlower : c.isLower = (decide (97 ≤ c.toNat) && decide (c.toNat ≤ 122)) := rfl
  have hdigit : c.isDigit = (decide (48 ≤ c.toNat) && decide (c.toNat ≤ 57)) := rfl
  simp only [isIdentChar, hclass, hupper, hlower, hdigit, Bool.or_eq_true, Bool.and_eq_true,
    decide_eq_true_eq, beq_iff_eq] at h
  rcases h with (((h | h) | h) | rfl) | rfl
  · omega
  · omega
  · omega
  · decide
  · decide

/-- No character of an identifier is a blank. -/
theorem Token.isBlank_eq_false_of_isIdentChar {c : Char} (h : isIdentChar c = true) :
    isBlank c = false := by
  obtain ⟨hlow, hhigh⟩ := toNat_of_isIdentChar h
  rw [Bool.eq_false_iff]
  intro hblank
  simp only [isBlank, Bool.or_eq_true, Bool.and_eq_true, decide_eq_true_eq, beq_iff_eq] at hblank
  omega

/-- The keyword is read at a character that is not blank. -/
theorem Token.isBlank_eq_false_of_read {c : Char} {cs : List Char}
    (h : (Token.read c cs).1 = some .digraph) : isBlank c = false := by
  by_cases hspace : Token.isSpace c = true
  · rw [Token.read_space hspace] at h
    exact nomatch h
  by_cases hident : Token.isIdentChar c = true
  · exact Token.isBlank_eq_false_of_isIdentChar hident
  · unfold Token.read at h
    rw [if_neg hspace, if_neg hident] at h
    -- a sign is no keyword
    split at h <;> (try split at h) <;> cases h

variable {text : String} {statements : List Statement}

/-- Every description has the word that opens it. -/
theorem Sentence.digraph_mem {lexemes : List (Lexeme Token)} (h : Sentence lexemes statements) :
    Token.digraph ∈ tokensOf lexemes := by
  have hfirst : ∃ before rest, lexemes = before ++ rest ∧ Token.digraph ∈ tokensOf before := by
    cases h with
    | named _ hbefore _ _ =>
        exact ⟨_, _, List.append_assoc _ _ _, hbefore ▸ List.mem_cons_self⟩
    | unnamed hbefore _ _ =>
        exact ⟨_, _, List.append_assoc _ _ _, hbefore ▸ List.mem_cons_self⟩
  obtain ⟨before, rest, rfl, hmem⟩ := hfirst
  rw [tokensOf, List.map_append]
  exact List.mem_append_left _ hmem

/-- The text of a sentence is not blank. -/
theorem Sentence.not_blank (h : Sentence (Token.scan text) statements) :
    text.toList.all isBlank = false := by
  obtain ⟨c, rest, hc, hread⟩ := exists_read_of_mem_tokens h.digraph_mem
  rw [List.all_eq_false]
  exact ⟨c, hc, by simp [Token.isBlank_eq_false_of_read hread]⟩

/-- The text of a sentence is read statement by statement. -/
theorem parse_of_sentence (h : Sentence (Token.scan text) statements) :
    parse text = statements.foldlM (Parts.add (lineAt text.toList)) {} >>= Parts.automaton := by
  simp only [parse, h.not_blank, Bool.false_eq_true, if_false, statements_of_sentence h]

end Blank

section Reading

variable {text : String} {statements : List Statement} {a : Automaton}

/-- What has been collected of some statements are their parts. -/
theorem collected_of_foldlM {lineOf : Nat → Nat} {parts : Parts}
    (h : statements.foldlM (Parts.add lineOf) {} = .ok parts) : Collected statements parts := by
  refine Fold.invariant_foldlM (P := Collected) ?_ collected_empty h
  intro before statement parts parts' hparts hadd
  obtain ⟨hlabelled, hmarked, rfl⟩ := Parts.add_eq_ok_iff.mp hadd
  exact hparts.after hlabelled hmarked

/-- Parts make an automaton exactly if a state is marked and they fit together. -/
theorem Parts.automaton_eq_ok_iff {parts : Parts} : parts.automaton = .ok a ↔
    ∃ initial, parts.initial = some initial ∧
      build parts.states.toList parts.transitions.toList initial parts.finals.toList = .ok a := by
  unfold Parts.automaton
  cases parts.initial with
  | none => simp
  | some initial =>
      cases hbuild : build parts.states.toList parts.transitions.toList initial
          parts.finals.toList <;> simp [hbuild]

/-- What is read is described by the statements, which are readable. -/
theorem readable_of_parse (h : Sentence (Token.scan text) statements) (ha : parse text = .ok a) :
    Readable statements ∧ Describes statements a := by
  rw [parse_of_sentence h] at ha
  obtain ⟨parts, hparts, hautomaton⟩ := Fold.bind_eq_ok_iff.mp ha
  obtain ⟨initial, hinitial, hbuild⟩ := Parts.automaton_eq_ok_iff.mp hautomaton
  have hcollected := collected_of_foldlM hparts
  have hbuilt := built_of_build hbuild
  exact ⟨hcollected.readable hinitial hbuilt, hcollected.describes hinitial hbuilt⟩

/-- Readable statements are read. -/
theorem exists_parse_of_readable (h : Sentence (Token.scan text) statements)
    (hreadable : Readable statements) : ∃ a, parse text = .ok a := by
  obtain ⟨target, htarget⟩ := hreadable.marker
  obtain ⟨parts, hparts, hcollected⟩ := exists_collected statements (lineAt text.toList)
    hreadable.labelled (Nat.le_of_eq (by rw [htarget, List.length_singleton]))
  have hinitial : parts.initial = some target := by
    have hlist := hcollected.initial.trans htarget
    cases hi : parts.initial with
    | none => simp [hi] at hlist
    | some name => simpa [hi] using hlist
  obtain ⟨a, ha⟩ := exists_build (hcollected.fits hreadable hinitial)
  refine ⟨a, ?_⟩
  rw [parse_of_sentence h]
  exact Fold.bind_eq_ok_iff.mpr
    ⟨parts, hparts, Parts.automaton_eq_ok_iff.mpr ⟨target, hinitial, ha⟩⟩

/-- Adding a statement fails because of the text only. -/
theorem Parts.add_ne_invalid {parts : Parts} {lineOf : Nat → Nat} {statement : Statement}
    {v : Violation} : parts.add lineOf statement ≠ .error (.invalid v) := by
  intro h
  unfold Parts.add at h
  split at h
  · exact nomatch h
  · split at h <;> exact nomatch h
  · split at h <;> split at h <;> exact nomatch h
  · exact nomatch h

/-- The parts of a text are refused for the reserved name or a second successor only. -/
theorem violation_of_parse {v : Violation} (h : parse text = .error (.invalid v)) :
    v = .reservedName ∨ ∃ name label, v = .twoSuccessors name label := by
  unfold parse at h
  simp only at h
  split at h
  · exact nomatch h
  split at h
  · exact nomatch h
  rename_i statements _
  cases hparts : statements.foldlM (Parts.add (lineAt text.toList)) {} with
  | error error =>
      rw [hparts] at h
      obtain rfl := Except.error.inj h
      obtain ⟨_, _, _, hadd⟩ := Fold.exists_step_of_foldlM_eq_error hparts
      exact absurd hadd Parts.add_ne_invalid
  | ok parts =>
      rw [hparts] at h
      have hcollected := collected_of_foldlM hparts
      change parts.automaton = _ at h
      unfold Parts.automaton at h
      split at h
      · exact nomatch h
      rename_i initial hinitial
      split at h
      · exact nomatch h
      rename_i hbuild
      obtain rfl := ReadError.invalid.inj (Except.error.inj h)
      exact build_eq_error (hcollected.initial_mem hinitial) hcollected.finals_mem
        hcollected.ends_mem hbuild

end Reading

/-- Whether a statement is an edge. -/
def Statement.isEdge : Statement → Bool
  | .edge .. => true
  | _ => false

@[simp] theorem Statement.isEdge_startingAt (statement : Statement) (start : Nat) :
    (statement.startingAt start).isEdge = statement.isEdge := by
  cases statement <;> rfl

@[simp] theorem Statement.names_startingAt (statement : Statement) (start : Nat) :
    (statement.startingAt start).names = statement.names := by
  cases statement <;> rfl

/-- Two lists of statements differ in nothing but the order of edges, which may stand anywhere
between the other statements. -/
structure EdgesPermuted (statements statements' : List Statement) : Prop where
  others : statements.filter (!·.isEdge) = statements'.filter (!·.isEdge)
  edges : ((statements.filter (·.isEdge)).map (·.startingAt 0)).Perm
    ((statements'.filter (·.isEdge)).map (·.startingAt 0))

/-- Edges declare no accepting state and set no shape. -/
theorem finalsFrom_filter (shape : Option String) (statements : List Statement) :
    finalsFrom shape (statements.filter (!·.isEdge)) = finalsFrom shape statements := by
  induction statements generalizing shape with
  | nil => rfl
  | cons statement statements ih =>
      cases statement with
      | edge => exact ih shape
      | nodeDefaults | node | noEffect =>
          rw [List.filter_cons_of_pos (by rfl), finalsFrom, finalsFrom, ih]

namespace EdgesPermuted

variable {statements statements' : List Statement} {name source target : String} {label : Label}
  {a : Automaton}

theorem symm (h : EdgesPermuted statements statements') : EdgesPermuted statements' statements :=
  ⟨h.others.symm, h.edges.symm⟩

theorem trans {statements'' : List Statement} (h : EdgesPermuted statements statements')
    (h' : EdgesPermuted statements' statements'') : EdgesPermuted statements statements'' :=
  ⟨h.others.trans h'.others, h.edges.trans h'.edges⟩

/-- Where edges start does not matter. -/
theorem of_startingAt (statements : List Statement) :
    EdgesPermuted statements (statements.map (·.startingAt 0)) := by
  constructor
  · induction statements with
    | nil => rfl
    | cons statement statements ih =>
        cases statement with
        | edge => exact ih
        | nodeDefaults | node | noEffect => exact congrArg (_ :: ·) ih
  · rw [List.filter_map, List.map_map]
    simp only [Function.comp_def, Statement.isEdge_startingAt, Statement.startingAt_startingAt]
    exact .refl _

variable (h : EdgesPermuted statements statements')
include h

/-- But for where they start, the statements are the same in some order. -/
theorem perm : (statements.map (·.startingAt 0)).Perm (statements'.map (·.startingAt 0)) := by
  have hsplit : ∀ l : List Statement, (l.map (·.startingAt 0)).Perm
      ((l.filter (·.isEdge)).map (·.startingAt 0) ++
        (l.filter (!·.isEdge)).map (·.startingAt 0)) := by
    intro l
    rw [← List.map_append]
    exact ((List.filter_append_perm _ l).map _).symm
  refine (hsplit statements).trans (List.Perm.trans ?_ (hsplit statements').symm)
  rw [h.others]
  exact h.edges.append_right _

/-- Every statement is in the other list, perhaps at another place. -/
theorem exists_startingAt {statement : Statement} (hm : statement ∈ statements) :
    ∃ other ∈ statements', other.startingAt 0 = statement.startingAt 0 :=
  List.mem_map.mp (h.perm.mem_iff.mp (List.mem_map_of_mem hm))

theorem exists_edge {attributes : Attributes} {start : Nat}
    (hm : .edge source target attributes start ∈ statements) :
    ∃ start', .edge source target attributes start' ∈ statements' := by
  obtain ⟨other, hother, hsame⟩ := h.exists_startingAt hm
  cases other with
  | edge _ _ _ start' =>
      obtain ⟨rfl, rfl, rfl, -⟩ := Statement.edge.inj hsame
      exact ⟨start', hother⟩
  | nodeDefaults | node | noEffect => exact nomatch hsame

/-- Reordered edges have the same names. -/
theorem exists_name (hm : ∃ statement ∈ statements, name ∈ statement.names) :
    ∃ statement ∈ statements', name ∈ statement.names := by
  obtain ⟨statement, hstatement, hname⟩ := hm
  obtain ⟨other, hother, hsame⟩ := h.exists_startingAt hstatement
  refine ⟨other, hother, ?_⟩
  rwa [← Statement.names_startingAt other 0, hsame, Statement.names_startingAt]

/-- They draw the same transitions. -/
theorem draws (hdraws : Draws statements source label target) :
    Draws statements' source label target := by
  obtain ⟨attributes, start, hm, hlabel⟩ := hdraws
  obtain ⟨start', hm'⟩ := h.exists_edge hm
  exact ⟨attributes, start', hm', hlabel⟩

/-- The same names accept, since the order of all other statements is kept. -/
theorem accepts_iff (hname : name ≠ initialMarker) :
    Accepts statements name ↔ Accepts statements' name := by
  have hsame : finalsFrom none statements = finalsFrom none statements' := by
    rw [← finalsFrom_filter, h.others, finalsFrom_filter]
  have hfinals := @mem_finalsFrom_none_iff statements name
  rw [hsame, mem_finalsFrom_none_iff, and_iff_right hname, and_iff_right hname] at hfinals
  exact hfinals.symm

/-- They mark the same initial state. -/
theorem marked_eq (hmarker : statements.filterMap Statement.marked? = [target]) :
    statements'.filterMap Statement.marked? = [target] := by
  have hmap : ∀ l : List Statement, (l.map (·.startingAt 0)).filterMap Statement.marked? =
      l.filterMap Statement.marked? := by
    intro l
    simp only [List.filterMap_map, Function.comp_def, Statement.marked?_startingAt]
  have hperm := h.perm.filterMap Statement.marked?
  rw [hmap, hmap, hmarker] at hperm
  exact List.perm_singleton.mp hperm.symm

/-- Statements are readable in any order of the edges. -/
theorem readable (hreadable : Readable statements) : Readable statements' where
  marker := by
    obtain ⟨target, htarget⟩ := hreadable.marker
    exact ⟨target, h.marked_eq htarget⟩
  labelled statement hm := by
    obtain ⟨other, hother, hsame⟩ := h.symm.exists_startingAt hm
    rw [← Statement.labelled_startingAt, ← hsame, Statement.labelled_startingAt]
    exact hreadable.labelled other hother
  target_ne source target attributes start hm := by
    obtain ⟨start', hm'⟩ := h.symm.exists_edge hm
    exact hreadable.target_ne source target attributes start' hm'
  deterministic source label target target' hsource hdraws hdraws' :=
    hreadable.deterministic source label target target' hsource (h.symm.draws hdraws)
      (h.symm.draws hdraws')

/-- Statements describe the same automata in any order of the edges. -/
theorem describes (hdescribes : Describes statements a) : Describes statements' a where
  states name := by
    rw [hdescribes.states]
    exact and_congr_right fun _ => ⟨h.exists_name, h.symm.exists_name⟩
  initial := h.marked_eq hdescribes.initial
  finals name := by
    rw [hdescribes.finals]
    exact and_congr_right h.accepts_iff
  next source label target := by
    rw [hdescribes.next]
    exact and_congr_right fun _ => ⟨h.draws, h.symm.draws⟩

end EdgesPermuted

/-- Automata that the same statements describe look alike. -/
theorem Describes.sameByName {statements : List Statement} {a b : Automaton}
    (ha : Describes statements a) (hb : Describes statements b) (hwa : a.WellFormed)
    (hwb : b.WellFormed) : a.SameByName b where
  states name := by rw [ha.states, hb.states]
  initial := by simpa [ha.initial] using hb.initial
  finals name := by rw [Bool.eq_iff_iff, ha.finals, hb.finals]
  labels label := by
    have hused : ∀ c : Automaton, c.WellFormed → (label ∈ c.alphabet.toList ↔
        ∃ name target, c.nextName name label = some target) := by
      intro c hc
      rw [hc.mem_alphabet_iff]
      simp only [hc.nextName_iff]
      constructor
      · rintro ⟨s, t, hstep⟩
        exact ⟨_, _, s, t, hstep, rfl, rfl⟩
      · rintro ⟨_, _, s, t, hstep, -⟩
        exact ⟨s, t, hstep⟩
    rw [hused a hwa, hused b hwb]
    simp only [ha.next, hb.next]
  next name label := by
    ext target
    rw [ha.next, hb.next]

/-- A text of valid lines is a sentence. -/
theorem exists_sentence_of_lines (text : String) {ls : List Line}
    (h : ∀ line ∈ ls, line.Valid) (htokens : tokensOf (Token.scan text) =
      [.digraph, .openBrace] ++ ls.flatMap (·.1) ++ [.closeBrace]) :
    ∃ statements, Sentence (Token.scan text) statements ∧
      EdgesPermuted statements (ls.map (·.2)) := by
  obtain ⟨front, last, hscan, hfront, hlast⟩ := List.map_eq_append_iff.mp htokens
  obtain ⟨before, body, rfl, hbefore, hbody⟩ := List.map_eq_append_iff.mp hfront
  obtain ⟨brace, rest, rfl, hbrace, hnil⟩ := exists_cons_of_tokensOf hlast
  obtain rfl := List.map_eq_nil_iff.mp hnil
  obtain ⟨statements, hstatements, hmap⟩ := exists_statements h hbody
  refine ⟨statements, ?_, ?_⟩
  · rw [hscan]
    exact .unnamed hbefore hstatements hbrace
  · rw [← hmap]
    exact .of_startingAt statements

/-- A text whose tokens are a sentence is read exactly if its statements make an automaton, and is
read as the automaton that they describe. With the edges in another order it is read as well, and
as the same automaton up to the numbering of states. No text is refused for a state that is not
declared. -/
theorem parse_describes {text : String} {statements : List Statement}
    (h : Sentence (Token.scan text) statements) :
    ((∃ a, parse text = .ok a) ↔ Readable statements) ∧
    (∀ a, parse text = .ok a → Describes statements a) ∧
    (∀ text' statements', Sentence (Token.scan text') statements' →
      EdgesPermuted statements statements' →
        ((∃ a, parse text = .ok a) ↔ ∃ a, parse text' = .ok a) ∧
        ∀ a b, parse text = .ok a → parse text' = .ok b → a.SameByName b) ∧
    ∀ text' role name, parse text' ≠ .error (.invalid (.undeclared role name)) := by
  have hread : ∀ {text statements}, Sentence (Token.scan text) statements →
      ((∃ a, parse text = .ok a) ↔ Readable statements) := fun h =>
    ⟨fun ⟨_, ha⟩ => (readable_of_parse h ha).1, exists_parse_of_readable h⟩
  refine ⟨hread h, fun a ha => (readable_of_parse h ha).2, ?_, ?_⟩
  · intro text' statements' h' hpermuted
    refine ⟨?_, fun a b ha hb => ?_⟩
    · rw [hread h, hread h']
      exact ⟨hpermuted.readable, hpermuted.symm.readable⟩
    · have hdescribes := hpermuted.describes (readable_of_parse h ha).2
      exact hdescribes.sameByName (readable_of_parse h' hb).2 (wellFormed_of_parse ha)
        (wellFormed_of_parse hb)
  · intro text' role name herror
    rcases violation_of_parse herror with hv | ⟨_, _, hv⟩ <;> exact nomatch hv

/-- A quoted marker marks, the last label counts, and a node has the default shape before it. Both
texts say so, with the edges in different places. -/
theorem parse_describes_reordered : ∃ a b,
    parse "digraph\x7bnode[shape=doublecircle];b;\"init\"->a;a->b[label=x,label=y];\x7d" = .ok a ∧
    parse "digraph\x7ba->b[label=x,label=y];node[shape=doublecircle];\"init\"->a;b;\x7d" = .ok b ∧
    a.SameByName b ∧ a.stateName a.initial = "a" ∧ a.isFinalName "b" = true ∧
    a.nextName "a" "y" = some "b" := by
  have hdefaults : Line.Valid ([.node, .openBracket, .ident "shape", .equals,
      .ident "doublecircle", .closeBracket, .semicolon],
      .nodeDefaults [("shape", "doublecircle")]) :=
    .nodeDefaults (.pairs (.one "shape" (.ident "doublecircle")))
  have hnode : Line.Valid ([.ident "b", .semicolon], .node "b" []) := .node (.ident "b")
  have hmarker : Line.Valid ([.str "init", .arrow, .ident "a", .semicolon],
      .edge "init" "a" [] 0) := .edge (.str "init") (.ident "a")
  have hedge : Line.Valid ([.ident "a", .arrow, .ident "b", .openBracket, .ident "label", .equals,
      .ident "x", .comma, .ident "label", .equals, .ident "y", .closeBracket, .semicolon],
      .edge "a" "b" [("label", "x"), ("label", "y")] 0) :=
    .edgeWith (.ident "a") (.ident "b")
      (.pairs (.more "label" (.ident "x") (.one "label" (.ident "y"))))
  obtain ⟨statements, hsentence, hlines⟩ := exists_sentence_of_lines
    "digraph\x7bnode[shape=doublecircle];b;\"init\"->a;a->b[label=x,label=y];\x7d"
    (List.forall_mem_cons.mpr ⟨hdefaults, List.forall_mem_cons.mpr ⟨hnode,
      List.forall_mem_cons.mpr ⟨hmarker, List.forall_mem_singleton.mpr hedge⟩⟩⟩) (by decide)
  obtain ⟨statements', hsentence', hlines'⟩ := exists_sentence_of_lines
    "digraph\x7ba->b[label=x,label=y];node[shape=doublecircle];\"init\"->a;b;\x7d"
    (List.forall_mem_cons.mpr ⟨hedge, List.forall_mem_cons.mpr ⟨hdefaults,
      List.forall_mem_cons.mpr ⟨hmarker, List.forall_mem_singleton.mpr hnode⟩⟩⟩) (by decide)
  have hedges : ∀ source target attributes start,
      Statement.edge source target attributes start ∈
        [Statement.nodeDefaults [("shape", "doublecircle")], .node "b" [], .edge "init" "a" [] 0,
          .edge "a" "b" [("label", "x"), ("label", "y")] 0] →
      (source = initialMarker ∧ target = "a") ∨ (source = "a" ∧ target = "b") := by
    intro source target attributes start hm
    simp only [List.mem_cons, reduceCtorEq, Statement.edge.injEq, List.not_mem_nil, false_or,
      or_false] at hm
    obtain ⟨rfl, rfl, -⟩ | ⟨rfl, rfl, -⟩ := hm
    · exact Or.inl ⟨rfl, rfl⟩
    · exact Or.inr ⟨rfl, rfl⟩
  have hreadable : Readable [.nodeDefaults [("shape", "doublecircle")], .node "b" [],
      .edge "init" "a" [] 0, .edge "a" "b" [("label", "x"), ("label", "y")] 0] := by
    constructor
    case marker => exact ⟨"a", rfl⟩
    case labelled => simp [Statement.Labelled, attribute?, initialMarker]
    case target_ne =>
      intro source target attributes start hm
      obtain ⟨-, rfl⟩ | ⟨-, rfl⟩ := hedges source target attributes start hm <;> decide
    case deterministic =>
      rintro source label target target' hsource ⟨_, _, hm, -⟩ ⟨_, _, hm', -⟩
      have htarget := ((hedges _ _ _ _ hm).resolve_left fun h => hsource h.1).2
      have htarget' := ((hedges _ _ _ _ hm').resolve_left fun h => hsource h.1).2
      exact htarget.trans htarget'.symm
  have hswap : EdgesPermuted
      [.nodeDefaults [("shape", "doublecircle")], .node "b" [], .edge "init" "a" [] 0,
        .edge "a" "b" [("label", "x"), ("label", "y")] 0]
      [.edge "a" "b" [("label", "x"), ("label", "y")] 0,
        .nodeDefaults [("shape", "doublecircle")], .edge "init" "a" [] 0, .node "b" []] :=
    ⟨rfl, List.Perm.swap _ _ _⟩
  have hpermuted : EdgesPermuted statements statements' := hlines.trans (hswap.trans hlines'.symm)
  obtain ⟨hread, hdescribes, hreordered, -⟩ := parse_describes hsentence
  obtain ⟨hread', hsame⟩ := hreordered _ _ hsentence' hpermuted
  obtain ⟨a, ha⟩ := hread.mpr (hlines.symm.readable hreadable)
  obtain ⟨b, hb⟩ := hread'.mp ⟨a, ha⟩
  have hmeaning := hlines.describes (hdescribes a ha)
  refine ⟨a, b, ha, hb, hsame a b ha hb, ?_, ?_, ?_⟩
  · exact (List.singleton_inj.mp hmeaning.initial).symm
  · exact (hmeaning.finals "b").mpr ⟨by decide, [_], [], _, rfl, rfl⟩
  · exact (hmeaning.next "a" "y" "b").mpr ⟨by decide, [("label", "x"), ("label", "y")], 0,
      by simp, rfl⟩

end ProcessLogic.Description
