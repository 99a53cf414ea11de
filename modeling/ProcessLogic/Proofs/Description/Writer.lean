import ProcessLogic.Proofs.Automaton.ByName
import ProcessLogic.Proofs.Description.Reader
import ProcessLogic.Proofs.Description.Token
import ProcessLogic.Proofs.Text.Join

/-!
# A written description is a sentence

Every line of a written description is one statement, or a group of node statements after the
default shape for them. The tokens of the text are those of its lines, so the parser reads the
statements that were written.
-/

namespace ProcessLogic.Description

open Text

/-- The tokens of a statement, and the statement as it is read at the start of a text. -/
abbrev Line := List Token × Statement

/-- A line of tokens is its statement, wherever it starts. -/
def Line.Valid (line : Line) : Prop := StatementTokens 0 line.1 line.2

/-- The tokens of a setting `key = value`. -/
def settingTokens (key : String) (value : Token) : List Token := [.ident key, .equals, value]

/-- The lines before the states. -/
def headingLines : List Line :=
  [(settingTokens "rankdir" (.ident "LR") ++ [.semicolon], .noEffect),
    (settingTokens "center" (.ident "true") ++ [.semicolon], .noEffect),
    (settingTokens "size" (.str "7.5,10.5") ++ [.semicolon], .noEffect),
    (.edge :: .openBracket :: settingTokens "fontname" (.ident "Courier") ++
      [.closeBracket, .semicolon], .noEffect),
    (.node :: .openBracket :: settingTokens "height" (.ident ".5") ++
      .comma :: settingTokens "width" (.ident ".5") ++ [.closeBracket, .semicolon],
      .nodeDefaults [("height", ".5"), ("width", ".5")])]

/-- The lines of the states of one shape. -/
def shapeLines (shape : String) : List String → List Line
  | [] => []
  | names => (.node :: .openBracket :: settingTokens "shape" (.ident shape) ++
      [.closeBracket, .semicolon], .nodeDefaults [("shape", shape)]) ::
    names.map fun name => ([nameToken name, .semicolon], .node name [])

/-- The lines that mark the initial state. -/
def markerLines (initial : String) : List Line :=
  [(.ident "init" :: .openBracket :: settingTokens "shape" (.ident "plaintext") ++
      .comma :: settingTokens "label" (.str "") ++ [.closeBracket, .semicolon],
      .node "init" [("shape", "plaintext"), ("label", "")]),
    ([.ident "init", .arrow, nameToken initial, .semicolon], .edge "init" initial [] 0)]

/-- The line of a transition. -/
def transitionLine (tr : Transition) : Line :=
  (nameToken tr.source :: .arrow :: nameToken tr.target :: .openBracket ::
      settingTokens "label" (.str tr.label) ++ [.closeBracket, .semicolon],
    .edge tr.source tr.target [("label", tr.label)] 0)

/-- The names of the states of an automaton that pass a test, in order. -/
def namesOf (a : Automaton) (p : Nat → Bool) : List String :=
  ((List.range a.size).filter p).map a.stateName

/-- The transitions of an automaton, by name. -/
def transitionsOf (a : Automaton) : List Transition :=
  a.transitions.map fun (s, label, t) => ⟨a.stateName s, label, a.stateName t⟩

/-- All lines of a description. -/
def lines (a : Automaton) : List Line :=
  headingLines ++ shapeLines "doublecircle" (namesOf a a.isFinal) ++
    shapeLines "circle" (namesOf a fun s => !a.isFinal s) ++
    markerLines (a.stateName a.initial) ++ (transitionsOf a).map transitionLine

/-- How a setting is written. -/
def setting (key value : String) : String := key ++ " = " ++ value

/-- The heading, word by word. -/
theorem heading_eq : heading = "digraph" ++ " " ++ "MONA_DFA" ++ " \x7b\n " ++
    setting "rankdir" "LR" ++ ";\n " ++ setting "center" "true" ++ ";\n " ++
    setting "size" (inQuotes "7.5,10.5") ++ ";\n " ++
    "edge" ++ " [" ++ setting "fontname" "Courier" ++ "];\n " ++
    "node" ++ " [" ++ setting "height" ".5" ++ ", " ++ setting "width" ".5" ++ "];\n" := by
  decide

section Reads

open Token

theorem reads_blank : Reads " " [] := fun cs => by simp

theorem reads_equals : Reads " = " [.equals] := fun cs => by simp

theorem reads_comma : Reads ", " [.comma] := fun cs => by simp

theorem reads_openBracket : Reads " [" [.openBracket] := fun cs => by simp

theorem reads_closeBracket : Reads "];\n" [.closeBracket, .semicolon] := fun cs => by simp

theorem reads_semicolon : Reads ";\n" [.semicolon] := fun cs => by simp

/-- An identifier that is no keyword. -/
theorem readsBefore_ident (word : String) (hplain : isPlain word = true) :
    ReadsBefore word [.ident word] := by
  have h := readsBefore_writeName word
  rwa [writeName, nameToken, if_pos hplain, if_pos hplain] at h

/-- A setting is read as its key, the sign and its value. -/
theorem readsBefore_setting (key : String) {value : String} {t : Token} (hkey : isPlain key = true)
    (hvalue : ReadsBefore value [t]) : ReadsBefore (setting key value) (settingTokens key t) :=
  ((readsBefore_ident key hkey).append reads_equals (by decide)).append_before hvalue

/-- A setting of plain words is read as three tokens. -/
theorem readsBefore_setting_ident (key value : String) (hkey : isPlain key = true)
    (hvalue : isPlain value = true) :
    ReadsBefore (setting key value) (settingTokens key (.ident value)) :=
  readsBefore_setting key hkey (readsBefore_ident value hvalue)

/-- A keyword is read as its token where the word ends. -/
theorem readsBefore_keyword (word : String) (hne : word ≠ "")
    (hw : word.toList.all isIdentChar = true) {t : Token} (ht : ofWord word = t) :
    ReadsBefore word [t] := by
  rw [← ht]
  exact readsBefore_word hne hw

/-- The heading is read as its lines after the opening brace. -/
theorem reads_heading :
    Reads heading ([.digraph, .ident "MONA_DFA", .openBrace] ++ headingLines.flatMap (·.1)) := by
  have hdigraph : ReadsBefore "digraph" [.digraph] :=
    readsBefore_keyword "digraph" (by decide) (by decide) rfl
  have hedge : ReadsBefore "edge" [.edge] :=
    readsBefore_keyword "edge" (by decide) (by decide) rfl
  have hnode : ReadsBefore "node" [.node] :=
    readsBefore_keyword "node" (by decide) (by decide) rfl
  have hbrace : Reads " \x7b\n " [.openBrace] := fun cs => by simp
  have hsemicolon : Reads ";\n " [.semicolon] := fun cs => by simp
  have hclose : Reads "];\n " [.closeBracket, .semicolon] := fun cs => by simp
  have hname := (hdigraph.append reads_blank (by decide)).append_before
    (readsBefore_ident "MONA_DFA" (by decide))
  have hrankdir := (hname.append hbrace (by decide)).append_before
    (readsBefore_setting_ident "rankdir" "LR" (by decide) (by decide))
  have hcenter := (hrankdir.append hsemicolon (by decide)).append_before
    (readsBefore_setting_ident "center" "true" (by decide) (by decide))
  have hsize := (hcenter.append hsemicolon (by decide)).append_before
    (readsBefore_setting "size" (by decide) (reads_inQuotes "7.5,10.5").before)
  have hfont := (((hsize.append hsemicolon (by decide)).append_before hedge).append
    reads_openBracket (by decide)).append_before
    (readsBefore_setting_ident "fontname" "Courier" (by decide) (by decide))
  have hheight := (((hfont.append hclose (by decide)).append_before hnode).append
    reads_openBracket (by decide)).append_before
    (readsBefore_setting_ident "height" ".5" (by decide) (by decide))
  have hwidth := (hheight.append reads_comma (by decide)).append_before
    (readsBefore_setting_ident "width" ".5" (by decide) (by decide))
  exact (hwidth.append reads_closeBracket (by decide)).of_eq heading_eq rfl

/-- The states of one shape, each followed by a semicolon. -/
theorem reads_names (names : List String) (hne : names ≠ []) :
    Reads ("; ".intercalate (names.map writeName) ++ ";\n")
      (names.flatMap fun name => [nameToken name, .semicolon]) := by
  induction names with
  | nil => exact absurd rfl hne
  | cons name names ih =>
      cases names with
      | nil => exact (readsBefore_writeName name).append reads_semicolon (by decide)
      | cons second names =>
          have hseparator : Reads "; " [.semicolon] := fun cs => by simp
          rw [List.map_cons, List.map_cons, String.intercalate_cons_cons, String.append_assoc]
          exact ((readsBefore_writeName name).append hseparator (by decide)).append
            (ih (List.cons_ne_nil second names))

/-- The line of the states of one shape is read as the lines of the group. -/
theorem reads_shapeLine (shape : String) (hshape : isPlain shape = true) (names : List String) :
    Reads (shapeLine shape names) ((shapeLines shape names).flatMap (·.1)) := by
  cases names with
  | nil => exact fun cs => rfl
  | cons name names =>
      have hword := readsBefore_keyword "node" (by decide) (by decide) rfl
      have hkey := ((reads_blank.append_before hword).append reads_openBracket
        (by decide)).append_before (readsBefore_ident "shape" (by decide))
      have hnode : Reads " node [shape = " [.node, .openBracket, .ident "shape", .equals] :=
        (hkey.append reads_equals (by decide)).of_eq (by decide) rfl
      have hclose : Reads "]; " [.closeBracket, .semicolon] := fun cs => by simp
      have hstates := reads_names (name :: names) (List.cons_ne_nil name names)
      have h := ((hnode.append_before (readsBefore_ident shape hshape)).append hclose
        (by decide)).append hstates
      rw [shapeLine, if_neg (by simp), shapeLines, String.append_assoc]
      · simpa [settingTokens, List.flatMap_map] using h
      · simp

/-- The line of a transition. -/
theorem reads_edgeLine (tr : Transition) :
    Reads (edgeLine tr.source tr.label tr.target) (transitionLine tr).1 := by
  have harrow : Reads " -> " [.arrow] := fun cs => by simp
  have hsign : Reads "=" [.equals] := fun cs => by simp
  have hkey := reads_openBracket.append_before (readsBefore_ident "label" (by decide))
  have hlabel : Reads " [label=" [.openBracket, .ident "label", .equals] :=
    (hkey.append hsign (by decide)).of_eq (by decide) rfl
  have hsource := reads_blank.append_before (readsBefore_writeName tr.source)
  have htarget := (hsource.append harrow (by decide)).append_before
    (readsBefore_writeName tr.target)
  exact ((htarget.append hlabel (by decide)).append (reads_inQuotes tr.label)).append
    reads_closeBracket

/-- Joined texts are read piece by piece. -/
theorem reads_join {α : Type} {text : α → String} {ts : α → List Token}
    (h : ∀ x, Reads (text x) (ts x)) (xs : List α) :
    Reads (String.join (xs.map text)) (xs.flatMap ts) := by
  induction xs with
  | nil => exact fun cs => rfl
  | cons x xs ih =>
      rw [List.map_cons, List.flatMap_cons, String.join_cons]
      exact (h x).append ih

/-- The lines that mark the initial state. -/
theorem reads_marker (initial : String) :
    Reads (" init [shape = plaintext, label = \"\"];\n" ++
      (" init -> " ++ writeName initial ++ ";\n")) ((markerLines initial).flatMap (·.1)) := by
  have hinit := reads_blank.append_before (readsBefore_ident "init" (by decide))
  have harrow : Reads " -> " [.arrow] := fun cs => by simp
  have hshape := (hinit.append reads_openBracket (by decide)).append_before
    (readsBefore_setting_ident "shape" "plaintext" (by decide) (by decide))
  have hlabel := (hshape.append reads_comma (by decide)).append_before
    (readsBefore_setting "label" (by decide) (reads_inQuotes "").before)
  have hfirst := hlabel.append reads_closeBracket (by decide)
  have hsecond := ((hinit.append harrow (by decide)).append_before
    (readsBefore_writeName initial)).append reads_semicolon (by decide)
  have htext : " init [shape = plaintext, label = \"\"];\n" = " " ++ "init" ++ " [" ++
      setting "shape" "plaintext" ++ ", " ++ setting "label" (inQuotes "") ++ "];\n" := by
    decide
  have htext' : " init -> " = " " ++ "init" ++ " -> " := by decide
  exact (hfirst.append hsecond).of_eq (by rw [htext, htext']) rfl

/-- A description is read as its lines between braces. -/
theorem tokens_write (a : Automaton) : tokens read (write a).toList =
    [.digraph, .ident "MONA_DFA", .openBrace] ++ (lines a).flatMap (·.1) ++ [.closeBrace] := by
  have hbrace : Reads "\x7d\n" [.closeBrace] := fun cs => by simp
  have hstates := (reads_heading.append
    (reads_shapeLine "doublecircle" (by decide) (namesOf a a.isFinal))).append
    (reads_shapeLine "circle" (by decide) (namesOf a fun s => !a.isFinal s))
  have hmarker := hstates.append (reads_marker (a.stateName a.initial))
  have hedges := hmarker.append (reads_join reads_edgeLine (transitionsOf a))
  have hall := hedges.append hbrace
  have htext : write a = heading ++ shapeLine "doublecircle" (namesOf a a.isFinal) ++
      shapeLine "circle" (namesOf a fun s => !a.isFinal s) ++
      (" init [shape = plaintext, label = \"\"];\n" ++
        (" init -> " ++ writeName (a.stateName a.initial) ++ ";\n")) ++
      String.join ((transitionsOf a).map fun tr => edgeLine tr.source tr.label tr.target) ++
      "\x7d\n" := by
    simp only [write, transitionsOf, List.map_map, String.append_assoc]
    rfl
  have htokens := hall.of_eq htext rfl []
  rw [List.append_nil, tokens_nil, List.append_nil] at htokens
  rw [htokens]
  simp [lines, List.flatMap_map]

end Reads

/-- The statement as it stands at some place of a text. -/
def Statement.startingAt (start : Nat) : Statement → Statement
  | .edge source target attributes _ => .edge source target attributes start
  | statement => statement

theorem Statement.startingAt_startingAt (start start' : Nat) (statement : Statement) :
    (statement.startingAt start).startingAt start' = statement.startingAt start' := by
  cases statement <;> rfl

/-- A statement that has been read stands at the place where it starts. -/
theorem StatementTokens.startingAt_eq {start : Nat} {ts : List Token} {statement : Statement}
    (h : StatementTokens start ts statement) : statement.startingAt start = statement := by
  cases h <;> rfl

/-- The tokens of a statement are its tokens at any other place. -/
theorem StatementTokens.startingAt {start : Nat} {ts : List Token} {statement : Statement}
    (h : StatementTokens start ts statement) (start' : Nat) :
    StatementTokens start' ts (statement.startingAt start') := by
  cases h with
  | nodeDefaults hlist => exact .nodeDefaults hlist
  | edgeDefaults hlist => exact .edgeDefaults hlist
  | graphAttribute key hnamed => exact .graphAttribute key hnamed
  | node hnamed => exact .node hnamed
  | nodeWith hnamed hlist => exact .nodeWith hnamed hlist
  | edge hsource htarget => exact .edge hsource htarget
  | edgeWith hsource htarget hlist => exact .edgeWith hsource htarget hlist

theorem StatementTokens.ne_nil {start : Nat} {ts : List Token} {statement : Statement}
    (h : StatementTokens start ts statement) : ts ≠ [] := by
  cases h <;> simp

/-- Lines of tokens are statements, each starting where its first lexeme does. -/
theorem exists_statements {ls : List Line} (h : ∀ line ∈ ls, line.Valid)
    {lexemes : List (Lexeme Token)} (hl : tokensOf lexemes = ls.flatMap (·.1)) :
    ∃ statements, Statements lexemes statements ∧
      statements.map (·.startingAt 0) = ls.map (·.2) := by
  induction ls generalizing lexemes with
  | nil =>
      obtain rfl := List.map_eq_nil_iff.mp hl
      exact ⟨[], .empty, rfl⟩
  | cons line ls ih =>
      rw [List.flatMap_cons] at hl
      obtain ⟨body, rest, rfl, hbody, hrest⟩ := List.map_eq_append_iff.mp hl
      obtain ⟨statements, hstatements, hmap⟩ :=
        ih (fun line' hm => h line' (List.mem_cons_of_mem line hm)) hrest
      have hline := h line List.mem_cons_self
      cases body with
      | nil => exact absurd hbody.symm hline.ne_nil
      | cons first others =>
          refine ⟨line.2.startingAt first.start :: statements, .more ?_ hstatements, ?_⟩
          · rw [tokensOf, hbody]
            exact hline.startingAt first.start
          · rw [List.map_cons, List.map_cons, hmap, Statement.startingAt_startingAt,
              StatementTokens.startingAt_eq hline]

theorem valid_headingLines : ∀ line ∈ headingLines, line.Valid := by
  simp only [headingLines, List.mem_cons, List.not_mem_nil, or_false]
  rintro line (rfl | rfl | rfl | rfl | rfl)
  · exact .graphAttribute "rankdir" (.ident "LR")
  · exact .graphAttribute "center" (.ident "true")
  · exact .graphAttribute "size" (.str "7.5,10.5")
  · exact .edgeDefaults (.pairs (.one "fontname" (.ident "Courier")))
  · exact .nodeDefaults (.pairs (.more "height" (.ident ".5") (.one "width" (.ident ".5"))))

theorem valid_shapeLines (shape : String) (names : List String) :
    ∀ line ∈ shapeLines shape names, line.Valid := by
  cases names with
  | nil => exact fun line hm => nomatch hm
  | cons name names =>
      intro line hm
      rcases List.mem_cons.mp hm with rfl | hm
      · exact .nodeDefaults (.pairs (.one "shape" (.ident shape)))
      · obtain ⟨name', -, rfl⟩ := List.mem_map.mp hm
        exact .node (named_nameToken name')

theorem valid_markerLines (initial : String) : ∀ line ∈ markerLines initial, line.Valid := by
  simp only [markerLines, List.mem_cons, List.not_mem_nil, or_false]
  rintro line (rfl | rfl)
  · exact .nodeWith (.ident "init")
      (.pairs (.more "shape" (.ident "plaintext") (.one "label" (.str ""))))
  · exact .edge (.ident "init") (named_nameToken initial)

theorem valid_transitionLine (tr : Transition) : (transitionLine tr).Valid :=
  .edgeWith (named_nameToken tr.source) (named_nameToken tr.target)
    (.pairs (.one "label" (.str tr.label)))

/-- The lines of a description are statements. -/
theorem valid_lines (a : Automaton) : ∀ line ∈ lines a, line.Valid := by
  intro line hm
  simp only [lines, List.mem_append, List.mem_map] at hm
  rcases hm with (((hm | hm) | hm) | hm) | ⟨tr, -, rfl⟩
  · exact valid_headingLines line hm
  · exact valid_shapeLines _ _ line hm
  · exact valid_shapeLines _ _ line hm
  · exact valid_markerLines _ line hm
  · exact valid_transitionLine tr

/-- The text of a description is a sentence with the statements that were written. -/
theorem exists_sentence (a : Automaton) :
    ∃ statements, Sentence (Token.scan (write a)) statements ∧
      statements.map (·.startingAt 0) = (lines a).map (·.2) := by
  have htokens := tokens_write a
  obtain ⟨front, last, hscan, hfront, hlast⟩ := List.map_eq_append_iff.mp htokens
  obtain ⟨before, body, rfl, hbefore, hbody⟩ := List.map_eq_append_iff.mp hfront
  obtain ⟨brace, rest, rfl, hbrace, hnil⟩ := exists_cons_of_tokensOf hlast
  obtain rfl := List.map_eq_nil_iff.mp hnil
  obtain ⟨statements, hstatements, hmap⟩ := exists_statements (valid_lines a) hbody
  refine ⟨statements, ?_, hmap⟩
  rw [Token.scan, hscan]
  exact .named (.ident "MONA_DFA") hbefore hstatements hbrace

end ProcessLogic.Description
