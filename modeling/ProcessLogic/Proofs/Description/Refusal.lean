import ProcessLogic.Description.Reader
import ProcessLogic.Proofs.Description.Soundness
import ProcessLogic.Proofs.Text.Span

/-!
# Where a text stops being a description

From every place some tokens lead to the end of a description, so the machine reads the beginnings
of sentences and no others, and it refuses the first lexeme with which the text is no longer the
beginning of one. The kinds that fit a place are those with which the text can go on. An error lists
all of them, and perhaps others, but never the kind that came.
-/

namespace ProcessLogic.Description

open Text

variable {ls before : List (Lexeme Token)} {s : ParserState} {kind came : TokenKind}

/-- Some sentence starts with the lexemes. -/
def Viable (ls : List (Lexeme Token)) : Prop := ∃ more statements, Sentence (ls ++ more) statements

/-- Tokens that lead from a place to the end of a description. -/
def Place.ending : Place → List Token
  | .start => [.digraph, .openBrace, .closeBrace]
  | .digraph | .graphName _ => [.openBrace, .closeBrace]
  | .statement => [.closeBrace]
  | .defaults _ => [.openBracket, .closeBracket, .semicolon, .closeBrace]
  | .word .. | .target .. | .graphValue | .closeBracket .. => [.semicolon, .closeBrace]
  | .arrow .. | .graphEquals => [.ident "a", .semicolon, .closeBrace]
  | .openBracket _ | .value .. => [.closeBracket, .semicolon, .closeBrace]
  | .key .. => [.equals, .ident "a", .closeBracket, .semicolon, .closeBrace]
  | .equals .. => [.ident "a", .closeBracket, .semicolon, .closeBrace]
  | .comma .. => [.ident "a", .equals, .ident "a", .closeBracket, .semicolon, .closeBrace]
  | .done => []

namespace ParserState

/-- From every state the machine gets to the end. -/
theorem exists_leads_finish (s : ParserState) : ∃ more s' statements,
    Leads step s more s' ∧ s'.finish? = some statements := by
  obtain ⟨place, collected⟩ := s
  refine ⟨place.ending.map (⟨·, 0, 0⟩), ?_⟩
  cases place <;> exact ⟨_, _, rfl, rfl⟩

/-- The machine reads a lexeme if its kind fits the place. -/
theorem step_isSome (s : ParserState) (l : Lexeme Token) :
    (s.step l).isSome = l.token.kind?.any s.place.fitting.contains := by
  obtain ⟨place, collected⟩ := s
  obtain ⟨token, start, stop⟩ := l
  cases place with
  | word name isStr => cases isStr <;> cases token <;> rfl
  | _ => cases token <;> rfl

/-- The text may end if its end fits the place. -/
theorem finish?_isSome (s : ParserState) :
    s.finish?.isSome = s.place.fitting.contains .endOfText := by
  obtain ⟨place, collected⟩ := s
  cases place with
  | word name isStr => cases isStr <;> rfl
  | _ => rfl

end ParserState

/-- The machine reads the beginnings of sentences. -/
theorem viable_iff : Viable ls ↔ ∃ s, Leads ParserState.step ⟨.start, []⟩ ls s := by
  constructor
  · rintro ⟨more, statements, h⟩
    obtain ⟨s, hs, -⟩ := leads_append_iff.mp (ParserState.leads_sentence h)
    exact ⟨s, hs⟩
  · rintro ⟨s, hs⟩
    obtain ⟨more, s', statements, hmore, hfinish⟩ := s.exists_leads_finish
    exact ⟨more, statements, exists_leads_iff_sentence.mp ⟨s', hs.append hmore, hfinish⟩⟩

/-- The lexemes can go on with a token of the kind, or are a sentence already if the kind is the end
of the text. -/
def Continues (before : List (Lexeme Token)) (kind : TokenKind) : Prop :=
  (kind = .endOfText ∧ ∃ statements, Sentence before statements) ∨
    ∃ l : Lexeme Token, l.token.kind? = some kind ∧ Viable (before ++ [l])

/-- Every kind but the end of the text is that of some token. -/
theorem TokenKind.exists_token (h : kind ≠ .endOfText) : ∃ t : Token, t.kind? = some kind := by
  cases kind with
  | arrow => exact ⟨.arrow, rfl⟩
  | comma => exact ⟨.comma, rfl⟩
  | digraph => exact ⟨.digraph, rfl⟩
  | edge => exact ⟨.edge, rfl⟩
  | equals => exact ⟨.equals, rfl⟩
  | ident => exact ⟨.ident "a", rfl⟩
  | leftBrace => exact ⟨.openBrace, rfl⟩
  | leftBracket => exact ⟨.openBracket, rfl⟩
  | node => exact ⟨.node, rfl⟩
  | rightBrace => exact ⟨.closeBrace, rfl⟩
  | rightBracket => exact ⟨.closeBracket, rfl⟩
  | semicolon => exact ⟨.semicolon, rfl⟩
  | str => exact ⟨.str "a", rfl⟩
  | endOfText => exact absurd rfl h

/-- A text can go on with the kinds that fit the place and no others. -/
theorem continues_iff_mem_fitting (h : Leads ParserState.step ⟨.start, []⟩ before s) :
    Continues before kind ↔ kind ∈ s.place.fitting := by
  have hstep : ∀ l : Lexeme Token, Viable (before ++ [l]) ↔
      l.token.kind?.any s.place.fitting.contains = true := by
    intro l
    rw [← ParserState.step_isSome, Option.isSome_iff_exists, viable_iff]
    simp only [leads_append_iff, leads_singleton_iff]
    constructor
    · rintro ⟨t, r, hr, ht⟩
      obtain rfl := h.unique hr
      exact ⟨t, ht⟩
    · rintro ⟨t, ht⟩
      exact ⟨t, s, h, ht⟩
  have hfinish : (∃ statements, Sentence before statements) ↔
      .endOfText ∈ s.place.fitting := by
    rw [← List.contains_iff_mem, ← ParserState.finish?_isSome, Option.isSome_iff_exists]
    simp only [← exists_leads_iff_sentence]
    constructor
    · rintro ⟨statements, r, hr, hf⟩
      obtain rfl := h.unique hr
      exact ⟨statements, hf⟩
    · rintro ⟨statements, hf⟩
      exact ⟨statements, s, h, hf⟩
  rw [Continues, hfinish]
  simp only [hstep]
  constructor
  · rintro (⟨rfl, hend⟩ | ⟨l, hkind, hl⟩)
    · exact hend
    · simpa [hkind] using hl
  · intro hmem
    by_cases hend : kind = .endOfText
    · exact Or.inl ⟨hend, hend ▸ hmem⟩
    · obtain ⟨t, ht⟩ := TokenKind.exists_token hend
      exact Or.inr ⟨⟨t, 0, 0⟩, ht, by simpa [ht] using hmem⟩

/-- What an error may list if `came` is the kind that came: not this kind, but every kind with which
the lexemes before it can go on. -/
structure ExpectedAfter (before : List (Lexeme Token)) (came : TokenKind)
    (expected : List TokenKind) : Prop where
  not_mem : came ∉ expected
  mem_of_continues : ∀ kind, Continues before kind → kind ∈ expected

/-- All that can come next is listed as expected. -/
theorem Place.fitting_subset_expected (place : Place) : place.fitting ⊆ place.expected := by
  cases place with
  | graphName isStr | word name isStr | target owner isStr =>
      cases isStr <;> simp [fitting, expected]
  | _ => simp [fitting, expected]

/-- The list at a place is right for every kind that does not fit. -/
theorem expectedAfter_expectedInstead (h : Leads ParserState.step ⟨.start, []⟩ before s)
    (hcame : came ∉ s.place.fitting) :
    ExpectedAfter before came (s.place.expectedInstead came) := by
  have hcontinues : ∀ kind, Continues before kind → kind ∈ s.place.fitting :=
    fun _ => (continues_iff_mem_fitting h).mp
  by_cases hlisted : came ∈ s.place.expected
  · rw [Place.expectedInstead, if_pos (List.contains_iff_mem.mpr hlisted)]
    exact ⟨hcame, hcontinues⟩
  · rw [Place.expectedInstead, if_neg (mt List.contains_iff_mem.mp hlisted)]
    refine ⟨hlisted, fun kind hkind => ?_⟩
    exact s.place.fitting_subset_expected (hcontinues kind hkind)

/-- The error is about a lexeme after the lexemes `before`: a stray character, or a token in whose
place other kinds are expected. -/
inductive SyntaxError.PointsAt (before : List (Lexeme Token)) (l : Lexeme Token) :
    SyntaxError → Prop
  | stray {c : Char} : l.token = .stray c → PointsAt before l (.strayCharacter c l.start)
  | unexpected {kind : TokenKind} {expected : List TokenKind} : l.token.kind? = some kind →
      ExpectedAfter before kind expected →
      PointsAt before l (.unexpectedToken l.token expected l.start)

/-- The error stands where the lexeme starts. -/
theorem SyntaxError.PointsAt.offset?_eq {error : SyntaxError} {l : Lexeme Token}
    (h : error.PointsAt before l) : error.offset? = some l.start := by
  cases h <;> rfl

/-- The error for a lexeme that is refused is about this lexeme. -/
theorem SyntaxError.pointsAt_ofLexeme {l : Lexeme Token}
    (h : Leads ParserState.step ⟨.start, []⟩ before s) (hl : ¬ Viable (before ++ [l])) :
    (ofLexeme s.place l).PointsAt before l := by
  have hcame : ∀ kind, l.token.kind? = some kind → kind ∉ s.place.fitting :=
    fun kind hkind hmem => by
      have hrefused : s.step l = none := by
        refine Option.eq_none_iff_forall_ne_some.mpr fun t ht => hl ?_
        exact viable_iff.mpr ⟨t, h.append (leads_singleton_iff.mpr ht)⟩
      have hsome := s.step_isSome l
      rw [hrefused, hkind] at hsome
      simp [hmem] at hsome
  obtain ⟨token, start, stop⟩ := l
  cases token with
  | stray c => exact .stray rfl
  | _ => exact .unexpected rfl (expectedAfter_expectedInstead h (hcame _ rfl))

/-- A text that is not blank and whose lexemes are no sentence is refused at the first lexeme with
which no sentence goes on, and on the line of its first byte. If every beginning of the text is one
of a sentence, it is refused for its end, without a line. -/
theorem parse_refuses_unviable {text : String} (hblank : ∃ c ∈ text.toList, isBlank c = false)
    (hsentence : ∀ statements, ¬ Sentence (Token.scan text) statements) :
    (∃ before l after error front c rest,
        FirstUnviable Viable (Token.scan text) before l after ∧
        StandsAfter Token.read 0 text.toList l front c rest ∧ error.PointsAt before l ∧
        parse text = .error (.malformed (some (1 + front.count '\n')) (.grammar error))) ∨
      (∀ front, front <+: Token.scan text → Viable front) ∧
        ∃ expected, ExpectedAfter (Token.scan text) .endOfText expected ∧
          parse text = .error (.malformed none (.grammar (.unexpectedEnd expected))) := by
  have hparse : ∀ error, statements text = .error error → parse text =
      .error (.malformed (error.offset?.map (lineAt text.toList)) (.grammar error)) := by
    intro error herror
    rw [parse, if_neg (by simpa using hblank), herror]
  cases hdrive : drive ParserState.step ⟨.start, []⟩ (Token.scan text) with
  | error refusal =>
      obtain ⟨s, l⟩ := refusal
      obtain ⟨before, after, hfirst, hs⟩ := firstUnviable_of_drive (fun _ => viable_iff) hdrive
      have hmem : l ∈ lexemesAt Token.read 0 text.toList := hfirst.mem
      obtain ⟨front, c, rest, hstands⟩ := exists_standsAfter hmem
      have hpoints := SyntaxError.pointsAt_ofLexeme hs hfirst.not_viable
      have hline : lineAt text.toList l.start = 1 + front.count '\n' := by
        rw [hstands.start_eq, Nat.zero_add, hstands.text_eq, lineAt_append]
      refine Or.inl ⟨before, l, after, _, front, c, rest, hfirst, hstands, hpoints, ?_⟩
      rw [hparse _ (by rw [statements, hdrive]), hpoints.offset?_eq, Option.map_some, hline]
  | ok s =>
      have hend : .endOfText ∉ s.place.fitting := by
        rw [← continues_iff_mem_fitting hdrive]
        rintro (⟨-, read, hread⟩ | ⟨l, hl, -⟩)
        · exact hsentence read hread
        · cases htoken : l.token <;> simp [htoken, Token.kind?] at hl
      have hfinish : s.finish? = none := by
        rw [← Option.not_isSome_iff_eq_none, ParserState.finish?_isSome]
        simpa using hend
      refine Or.inr ⟨fun front hfront => ?_, _, expectedAfter_expectedInstead hdrive hend, ?_⟩
      · exact viable_of_prefix (fun _ => viable_iff) (viable_iff.mpr ⟨s, hdrive⟩) hfront
      · refine hparse (.unexpectedEnd _) ?_
        rw [statements, hdrive]
        simp only [hfinish]

/-- After the name of the graph only a brace fits. A semicolon is refused with a list that holds no
more, and the end of the text with a longer one. -/
theorem parse_refuses_unviable_name :
    ((∃ before l after, FirstUnviable Viable (Token.scan "digraph a\n; \x7b") before l after ∧
        l.token = .semicolon ∧ ExpectedAfter before .semicolon [.leftBrace]) ∧
      parse "digraph a\n; \x7b" =
        .error (.malformed (some 2) (.grammar (.unexpectedToken .semicolon [.leftBrace] 10)))) ∧
    ExpectedAfter (Token.scan "digraph a\n") .endOfText [.leftBrace, .leftBracket, .semicolon] ∧
      parse "digraph a\n" = .error (.malformed none
        (.grammar (.unexpectedEnd [.leftBrace, .leftBracket, .semicolon]))) := by
  have hsentence : ∀ {text : String} {error : SyntaxError}, statements text = .error error →
      ∀ read, ¬ Sentence (Token.scan text) read :=
    fun herror read hread => nomatch herror.symm.trans (statements_of_sentence hread)
  have hname : ∃ c ∈ ("digraph a\n; \x7b" : String).toList, isBlank c = false :=
    ⟨'d', by decide, rfl⟩
  have hshort : ∃ c ∈ ("digraph a\n" : String).toList, isBlank c = false :=
    ⟨'d', by decide, rfl⟩
  have hrefused : parse "digraph a\n; \x7b" = .error
      (.malformed (some 2) (.grammar (.unexpectedToken .semicolon [.leftBrace] 10))) := rfl
  have hend : parse "digraph a\n" = .error
      (.malformed none (.grammar (.unexpectedEnd [.leftBrace, .leftBracket, .semicolon]))) := rfl
  refine ⟨⟨?_, hrefused⟩, ?_, hend⟩
  · obtain ⟨before, l, after, error, front, c, rest, hfirst, -, hpoints, hparse⟩ |
      ⟨-, expected, -, hparse⟩ := parse_refuses_unviable hname (hsentence rfl)
    · obtain ⟨-, hcause⟩ := ReadError.malformed.inj (Except.error.inj (hrefused.symm.trans hparse))
      obtain rfl := Malformation.grammar.inj hcause
      obtain ⟨token, start, stop⟩ := l
      cases hpoints with
      | unexpected hkind hexpected =>
          obtain rfl := Option.some.inj hkind
          exact ⟨before, _, after, hfirst, rfl, hexpected⟩
    · exact nomatch hrefused.symm.trans hparse
  · obtain ⟨before, l, after, error, front, c, rest, -, -, -, hparse⟩ |
      ⟨-, expected, hexpected, hparse⟩ := parse_refuses_unviable hshort (hsentence rfl)
    · exact nomatch hend.symm.trans hparse
    · obtain ⟨-, hcause⟩ := ReadError.malformed.inj (Except.error.inj (hend.symm.trans hparse))
      obtain rfl := SyntaxError.unexpectedEnd.inj (Malformation.grammar.inj hcause)
      exact hexpected

end ProcessLogic.Description
