import ProcessLogic.Proofs.Formula.Lexicon
import ProcessLogic.Proofs.Formula.Precedence
import ProcessLogic.Proofs.Text.Machine

/-!
# Where a text stops being a formula

Whatever the machine has read can be completed to a sentence: an operand is put where one is due,
and what is open is closed. So the machine reads the beginnings of sentences and no others, and the
token that it refuses is the first with which the text is no longer the beginning of a formula.
-/

namespace ProcessLogic.Formula

open Text

variable {ts us : List Token} {n : Nat} {f : Formula}

/-- Some sentence starts with the tokens. -/
def Viable (ts : List Token) : Prop := ∃ us f, Sentence (ts ++ us) f

/-- A beginning of what some sentence starts with is so too. -/
theorem Viable.of_append (h : Viable (ts ++ us)) : Viable ts := by
  obtain ⟨vs, f, hf⟩ := h
  exact ⟨us ++ vs, f, by rwa [← List.append_assoc]⟩

namespace ParserState

variable {value : Formula} {stack : List Frame}

/-- An operand completes what is open to the left of it, if the innermost operator leaves room for
it; an operand of the tightest level is always the right one. -/
theorem Opened.viable (h : Opened stack ts) (hvalue : Derives n us value)
    (hroom : n = 5 ∨ Room n stack) : Viable (ts ++ us) := by
  induction h generalizing n us value with
  | nil => exact ⟨[], value, by simpa using hvalue.loosen (Nat.zero_le n)⟩
  | @paren stack ts _ ih =>
      have hclosed : Derives 5 (.openParen :: us ++ [.closeParen]) value :=
        .paren (hvalue.loosen (Nat.zero_le n))
      have hrest : Viable ((ts ++ [.openParen] ++ us) ++ [.closeParen]) := by
        simpa only [List.append_assoc, List.cons_append, List.nil_append] using
          ih hclosed (Or.inl rfl)
      exact hrest.of_append
  | unary op _ ih =>
      obtain rfl : n = 5 := hroom.resolve_right id
      rw [List.append_assoc]
      exact ih (.unary op hvalue) (Or.inl rfl)
  | @binary op stack ts vs left _ hop hleft ih =>
      have hlevel : op.rightLevel ≤ n := by
        rcases hroom with rfl | hroom
        · exact op.rightLevel_le
        · exact rightLevel_le_of_room hroom
      have hjoined := ih (hleft.binary op (hvalue.loosen hlevel)) (Or.inr hop)
      simpa only [List.append_assoc, List.singleton_append] using hjoined

/-- What has been read into a state can be completed. -/
theorem Spells.viable {s : ParserState} (h : Spells s ts) : Viable ts := by
  cases h with
  | operand hstack => exact (hstack.viable (.const true) (Or.inl rfl)).of_append
  | complete hstack _ hvalue => exact hstack.viable hvalue (Or.inl rfl)

end ParserState

/-- The machine reads the beginnings of sentences. -/
theorem viable_iff {ls : List (Lexeme Token)} :
    Viable (ls.map (·.token)) ↔ ∃ s, Leads advance (.operand []) ls s := by
  simp only [Leads, ParserState.drive_eq_ok_iff]
  constructor
  · rintro ⟨us, f, hf⟩
    obtain ⟨s, hs, -⟩ := exists_reads_iff_sentence.mpr hf
    rw [ParserState.reads_append] at hs
    obtain ⟨r, hr, -⟩ := Option.bind_eq_some_iff.mp hs
    exact ⟨r, hr⟩
  · rintro ⟨s, hs⟩
    exact (ParserState.Spells.reads (.operand .nil) hs).viable

/-- The beginnings of a text that are beginnings of sentences. -/
abbrev ViableLexemes (ls : List (Lexeme Token)) : Prop := Viable (ls.map (·.token))

/-- The error is about the lexeme: its bytes, the canonical spelling of its token, which reads as that
token again, and whether it is a token at all. -/
structure ParseError.PointsAt (error : ParseError) (l : Lexeme Token) : Prop where
  offset_eq : error.offset = l.start
  length_eq : error.length = l.stop - l.start
  token_eq : ∃ s, error.token? = some s ∧ l.token.IsCanonical s ∧
    Token.scan s = [⟨l.token, 0, s.utf8ByteSize⟩]
  kind : (∃ c, l.token = .stray c ∧ error = .strayCharacter c l.start l.stop) ∨
    (∀ c, l.token ≠ .stray c) ∧ error = .unexpectedToken l.token l.start l.stop

/-- The error for a lexeme whose token a rule gives is about that lexeme. -/
theorem ParseError.pointsAt_ofLexeme {l : Lexeme Token} {word : List Char}
    (h : FirstMatch Token.rules word (some l.token)) : (ofLexeme l).PointsAt l := by
  have hcanonical := l.token.isCanonical_spelling
  have hscan := Token.scan_spelling h
  obtain ⟨token, start, stop⟩ := l
  cases token with
  | stray c => exact ⟨rfl, rfl, ⟨_, rfl, hcanonical, hscan⟩, Or.inl ⟨c, rfl, rfl⟩⟩
  | ident | openParen | closeParen | const | unary | binary =>
    exact ⟨rfl, rfl, ⟨_, rfl, hcanonical, hscan⟩, Or.inr ⟨fun c => nofun, rfl⟩⟩

/-- How a text is refused: it ends too early, or at the first lexeme that is unviable. -/
theorem parse_eq_error_cases {text : String} {error : ParseError} (h : parse text = .error error) :
    (ViableLexemes (Token.scan text) ∧ error = .unexpectedEnd (byteLength text.toList)) ∨
      ∃ before l after, FirstUnviable ViableLexemes (Token.scan text) before l after ∧
        error = .ofLexeme l := by
  rw [parse] at h
  cases hdrive : drive advance (.operand []) (Token.scan text) with
  | ok s =>
      refine Or.inl ⟨viable_iff.mpr ⟨s, hdrive⟩, ?_⟩
      cases hf : s.finish? with
      | some f => simp [hdrive, hf] at h
      | none =>
          simp only [hdrive, hf, Except.error.injEq] at h
          exact h.symm
  | error refusal =>
      obtain ⟨s, l⟩ := refusal
      simp only [hdrive, Except.error.injEq] at h
      obtain ⟨before, after, hfirst, -⟩ := firstUnviable_of_drive (fun _ => viable_iff) hdrive
      exact Or.inr ⟨before, l, after, hfirst, h.symm⟩

/-- Every lexeme is taken by the rules from the text after the bytes before it. -/
theorem exists_takes {text : String} {l : Lexeme Token}
    (h : l ∈ lexemesAt Token.read 0 text.toList) : ∃ front rest word, text.toList = front ++ rest ∧
      byteLength front = l.start ∧ Takes Token.rules rest word (some l.token) := by
  obtain ⟨front, c, rest, hstands⟩ := exists_standsAfter h
  have htakes := Token.implements_read c rest
  rw [hstands.token_read] at htakes
  exact ⟨front, c :: rest, _, hstands.text_eq, by rw [hstands.start_eq, Nat.zero_add], htakes⟩

/-- A text that is no formula is refused at its first lexeme with which no sentence goes on, as a
stray character exactly if no token starts there, and never for a lexeme after that one. If every
beginning of the text is one of a sentence, it is refused for its end. -/
theorem parse_refuses_first {text : String} {error : ParseError} (h : parse text = .error error) :
    ∃ ls, (∀ us, Lexed Token.rules 0 text.toList us ↔ us = ls) ∧
      (((∀ front, front <+: ls → ViableLexemes front) ∧
          error = .unexpectedEnd (byteLength text.toList) ∧
          error.offset = byteLength text.toList ∧ error.length = 0) ∨
        ∃ before l after, FirstUnviable ViableLexemes ls before l after ∧ error.PointsAt l ∧
          (∃ front rest, text.toList = front ++ rest ∧ byteLength front = l.start ∧
            ((∃ c, l.token = .stray c) ↔
              ∀ rule ∈ Token.rules.dropLast, ∀ word ∈ rule.language, ¬ word <+: rest)) ∧
          ∀ later ∈ after, error.offset < later.start) := by
  refine ⟨Token.scan text, fun us => Token.implements_read.lexed_iff, ?_⟩
  rcases parse_eq_error_cases h with ⟨hviable, rfl⟩ | ⟨before, l, after, hfirst, rfl⟩
  · refine Or.inl ⟨fun front hfront => ?_, rfl, rfl, rfl⟩
    exact viable_of_prefix (fun _ => viable_iff) hviable hfront
  · have hmem : l ∈ lexemesAt Token.read 0 text.toList := hfirst.mem
    obtain ⟨front, rest, word, htext, hstart, htakes⟩ := exists_takes hmem
    have hpoints := ParseError.pointsAt_ofLexeme htakes.first
    refine Or.inr ⟨before, l, after, hfirst, hpoints,
      ⟨front, rest, htext, hstart, Token.stray_iff_of_takes htakes⟩, fun later hlater => ?_⟩
    rw [hpoints.offset_eq]
    exact start_lt_of_split hfirst.split hlater

/-- An operand after an operand is refused, though a stray character comes later; and a text that
ends after an operator is refused for its end. -/
theorem parse_refuses_first_operand :
    (parse "G(p q .)" = .error (.unexpectedToken (.ident "q") 4 5) ∧
      ∃ before after, FirstUnviable ViableLexemes (Token.scan "G(p q .)") before
        ⟨.ident "q", 4, 5⟩ after ∧ ∀ later ∈ after, 4 < later.start) ∧
    parse "p && WX" = .error (.unexpectedEnd 7) ∧ ViableLexemes (Token.scan "p && WX") := by
  have hscan : ∀ {text : String} {ls : List (Lexeme Token)},
      (∀ us, Lexed Token.rules 0 text.toList us ↔ us = ls) → ls = Token.scan text :=
    fun hls => ((hls _).mp (Token.implements_read.lexed_iff.mpr rfl)).symm
  have hoperand : parse "G(p q .)" = .error (.unexpectedToken (.ident "q") 4 5) := rfl
  have hend : parse "p && WX" = .error (.unexpectedEnd 7) := rfl
  refine ⟨⟨hoperand, ?_⟩, hend, ?_⟩
  · obtain ⟨ls, hls, ⟨-, herror, -⟩ | ⟨before, l, after, hfirst, hpoints, -, hlater⟩⟩ :=
      parse_refuses_first hoperand
    · exact nomatch herror
    · obtain rfl := hscan hls
      obtain ⟨token, start, stop⟩ := l
      rcases hpoints.kind with ⟨c, -, herror⟩ | ⟨-, herror⟩
      · exact nomatch herror
      · obtain ⟨rfl, rfl, rfl⟩ := ParseError.unexpectedToken.inj herror
        exact ⟨before, after, hfirst, hlater⟩
  · obtain ⟨ls, hls, ⟨hviable, -, -⟩ | ⟨before, l, after, -, hpoints, -, -⟩⟩ :=
      parse_refuses_first hend
    · obtain rfl := hscan hls
      exact hviable _ (List.prefix_refl _)
    · rcases hpoints.kind with ⟨c, -, herror⟩ | ⟨-, herror⟩
      · exact nomatch herror
      · exact nomatch herror

/-- Of the two spellings of a conjunction the error has the canonical one. -/
example : parse "p && && q" = .error (.unexpectedToken (.binary .and) 5 7) ∧
    (ParseError.unexpectedToken (.binary .and) 5 7).token? = some "&" := ⟨rfl, rfl⟩

end ProcessLogic.Formula
