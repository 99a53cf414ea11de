import ProcessLogic.Description.Grammar
import ProcessLogic.Description.Writer
import ProcessLogic.Proofs.Text.Lexeme

/-!
# Written names are read back

An identifier is read up to the first character that cannot be part of one, and a quoted text up
to its closing quote, where every backslash is dropped. So a name, quoted or not, is read as
one token that stands for it, if what follows it in the text does not go on with it.
-/

namespace ProcessLogic.Description

open Text

/-- The characters of an escaped text. -/
def escaped (s : List Char) : List Char :=
  s.flatMap fun c => if c = '"' || c = '\\' then ['\\', c] else [c]

/-- A quoted name is its escaped characters between quotes. -/
theorem toList_inQuotes (s : String) :
    (inQuotes s).toList = '"' :: (escaped s.toList ++ ['"']) := by
  simp [inQuotes, escape, escaped]

/-- A quote or a backslash is written with a backslash in front. -/
theorem escaped_cons_of_special {c : Char} (h : c = '"' ∨ c = '\\') (s : List Char) :
    escaped (c :: s) = '\\' :: c :: escaped s := by
  simp [escaped, h]

theorem escaped_cons_of_plain {c : Char} (h : ¬ (c = '"' ∨ c = '\\')) (s : List Char) :
    escaped (c :: s) = c :: escaped s := by
  simp [escaped, h]

namespace Token

theorem isSpace_eq_false_of_isIdentChar {c : Char} (h : isIdentChar c = true) :
    isSpace c = false := by
  rw [Bool.eq_false_iff, ne_eq, isSpace]
  simp only [Bool.or_eq_true, beq_iff_eq]
  rintro (((rfl | rfl) | rfl) | rfl) <;> exact absurd h (by decide)

theorem read_space {c : Char} (h : isSpace c = true) (cs : List Char) :
    read c cs = (none, (cs.takeWhile isSpace).length) := by
  unfold read
  rw [if_pos h]

/-- A word is read as far as it goes. -/
theorem read_word {c : Char} (h : isIdentChar c = true) (cs : List Char) :
    read c cs = (some (ofWord (.ofList (c :: cs.takeWhile isIdentChar))),
      (cs.takeWhile isIdentChar).length) := by
  unfold read
  rw [if_neg (by simp [isSpace_eq_false_of_isIdentChar h]), if_pos h]

/-- Blanks are skipped. -/
theorem tokens_space {c : Char} (h : isSpace c = true) (cs : List Char) :
    tokens read (c :: cs) = tokens read cs :=
  tokens_blank (fun _ cs hc => read_space hc cs) h cs

@[simp] theorem tokens_blank_cons (cs : List Char) : tokens read (' ' :: cs) = tokens read cs :=
  tokens_space rfl cs

@[simp] theorem tokens_newline_cons (cs : List Char) :
    tokens read ('\n' :: cs) = tokens read cs :=
  tokens_space rfl cs

@[simp] theorem tokens_openBrace (cs : List Char) :
    tokens read ('\x7b' :: cs) = .openBrace :: tokens read cs :=
  tokens_sign (fun _ => rfl) cs

@[simp] theorem tokens_closeBrace (cs : List Char) :
    tokens read ('\x7d' :: cs) = .closeBrace :: tokens read cs :=
  tokens_sign (fun _ => rfl) cs

@[simp] theorem tokens_openBracket (cs : List Char) :
    tokens read ('[' :: cs) = .openBracket :: tokens read cs :=
  tokens_sign (fun _ => rfl) cs

@[simp] theorem tokens_closeBracket (cs : List Char) :
    tokens read (']' :: cs) = .closeBracket :: tokens read cs :=
  tokens_sign (fun _ => rfl) cs

@[simp] theorem tokens_semicolon (cs : List Char) :
    tokens read (';' :: cs) = .semicolon :: tokens read cs :=
  tokens_sign (fun _ => rfl) cs

@[simp] theorem tokens_comma (cs : List Char) :
    tokens read (',' :: cs) = .comma :: tokens read cs :=
  tokens_sign (fun _ => rfl) cs

@[simp] theorem tokens_equals (cs : List Char) :
    tokens read ('=' :: cs) = .equals :: tokens read cs :=
  tokens_sign (fun _ => rfl) cs

@[simp] theorem tokens_arrow (cs : List Char) :
    tokens read ('-' :: '>' :: cs) = .arrow :: tokens read cs :=
  tokens_of_read 1 rfl

/-- A text is read as some tokens, whatever follows it. -/
def Reads (text : String) (ts : List Token) : Prop :=
  ∀ cs, tokens read (text.toList ++ cs) = ts ++ tokens read cs

/-- A text is read as some tokens, if no character of an identifier follows it. -/
def ReadsBefore (text : String) (ts : List Token) : Prop :=
  ∀ cs, Stops isIdentChar cs → tokens read (text.toList ++ cs) = ts ++ tokens read cs

/-- What is read before any text is read before one that does not continue a word. -/
theorem Reads.before {text : String} {ts : List Token} (h : Reads text ts) :
    ReadsBefore text ts :=
  fun cs _ => h cs

/-- A reading can be restated for an equal text and equal tokens. -/
theorem Reads.of_eq {text text' : String} {ts ts' : List Token} (h : Reads text ts)
    (htext : text' = text) (hts : ts' = ts) : Reads text' ts' := by
  rwa [htext, hts]

/-- Texts that are read whatever follows can be joined. -/
theorem Reads.append {text text' : String} {ts us : List Token} (h : Reads text ts)
    (h' : Reads text' us) : Reads (text ++ text') (ts ++ us) := by
  intro cs
  rw [String.toList_append, List.append_assoc, h, h', List.append_assoc]

/-- A text that does not start with a character of an identifier may follow any other. -/
theorem ReadsBefore.append {text text' : String} {ts us : List Token} (h : ReadsBefore text ts)
    (h' : Reads text' us) (hstop : text'.toList.head?.any (!isIdentChar ·) = true) :
    Reads (text ++ text') (ts ++ us) := by
  intro cs
  obtain ⟨c, hc, hident⟩ := (Option.any_eq_true _ _).mp hstop
  obtain ⟨rest, hrest⟩ := List.head?_eq_some_iff.mp hc
  have hstops : Stops isIdentChar (text'.toList ++ cs) := by
    rw [hrest]
    exact stops_cons (by simpa using hident)
  rw [String.toList_append, List.append_assoc, h _ hstops, h', List.append_assoc]

/-- The last of the texts joined may need the end of a word after it. -/
theorem Reads.append_before {text text' : String} {ts us : List Token} (h : Reads text ts)
    (h' : ReadsBefore text' us) : ReadsBefore (text ++ text') (ts ++ us) := by
  intro cs hcs
  rw [String.toList_append, List.append_assoc, h, h' cs hcs, List.append_assoc]

/-- An identifier or a keyword ends before the first other character. -/
theorem readsBefore_word {word : String} (hne : word ≠ "")
    (hw : word.toList.all isIdentChar = true) : ReadsBefore word [ofWord word] := by
  intro cs hcs
  cases hl : word.toList with
  | nil => exact absurd (String.toList_eq_nil_iff.mp hl) hne
  | cons c rest =>
      rw [hl, List.all_cons, Bool.and_eq_true] at hw
      have hrest := List.all_eq_true.mp hw.2
      rw [List.cons_append,
        tokens_word (fun w => ofWord (.ofList w)) (read_word hw.1) hrest hcs, ← hl,
        String.ofList_toList]
      rfl

/-- The backslashes that escaping adds are dropped, and the text ends at the first quote that
is not escaped. -/
theorem stringBody_escaped (taken : Nat) (content s cs : List Char) :
    stringBody taken content (escaped s ++ '"' :: cs) =
      some (content.reverse ++ s, taken + (escaped s).length + 1) := by
  induction s generalizing taken content with
  | nil => simp [stringBody, escaped]
  | cons c s ih =>
      by_cases hc : c = '"' ∨ c = '\\'
      · rw [escaped_cons_of_special hc, List.cons_append, List.cons_append, stringBody, ih]
        simp only [List.reverse_cons, List.append_assoc, List.singleton_append, List.length_cons]
        congr 2
        omega
      · obtain ⟨hquote, hslash⟩ := not_or.mp hc
        rw [escaped_cons_of_plain hc, List.cons_append, stringBody, ih]
        · simp only [List.reverse_cons, List.append_assoc, List.singleton_append,
            List.length_cons]
          congr 2
          omega
        · exact hquote
        · exact fun h _ => hslash h
        · exact fun d ds h _ => hslash h

/-- A quoted text stands for itself, whatever its characters. -/
theorem reads_inQuotes (s : String) : Reads (inQuotes s) [.str s] := by
  intro cs
  have hbody := stringBody_escaped 0 [] s.toList cs
  rw [List.reverse_nil, List.nil_append, Nat.zero_add] at hbody
  have hread : read '"' (escaped s.toList ++ '"' :: cs) =
      (some (.str s), (escaped s.toList).length + 1) := by
    unfold read
    rw [if_neg (by decide), if_neg (by decide)]
    simp only [hbody, String.ofList_toList]
  rw [toList_inQuotes, List.cons_append, List.append_assoc, List.singleton_append,
    tokens_of_read _ hread, List.drop_length_add_append]
  rfl

end Token

/-- The token as which a name is written. -/
def nameToken (name : String) : Token := if isPlain name then .ident name else .str name

/-- The token of a name stands for the name. -/
theorem named_nameToken (name : String) : Named (nameToken name) name := by
  unfold nameToken
  split
  · exact .ident name
  · exact .str name

/-- A written name is one token that stands for it. -/
theorem readsBefore_writeName (name : String) :
    Token.ReadsBefore (writeName name) [nameToken name] := by
  unfold writeName nameToken
  by_cases h : isPlain name = true
  · rw [if_pos h, if_pos h]
    simp only [isPlain, Bool.and_eq_true, Bool.not_eq_true'] at h
    obtain ⟨⟨hne, hall⟩, hword⟩ := h
    have hne' : name ≠ "" := by
      rintro rfl
      exact absurd hne (by decide)
    simp only [List.contains_cons, List.contains_nil, Bool.or_eq_false_iff,
      beq_eq_false_iff_ne] at hword
    have hident : Token.ofWord name = .ident name := by
      rw [Token.ofWord, if_neg hword.1, if_neg hword.2.1, if_neg hword.2.2.1]
    rw [← hident]
    exact Token.readsBefore_word hne' hall
  · rw [if_neg h, if_neg h]
    exact (Token.reads_inQuotes name).before

end ProcessLogic.Description
