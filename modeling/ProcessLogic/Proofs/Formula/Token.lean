import ProcessLogic.Formula.Token
import ProcessLogic.Proofs.Text.Lexeme

/-!
# Reading formula texts

A closing parenthesis ends whatever token stands before it, so a text in parentheses is read as
it is read alone. A name that is no constant is read as one token.
-/

namespace ProcessLogic.Formula

open Text

/-- A name is an identifier and no constant. -/
structure IsName (name : String) : Prop where
  isIdent : Token.isIdent name = true
  ne_true : name ≠ "true"
  ne_false : name ≠ "false"

namespace Token

/-- An identifier is a first character and others that go on with it. -/
theorem isIdent_iff {name : String} : isIdent name = true ↔
    ∃ c cs, name.toList = c :: cs ∧ startsIdent c = true ∧ ∀ d ∈ cs, continuesIdent d = true := by
  rw [isIdent]
  cases hname : name.toList with
  | nil => simp
  | cons c cs =>
      rw [Bool.and_eq_true, List.all_eq_true]
      constructor
      · exact fun h => ⟨c, cs, rfl, h⟩
      · rintro ⟨_, _, heq, h⟩
        obtain ⟨rfl, rfl⟩ := List.cons.inj heq
        exact h

theorem isSpace_eq_false_of_startsIdent {c : Char} (h : startsIdent c = true) :
    isSpace c = false := by
  rw [Bool.eq_false_iff, ne_eq, isSpace]
  simp only [Bool.or_eq_true, beq_iff_eq]
  rintro (((rfl | rfl) | rfl) | rfl) <;> exact absurd h (by decide)

theorem read_space {c : Char} (h : isSpace c = true) (cs : List Char) :
    read c cs = (none, (cs.takeWhile isSpace).length) := by
  unfold read
  rw [if_pos h]

theorem read_word {c : Char} (h : startsIdent c = true) (cs : List Char) :
    read c cs = (some (ofWord (.ofList (c :: cs.takeWhile continuesIdent))),
      (cs.takeWhile continuesIdent).length) := by
  unfold read
  rw [if_neg (by simp [isSpace_eq_false_of_startsIdent h]), if_pos h]

@[simp] theorem tokens_blank_cons (cs : List Char) : tokens read (' ' :: cs) = tokens read cs :=
  tokens_blank (fun _ cs hc => read_space hc cs) rfl cs

@[simp] theorem tokens_openParen (cs : List Char) :
    tokens read ('(' :: cs) = .openParen :: tokens read cs :=
  tokens_sign (fun _ => rfl) cs

@[simp] theorem tokens_closeParen (cs : List Char) :
    tokens read (')' :: cs) = .closeParen :: tokens read cs :=
  tokens_sign (fun _ => rfl) cs

@[simp] theorem tokens_not (cs : List Char) :
    tokens read ('!' :: cs) = .unary .not :: tokens read cs :=
  tokens_sign (fun _ => rfl) cs

@[simp] theorem tokens_next (cs : List Char) :
    tokens read ('X' :: cs) = .unary .next :: tokens read cs :=
  tokens_sign (fun _ => rfl) cs

@[simp] theorem tokens_always (cs : List Char) :
    tokens read ('G' :: cs) = .unary .always :: tokens read cs :=
  tokens_sign (fun _ => rfl) cs

@[simp] theorem tokens_until (cs : List Char) :
    tokens read ('U' :: cs) = .binary .until :: tokens read cs :=
  tokens_sign (fun _ => rfl) cs

@[simp] theorem tokens_weakNext (cs : List Char) :
    tokens read ('W' :: 'X' :: cs) = .unary .weakNext :: tokens read cs :=
  tokens_of_read 1 rfl

@[simp] theorem tokens_eventually (cs : List Char) :
    tokens read ('F' :: '(' :: cs) = .unary .eventually :: .openParen :: tokens read cs := by
  rw [tokens_of_read 0 (t := .unary .eventually) rfl, List.drop_zero, tokens_openParen]

/-- A token that a blank ends. -/
theorem tokens_append_blank {c : Char} (word : List Char) {cs : List Char} {t : Token}
    (h : read c (word ++ ' ' :: cs) = (some t, word.length)) :
    tokens read (c :: word ++ ' ' :: cs) = t :: tokens read cs := by
  rw [List.cons_append, tokens_of_read _ h, List.drop_left, tokens_blank_cons]

@[simp] theorem tokens_and (cs : List Char) :
    tokens read ('&' :: ' ' :: cs) = .binary .and :: tokens read cs :=
  tokens_append_blank [] rfl

@[simp] theorem tokens_or (cs : List Char) :
    tokens read ('|' :: ' ' :: cs) = .binary .or :: tokens read cs :=
  tokens_append_blank [] rfl

@[simp] theorem tokens_implies (cs : List Char) :
    tokens read ('-' :: '>' :: cs) = .binary .implies :: tokens read cs :=
  tokens_of_read 1 rfl

/-- A word is read as one token if the text does not go on with it. -/
theorem tokens_word_append {c : Char} (word : List Char) {cs : List Char}
    (hc : startsIdent c = true) (hword : ∀ d ∈ word, continuesIdent d = true)
    (hcs : Stops continuesIdent cs) :
    tokens read (c :: (word ++ cs)) = ofWord (.ofList (c :: word)) :: tokens read cs :=
  tokens_word (fun w => ofWord (.ofList w)) (read_word hc) hword hcs

/-- A name is read as one token if the text does not go on with it. -/
theorem tokens_name_append {name : String} (h : IsName name) {cs : List Char}
    (hcs : Stops continuesIdent cs) :
    tokens read (name.toList ++ cs) = .ident name :: tokens read cs := by
  obtain ⟨c, rest, hname, hc, hrest⟩ := isIdent_iff.mp h.isIdent
  rw [hname, List.cons_append, tokens_word_append rest hc hrest hcs, ← hname, String.ofList_toList,
    ofWord, if_neg h.ne_true, if_neg h.ne_false]

/-- A name before a closing parenthesis is read as itself. -/
theorem tokens_name_closeParen {name : String} (h : IsName name) (cs : List Char) :
    tokens read (name.toList ++ ')' :: cs) = .ident name :: .closeParen :: tokens read cs := by
  rw [tokens_name_append h (stops_cons rfl), tokens_closeParen]

theorem tokens_name_blank {name : String} (h : IsName name) (cs : List Char) :
    tokens read (name.toList ++ ' ' :: cs) = .ident name :: tokens read cs := by
  rw [tokens_name_append h (stops_cons rfl), tokens_blank_cons]

/-- A name at the end of a text is read as itself. -/
theorem tokens_name {name : String} (h : IsName name) :
    tokens read name.toList = [.ident name] := by
  rw [← List.append_nil name.toList, tokens_name_append h stops_nil, tokens_nil]

/-- No more is read than there is. -/
theorem read_le (c : Char) (cs : List Char) : (read c cs).2 ≤ cs.length := by
  have hhead : ∀ d, cs.head? = some d → 1 ≤ cs.length := by
    intro d hd
    obtain ⟨rest, rfl⟩ := List.head?_eq_some_iff.mp hd
    exact Nat.le_add_left 1 _
  have hprefix : ∀ word : List Char, word.isPrefixOf cs = true → word.length ≤ cs.length :=
    fun word hw => (List.isPrefixOf_iff_prefix.mp hw).length_le
  have hspace := (List.takeWhile_sublist isSpace (l := cs)).length_le
  have hword := (List.takeWhile_sublist continuesIdent (l := cs)).length_le
  unfold read
  split
  · exact hspace
  split
  · exact hword
  -- a sign takes only characters that it has looked at
  split <;> (try split) <;> simp_all
  · exact hprefix ['-', '>'] ‹_›
  · rename_i h
    rcases h with h | h
    · exact hprefix ['r', 'u', 'e'] h
    · exact hprefix ['R', 'U', 'E'] h
  · rename_i h
    rcases h with h | h
    · exact hprefix ['a', 'l', 's', 'e'] h
    · exact hprefix ['A', 'L', 'S', 'E'] h

/-- A closing parenthesis ends every token. -/
theorem local_closeParen : Local read ')' := by
  intro c x y
  have hspace := takeWhile_append_cons (p := isSpace) (d := ')') rfl x y
  have hword := takeWhile_append_cons (p := continuesIdent) (d := ')') rfl x y
  constructor
  · unfold read
    simp only [hspace, hword, head?_append_cons (show ')' ≠ '&' by decide),
      head?_append_cons (show ')' ≠ '|' by decide), head?_append_cons (show ')' ≠ '>' by decide),
      head?_append_cons (show ')' ≠ 'X' by decide),
      isPrefixOf_append_cons (show ')' ∉ ['-', '>'] by decide),
      isPrefixOf_append_cons (show ')' ∉ ['r', 'u', 'e'] by decide),
      isPrefixOf_append_cons (show ')' ∉ ['R', 'U', 'E'] by decide),
      isPrefixOf_append_cons (show ')' ∉ ['a', 'l', 's', 'e'] by decide),
      isPrefixOf_append_cons (show ')' ∉ ['A', 'L', 'S', 'E'] by decide)]
  · exact read_le c x

end Token

end ProcessLogic.Formula
