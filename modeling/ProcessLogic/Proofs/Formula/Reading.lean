import ProcessLogic.Proofs.Formula.Lexicon
import ProcessLogic.Proofs.Formula.Precedence

/-!
# Reading and printing formulas

A text is read as a formula exactly if its tokens, as the lexical rules find them, are a sentence
for the formula. The printed form of a formula is such a text, if its propositions have names
that are read as identifiers; and the propositions of every formula that is read have such names.
-/

namespace ProcessLogic.Formula

open Text

variable {f : Formula} {ts : List Token}

/-- The reader finds the tokens that the lexical rules find. -/
theorem tokenizes_iff {text : String} :
    Tokenizes Token.rules text.toList ts ↔ ts = tokens Token.read text.toList :=
  Token.implements_read.tokenizes_iff

/-- A text has exactly one sequence of longest matches, it is read as the formulas that the
grammar derives from this sequence, and from no sequence the grammar derives two formulas. -/
theorem parse_exact (text : String) :
    (∃ ts, ∀ us, Tokenizes Token.rules text.toList us ↔ us = ts) ∧
    (∀ f, parse text = .ok f ↔ ∃ ts, Tokenizes Token.rules text.toList ts ∧ Sentence ts f) ∧
    ∀ ts f g, Sentence ts f → Sentence ts g → f = g := by
  refine ⟨⟨_, fun us => tokenizes_iff⟩, fun f => ?_, fun ts f g => Sentence.unique⟩
  rw [parse_eq_ok_iff_sentence]
  constructor
  · exact fun h => ⟨_, tokenizes_iff.mpr rfl, h⟩
  · rintro ⟨ts, hts, h⟩
    rwa [← tokenizes_iff.mp hts]

/-- Keywords inside names, both spellings of an operator and all levels of binding. -/
theorem parse_exact_mixed : ∃ ts,
    Tokenizes Token.rules "trueish|!a U b W c&&Xd->F false<->(e)".toList ts ∧
    ∀ g, Sentence ts g → g = .binary .equiv
      (.binary .implies
        (.binary .or (.prop "trueish")
          (.binary .and
            (.binary .until (.unary .not (.prop "a")) (.binary .weakUntil (.prop "b") (.prop "c")))
            (.unary .next (.prop "d"))))
        (.unary .eventually (.const false)))
      (.prop "e") := by
  obtain ⟨-, hparse, hunique⟩ := parse_exact "trueish|!a U b W c&&Xd->F false<->(e)"
  obtain ⟨ts, hts, hsentence⟩ := (hparse _).mp rfl
  exact ⟨ts, hts, fun g hg => hunique ts g _ hg hsentence⟩

/-- `->` and `<->` group to the right. -/
example : parse "a -> b -> c" =
    .ok (.binary .implies (.prop "a") (.binary .implies (.prop "b") (.prop "c"))) := rfl

example : parse "a <-> b <-> c" =
    .ok (.binary .equiv (.prop "a") (.binary .equiv (.prop "b") (.prop "c"))) := rfl

/-- `|` and `&` group to the left, and `R` binds tighter than both. -/
example : parse "a | b | c" =
    .ok (.binary .or (.binary .or (.prop "a") (.prop "b")) (.prop "c")) := rfl

example : parse "a & b R c & d" =
    .ok (.binary .and (.binary .and (.prop "a") (.binary .release (.prop "b") (.prop "c")))
      (.prop "d")) := rfl

/-! ### Printing -/

/-- The tokens of the printed form. -/
def printed : Formula → List Token
  | .const value => [.const value]
  | .prop name => [.ident name]
  | .unary op body => .unary op :: body.printed
  | .binary op left right =>
    .openParen :: (left.printed ++ .binary op :: right.printed) ++ [.closeParen]

/-- The tokens of the printed form derive the formula at the tightest level. -/
theorem derives_printed (f : Formula) : Derives 5 f.printed f := by
  induction f with
  | const value => exact .const value
  | prop name => exact .ident name
  | unary op p ih => exact .unary op ih
  | binary op p q ihp ihq =>
      have hboth : Derives op.level (p.printed ++ .binary op :: q.printed) (.binary op p q) :=
        Derives.binary op (ihp.loosen op.leftLevel_le) (ihq.loosen op.rightLevel_le)
      exact .paren (hboth.loosen (Nat.zero_le _))

namespace Token

/-- A printed constant is read as such unless an identifier goes on after it. -/
theorem tokens_const_append (value : Bool) {cs : List Char} (hcs : Stops continuesIdent cs) :
    tokens read ((Formula.const value).print.toList ++ cs) = .const value :: tokens read cs := by
  cases value with
  | true => exact tokens_word_append ['r', 'u', 'e'] rfl (List.all_eq_true.mp rfl) hcs
  | false => exact tokens_word_append ['a', 'l', 's', 'e'] rfl (List.all_eq_true.mp rfl) hcs

/-- A prefix operator is set off from its operand. -/
theorem tokens_lead_append (op : PrefixOp) (cs : List Char) :
    tokens read ((lead op).toList ++ cs) = .unary op :: tokens read cs := by
  cases op with
  | not => exact tokens_not cs
  | next => exact tokens_append_blank [] rfl
  | weakNext => exact tokens_append_blank ['X'] rfl
  | always => exact tokens_append_blank [] rfl
  | eventually => exact tokens_append_blank [] rfl

/-- A binary operator is set off from both its operands. -/
theorem tokens_sign_append (op : BinaryOp) (cs : List Char) :
    tokens read (op.sign.toList ++ ' ' :: cs) = .binary op :: tokens read cs := by
  cases op with
  | and => exact tokens_append_blank [] rfl
  | or => exact tokens_append_blank [] rfl
  | implies => exact tokens_append_blank ['>'] rfl
  | equiv => exact tokens_append_blank ['-', '>'] rfl
  | «until» => exact tokens_append_blank [] rfl
  | release => exact tokens_append_blank [] rfl
  | weakUntil => exact tokens_append_blank [] rfl

end Token

/-- The printed form is read token by token, whatever stands after it, if that does not go on with
a name. -/
theorem tokens_print_append (hnames : ∀ name ∈ f.occurrences, IsName name) {cs : List Char}
    (hcs : Stops Token.continuesIdent cs) :
    tokens Token.read (f.print.toList ++ cs) = f.printed ++ tokens Token.read cs := by
  induction f generalizing cs with
  | const value => exact Token.tokens_const_append value hcs
  | prop name => exact Token.tokens_name_append (hnames name List.mem_cons_self) hcs
  | unary op p ih =>
      rw [print, String.toList_append, List.append_assoc, Token.tokens_lead_append, ih hnames hcs]
      rfl
  | binary op p q ihp ihq =>
      have hp : ∀ rest, tokens Token.read (p.print.toList ++ ' ' :: rest) =
          p.printed ++ tokens Token.read (' ' :: rest) :=
        fun rest => ihp (fun name h => hnames name (List.mem_append_left _ h)) (stops_cons rfl)
      have hq : tokens Token.read (q.print.toList ++ ')' :: cs) =
          q.printed ++ tokens Token.read (')' :: cs) :=
        ihq (fun name h => hnames name (List.mem_append_right _ h)) (stops_cons rfl)
      have hchars : (binary op p q).print.toList ++ cs = '(' :: (p.print.toList ++
          ' ' :: (op.sign.toList ++ ' ' :: (q.print.toList ++ ')' :: cs))) := by
        simp [print]
      rw [hchars, Token.tokens_openParen, hp, Token.tokens_blank_cons, Token.tokens_sign_append, hq,
        Token.tokens_closeParen]
      simp [printed]

/-- A formula whose propositions are names is read back from its printed form. -/
theorem parse_print_of_isName (h : ∀ name ∈ f.occurrences, IsName name) :
    parse f.print = .ok f := by
  have htokens := tokens_print_append h stops_nil
  rw [List.append_nil, tokens_nil, List.append_nil] at htokens
  rw [parse_eq_ok_iff_sentence, htokens]
  exact f.derives_printed.loosen (Nat.zero_le 5)

/-! ### The names in formulas that are read -/

/-- The propositions of a derived formula are identifiers among the tokens. -/
theorem ident_mem_of_derives {n : Nat} (h : Derives n ts f) {name : String}
    (hname : name ∈ f.occurrences) : .ident name ∈ ts := by
  induction h with
  | ident other =>
      obtain rfl := List.mem_singleton.mp hname
      exact List.mem_cons_self
  | const value => exact nomatch hname
  | paren _ ih => exact List.mem_append_left _ (List.mem_cons_of_mem _ (ih hname))
  | unary op _ ih => exact List.mem_cons_of_mem _ (ih hname)
  | right op _ _ _ ihts ihus =>
      rcases List.mem_append.mp hname with hleft | hright
      · exact List.mem_append_left _ (ihts hleft)
      · exact List.mem_append_right _ (List.mem_cons_of_mem _ (ihus hright))
  | left op _ _ _ ihts ihus =>
      rcases List.mem_append.mp hname with hleft | hright
      · exact List.mem_append_left _ (ihts hleft)
      · exact List.mem_append_right _ (List.mem_cons_of_mem _ (ihus hright))
  | lift _ _ _ ih => exact ih hname

/-- A word that is read as an identifier is that name, and no constant. -/
theorem Token.ofWord_eq_ident {word name : String} (h : ofWord word = .ident name) :
    word = name ∧ name ≠ "true" ∧ name ≠ "false" := by
  unfold ofWord at h
  split at h
  · exact nomatch h
  rename_i htrue
  split at h
  · exact nomatch h
  rename_i hfalse
  obtain rfl := Token.ident.inj h
  exact ⟨rfl, htrue, hfalse⟩

/-- What is read as an identifier is a name. -/
theorem isName_of_read {c : Char} {cs : List Char} {name : String}
    (h : (Token.read c cs).1 = some (.ident name)) : IsName name := by
  by_cases hspace : Token.isSpace c = true
  · rw [Token.read_space hspace] at h
    exact nomatch h
  by_cases hident : Token.startsIdent c = true
  · rw [Token.read_word hident] at h
    obtain ⟨rfl, htrue, hfalse⟩ := Token.ofWord_eq_ident (Option.some.inj h)
    have hrest : ∀ d ∈ cs.takeWhile Token.continuesIdent, Token.continuesIdent d = true :=
      fun _ => List.mem_takeWhile_imp
    exact ⟨Token.isIdent_iff.mpr ⟨c, _, String.toList_ofList, hident, hrest⟩, htrue, hfalse⟩
  · unfold Token.read at h
    rw [if_neg hspace, if_neg hident] at h
    -- a sign is no identifier
    split at h <;> (try split at h) <;> cases h

/-- Only names are read as propositions. -/
theorem isName_of_parse {text : String} (h : parse text = .ok f) :
    ∀ name ∈ f.occurrences, IsName name := by
  intro name hname
  have hsentence := parse_eq_ok_iff_sentence.mp h
  obtain ⟨c, cs, -, hread⟩ := exists_read_of_mem_tokens (ident_mem_of_derives hsentence hname)
  exact isName_of_read hread

/-- Printing and reading gives a formula back if its propositions are named by identifiers that are
no constants. The propositions of every formula that is read are. -/
theorem parse_print : (∀ f : Formula, (∀ name ∈ f.occurrences, IsName name) →
      parse f.print = .ok f) ∧
    ∀ (text : String) (f : Formula), parse text = .ok f →
      (∀ name ∈ f.occurrences, IsName name) ∧ parse f.print = .ok f := by
  refine ⟨fun f => parse_print_of_isName, fun text f h => ?_⟩
  have hnames := isName_of_parse h
  exact ⟨hnames, parse_print_of_isName hnames⟩

/-- Operators of every kind in the printed form, and a text that is not in this form. -/
theorem parse_print_mixed :
    (let f := binary .weakUntil
      (unary .eventually (binary .equiv (prop "a1") (unary .not (unary .weakNext (prop "true_")))))
      (binary .release (const false) (unary .next (prop "b")))
    f.print = "(F (a1 <-> !WX true_) W (false R X b))" ∧ parse f.print = .ok f) ∧
    parse "((a & G b) | c)" =
      .ok (binary .or (binary .and (prop "a") (unary .always (prop "b"))) (prop "c")) := by
  refine ⟨⟨rfl, parse_print.1 _ fun name h => ?_⟩, (parse_print.2 "a&&G b||c" _ rfl).2⟩
  simp only [occurrences, List.cons_append, List.nil_append, List.mem_cons, List.not_mem_nil,
    or_false] at h
  rcases h with rfl | rfl | rfl <;> exact ⟨by decide, by decide, by decide⟩

end ProcessLogic.Formula
