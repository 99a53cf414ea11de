import ProcessLogic.Formula.Basic
import ProcessLogic.Text.Lexeme

/-!
# Tokens of formula texts

The lexer takes the longest token that starts at a place. Constants are words, in small
letters, in capitals or capitalised; operators have letters or signs, some of them two
spellings; a character with which nothing starts is a token of its own, so that lexing never
fails and the parser meets the character only when it gets there.
-/

namespace ProcessLogic.Formula

open Text

/-- Tokens of a formula text. -/
inductive Token
  | ident (name : String)
  | openParen
  | closeParen
  | const (value : Bool)
  | unary (op : PrefixOp)
  | binary (op : BinaryOp)
  | stray (c : Char)
  deriving DecidableEq

namespace Token

/-- The canonical spelling. -/
def spelling : Token → String
  | .ident name => name
  | .openParen => "("
  | .closeParen => ")"
  | .const true => "true"
  | .const false => "false"
  | .unary op => op.sign
  | .binary op => op.sign
  | .stray c => String.singleton c

/-- The blanks that separate tokens. -/
def isSpace (c : Char) : Bool := c == ' ' || c == '\t' || c == '\r' || c == '\n'

/-- Identifiers start with a small ASCII letter or an underscore. -/
def startsIdent (c : Char) : Bool := ('a' ≤ c && c ≤ 'z') || c == '_'

/-- Identifiers go on with small ASCII letters, underscores and digits. -/
def continuesIdent (c : Char) : Bool := startsIdent c || ('0' ≤ c && c ≤ '9')

/-- A name is an identifier: this is the form that propositions have in a text. -/
def isIdent (name : String) : Bool :=
  match name.toList with
  | [] => false
  | c :: cs => startsIdent c && cs.all continuesIdent

/-- The token of a word in small letters: the two constants, else an identifier. -/
def ofWord (name : String) : Token :=
  if name = "true" then .const true
  else if name = "false" then .const false
  else .ident name

/-- Reads the first token of `c :: cs`. -/
def read : Reader Token := fun c cs =>
  if isSpace c then (none, (cs.takeWhile isSpace).length)
  else if startsIdent c then
    let rest := cs.takeWhile continuesIdent
    (some (ofWord (.ofList (c :: rest))), rest.length)
  else
    match c with
    | '(' => (some .openParen, 0)
    | ')' => (some .closeParen, 0)
    | '!' => (some (.unary .not), 0)
    | '~' => (some (.unary .not), 0)
    | '&' => (some (.binary .and), if cs.head? = some '&' then 1 else 0)
    | '|' => (some (.binary .or), if cs.head? = some '|' then 1 else 0)
    | '-' => if cs.head? = some '>' then (some (.binary .implies), 1) else (some (.stray '-'), 0)
    | '<' =>
      if ['-', '>'].isPrefixOf cs then (some (.binary .equiv), 2) else (some (.stray '<'), 0)
    | 'X' => (some (.unary .next), 0)
    | 'G' => (some (.unary .always), 0)
    | 'U' => (some (.binary .until), 0)
    | 'R' => (some (.binary .release), 0)
    | 'W' =>
      if cs.head? = some 'X' then (some (.unary .weakNext), 1)
      else (some (.binary .weakUntil), 0)
    | 'T' =>
      if ['r', 'u', 'e'].isPrefixOf cs || ['R', 'U', 'E'].isPrefixOf cs then
        (some (.const true), 3)
      else (some (.stray 'T'), 0)
    | 'F' =>
      if ['a', 'l', 's', 'e'].isPrefixOf cs || ['A', 'L', 'S', 'E'].isPrefixOf cs then
        (some (.const false), 4)
      else (some (.unary .eventually), 0)
    | c => (some (.stray c), 0)

/-- The tokens of a text with their spans. -/
def scan (text : String) : List (Lexeme Token) := lexemes read text.toList

end Token

end ProcessLogic.Formula
