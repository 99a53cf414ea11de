import ProcessLogic.Text.Lexeme

/-!
# Tokens of automaton descriptions

Descriptions are written in a small dialect of the Graphviz language. Blanks and `//` comments
separate tokens. A quoted string runs to the next quote that no backslash precedes, and a
backslash takes the character after it literally; a quote that is never closed is a stray
character.
-/

namespace ProcessLogic.Description

open Text

/-- Tokens of a description. -/
inductive Token
  | digraph
  | node
  | edge
  | ident (name : String)
  | str (content : String)
  | openBrace
  | closeBrace
  | openBracket
  | closeBracket
  | semicolon
  | comma
  | equals
  | arrow
  | stray (c : Char)
  deriving DecidableEq

namespace Token

/-- The blanks that separate tokens. -/
def isSpace (c : Char) : Bool := c == ' ' || c == '\t' || c == '\r' || c == '\n'

/-- The characters of an identifier: ASCII letters and digits, underscores and points. -/
def isIdentChar (c : Char) : Bool := c.isAlphanum || c == '_' || c == '.'

/-- The token of a word: one of three keywords, else an identifier. -/
def ofWord (name : String) : Token :=
  if name = "digraph" then .digraph
  else if name = "node" then .node
  else if name = "edge" then .edge
  else .ident name

/-- The content of a quoted string after its opening quote, and how many characters of the
text it takes with its closing quote; nothing if the text ends first. -/
def stringBody : Nat → List Char → List Char → Option (List Char × Nat)
  | _, _, [] => none
  | taken, content, '"' :: _ => some (content.reverse, taken + 1)
  | _, _, ['\\'] => none
  | taken, content, '\\' :: c :: cs => stringBody (taken + 2) (c :: content) cs
  | taken, content, c :: cs => stringBody (taken + 1) (c :: content) cs

/-- Reads the first token of `c :: cs`. -/
def read : Reader Token := fun c cs =>
  if isSpace c then (none, (cs.takeWhile isSpace).length)
  else if isIdentChar c then
    let rest := cs.takeWhile isIdentChar
    (some (ofWord (.ofList (c :: rest))), rest.length)
  else
    match c with
    | '\x7b' => (some .openBrace, 0)
    | '\x7d' => (some .closeBrace, 0)
    | '[' => (some .openBracket, 0)
    | ']' => (some .closeBracket, 0)
    | ';' => (some .semicolon, 0)
    | ',' => (some .comma, 0)
    | '=' => (some .equals, 0)
    | '-' => if cs.head? = some '>' then (some .arrow, 1) else (some (.stray '-'), 0)
    | '/' =>
      if cs.head? = some '/' then (none, (cs.takeWhile (· != '\n')).length)
      else (some (.stray '/'), 0)
    | '"' =>
      match stringBody 0 [] cs with
      | some (content, taken) => (some (.str (.ofList content)), taken)
      | none => (some (.stray '"'), 0)
    | c => (some (.stray c), 0)

/-- The tokens of a text with their spans. -/
def scan (text : String) : List (Lexeme Token) := lexemes read text.toList

end Token

/-- Kinds of tokens, by which the parser says what it expects. -/
inductive TokenKind
  | arrow
  | comma
  | digraph
  | edge
  | equals
  | ident
  | leftBrace
  | leftBracket
  | node
  | rightBrace
  | rightBracket
  | semicolon
  | str
  | endOfText
  deriving DecidableEq

/-- The kind of a token; a stray character has none. -/
def Token.kind? : Token → Option TokenKind
  | .digraph => some .digraph
  | .node => some .node
  | .edge => some .edge
  | .ident _ => some .ident
  | .str _ => some .str
  | .openBrace => some .leftBrace
  | .closeBrace => some .rightBrace
  | .openBracket => some .leftBracket
  | .closeBracket => some .rightBracket
  | .semicolon => some .semicolon
  | .comma => some .comma
  | .equals => some .equals
  | .arrow => some .arrow
  | .stray _ => none

/-- How messages name a kind. -/
def TokenKind.title : TokenKind → String
  | .arrow => "Arrow"
  | .comma => "Comma"
  | .digraph => "Digraph"
  | .edge => "Edge"
  | .equals => "Equals"
  | .ident => "Ident"
  | .leftBrace => "LBrace"
  | .leftBracket => "LBracket"
  | .node => "Node"
  | .rightBrace => "RBrace"
  | .rightBracket => "RBracket"
  | .semicolon => "Semi"
  | .str => "Str"
  | .endOfText => "end of file"

end ProcessLogic.Description
