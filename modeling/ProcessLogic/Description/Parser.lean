import ProcessLogic.Description.Grammar
import ProcessLogic.Text.Machine

/-!
# The parser of descriptions

The grammar needs no stack: the parser is a machine whose state says what was read last and
what has been collected. A state also knows which tokens it says it expects. After a name or a
value it first names every token that may follow such a word anywhere in a description; only
when the token that came is one of those does it name what fits this very place.
-/

namespace ProcessLogic.Description

open Text

/-- To what an attribute list belongs. -/
inductive Owner
  | nodeDefaults
  | edgeDefaults
  | node (name : String)
  | edge (source target : String) (start : Nat)
  deriving DecidableEq

/-- The statement that an attribute list completes. -/
def Owner.statement (owner : Owner) (attributes : Attributes) : Statement :=
  match owner with
  | .nodeDefaults => .nodeDefaults attributes
  | .edgeDefaults => .noEffect
  | .node name => .node name attributes
  | .edge source target start => .edge source target attributes start

/-- What was read last. `isStr` tells a quoted word from a plain one. -/
inductive Place
  | start
  | digraph
  | graphName (isStr : Bool)
  | statement
  | defaults (owner : Owner)
  | word (name : String) (isStr : Bool) (start : Nat)
  | arrow (source : String) (start : Nat)
  | target (owner : Owner) (isStr : Bool)
  | graphEquals
  | graphValue
  | openBracket (owner : Owner)
  | key (owner : Owner) (attributes : Attributes) (key : String)
  | equals (owner : Owner) (attributes : Attributes) (key : String)
  | value (owner : Owner) (attributes : Attributes)
  | comma (owner : Owner) (attributes : Attributes)
  | closeBracket (owner : Owner) (attributes : Attributes)
  | done
  deriving DecidableEq

/-- The state of the parser: its place, and the statements read so far, last first. The
attributes in a place are last first too. -/
structure ParserState where
  place : Place
  statements : List Statement
  deriving DecidableEq

namespace ParserState

/-- Goes to a place. -/
def go (s : ParserState) (place : Place) : Option ParserState := some { s with place }

/-- Adds a statement and goes to the start of the next. -/
def close (s : ParserState) (statement : Statement) : Option ParserState :=
  some ⟨.statement, statement :: s.statements⟩

/-- Reads one lexeme. -/
def step (s : ParserState) (lexeme : Lexeme Token) : Option ParserState :=
  match s.place, lexeme.token with
  | .start, .digraph => s.go .digraph
  | .digraph, .ident _ => s.go (.graphName false)
  | .digraph, .str _ => s.go (.graphName true)
  | .digraph, .openBrace => s.go .statement
  | .graphName _, .openBrace => s.go .statement
  | .statement, .node => s.go (.defaults .nodeDefaults)
  | .statement, .edge => s.go (.defaults .edgeDefaults)
  | .statement, .ident name => s.go (.word name false lexeme.start)
  | .statement, .str name => s.go (.word name true lexeme.start)
  | .statement, .closeBrace => s.go .done
  | .defaults owner, .openBracket => s.go (.openBracket owner)
  | .word name _ _, .semicolon => s.close (.node name [])
  | .word name _ _, .openBracket => s.go (.openBracket (.node name))
  | .word name _ start, .arrow => s.go (.arrow name start)
  | .word _ false _, .equals => s.go .graphEquals
  | .arrow source start, .ident name => s.go (.target (.edge source name start) false)
  | .arrow source start, .str name => s.go (.target (.edge source name start) true)
  | .target owner _, .semicolon => s.close (owner.statement [])
  | .target owner _, .openBracket => s.go (.openBracket owner)
  | .graphEquals, .ident _ => s.go .graphValue
  | .graphEquals, .str _ => s.go .graphValue
  | .graphValue, .semicolon => s.close .noEffect
  | .openBracket owner, .ident key => s.go (.key owner [] key)
  | .openBracket owner, .closeBracket => s.go (.closeBracket owner [])
  | .key owner attributes key, .equals => s.go (.equals owner attributes key)
  | .equals owner attributes key, .ident v => s.go (.value owner ((key, v) :: attributes))
  | .equals owner attributes key, .str v => s.go (.value owner ((key, v) :: attributes))
  | .value owner attributes, .comma => s.go (.comma owner attributes)
  | .value owner attributes, .closeBracket => s.go (.closeBracket owner attributes)
  | .comma owner attributes, .ident key => s.go (.key owner attributes key)
  | .closeBracket owner attributes, .semicolon => s.close (owner.statement attributes.reverse)
  | _, _ => none

/-- The statements, if the text may end here. -/
def finish? (s : ParserState) : Option (List Statement) :=
  match s.place with
  | .done => some s.statements.reverse
  | _ => none

end ParserState

namespace Place

/-- What the place says it expects at first. -/
def expected : Place → List TokenKind
  | .start => [.digraph]
  | .digraph => [.ident, .leftBrace, .str]
  | .graphName false => [.leftBrace, .leftBracket, .semicolon]
  | .graphName true => [.arrow, .leftBrace, .leftBracket, .semicolon]
  | .statement => [.edge, .ident, .node, .rightBrace, .str]
  | .defaults _ => [.leftBracket]
  | .word _ false _ => [.arrow, .equals, .leftBracket, .semicolon]
  | .word _ true _ => [.arrow, .leftBrace, .leftBracket, .semicolon]
  | .arrow .. => [.ident, .str]
  | .target _ false => [.leftBrace, .leftBracket, .semicolon]
  | .target _ true => [.arrow, .leftBrace, .leftBracket, .semicolon]
  | .graphEquals => [.ident, .str]
  | .graphValue => [.comma, .rightBracket, .semicolon]
  | .openBracket _ => [.ident, .rightBracket]
  | .key .. => [.equals]
  | .equals .. => [.ident, .str]
  | .value .. => [.comma, .rightBracket, .semicolon]
  | .comma .. => [.ident]
  | .closeBracket .. => [.semicolon]
  | .done => [.endOfText]

/-- What fits at this very place. -/
def fitting : Place → List TokenKind
  | .graphName _ => [.leftBrace]
  | .word _ true _ => [.arrow, .leftBracket, .semicolon]
  | .target .. => [.leftBracket, .semicolon]
  | .graphValue => [.semicolon]
  | .value .. => [.comma, .rightBracket]
  | place => place.expected

/-- The kinds that an error at this place lists, given what came instead. -/
def expectedInstead (place : Place) (kind : TokenKind) : List TokenKind :=
  if place.expected.contains kind then place.fitting else place.expected

end Place

/-- Why a text does not follow the grammar. -/
inductive SyntaxError
  | strayCharacter (c : Char) (offset : Nat)
  | unexpectedToken (token : Token) (expected : List TokenKind) (offset : Nat)
  | unexpectedEnd (expected : List TokenKind)
  deriving DecidableEq

/-- The error for a lexeme that the machine refuses. -/
def SyntaxError.ofLexeme (place : Place) (lexeme : Lexeme Token) : SyntaxError :=
  match lexeme.token with
  | .stray c => .strayCharacter c lexeme.start
  | token =>
    .unexpectedToken token (place.expectedInstead (token.kind?.getD .endOfText)) lexeme.start

/-- The statements of a text. -/
def statements (text : String) : Except SyntaxError (List Statement) :=
  match drive ParserState.step ⟨.start, []⟩ (Token.scan text) with
  | .error (state, lexeme) => .error (.ofLexeme state.place lexeme)
  | .ok state =>
    match state.finish? with
    | some statements => .ok statements
    | none => .error (.unexpectedEnd (state.place.expectedInstead .endOfText))

end ProcessLogic.Description
