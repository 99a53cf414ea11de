import ProcessLogic.Formula.Grammar
import ProcessLogic.Text.Machine

/-!
# The parser of formulas

The parser is a machine that reads one token at a time. Its state is a stack of what is still
open: prefix operators and binary operators that wait for their right operand, and
parentheses that wait to be closed. A binary operator first closes the operators on the stack
that bind tighter, or as tight and group to the left. Every state can be completed to a
sentence, so the token that the machine refuses is the first with which the text cannot go on.
-/

namespace ProcessLogic.Formula

open Text

/-- Something that waits for the operand to its right. -/
inductive Frame
  | unary (op : PrefixOp)
  | binary (op : BinaryOp) (left : Formula)
  | paren
  deriving DecidableEq

/-- The state of the parser: an operand must come next, or one has been read. The stack lists
the frames that are open, innermost first. -/
inductive ParserState
  | operand (stack : List Frame)
  | complete (value : Formula) (stack : List Frame)
  deriving DecidableEq

/-- Why a text is no formula. -/
inductive ParseError
  | strayCharacter (c : Char) (start stop : Nat)
  | unexpectedToken (token : Token) (start stop : Nat)
  | unexpectedEnd (position : Nat)
  deriving DecidableEq

namespace ParserState

/-- An operand has been read: it closes the prefix operators right before it. -/
def settle (value : Formula) : List Frame → ParserState
  | .unary op :: stack => settle (.unary op value) stack
  | stack => .complete value stack

/-- Whether an open operator is closed by the operator `by_` to the right of its operand. -/
def closedBy (opened by_ : BinaryOp) : Bool :=
  decide (by_.level < opened.level) || (by_.level == opened.level && !by_.groupsRight)

/-- Closes the binary operators on top of the stack that `closed` says are closed. -/
def collapse (closed : BinaryOp → Bool) (value : Formula) :
    List Frame → Formula × List Frame
  | .binary op left :: stack =>
    if closed op then collapse closed (.binary op left value) stack
    else (value, .binary op left :: stack)
  | stack => (value, stack)

/-- Reads one token. -/
def step : ParserState → Token → Option ParserState
  | .operand stack, .ident name => some (settle (.prop name) stack)
  | .operand stack, .const value => some (settle (.const value) stack)
  | .operand stack, .unary op => some (.operand (.unary op :: stack))
  | .operand stack, .openParen => some (.operand (.paren :: stack))
  | .complete value stack, .binary op =>
    let (left, stack) := collapse (fun opened => closedBy opened op) value stack
    some (.operand (.binary op left :: stack))
  | .complete value stack, .closeParen =>
    match collapse (fun _ => true) value stack with
    | (inner, .paren :: stack) => some (settle inner stack)
    | _ => none
  | _, _ => none

/-- The formula, if the text may end here. -/
def finish? : ParserState → Option Formula
  | .operand _ => none
  | .complete value stack =>
    match collapse (fun _ => true) value stack with
    | (f, []) => some f
    | _ => none

end ParserState

namespace ParseError

/-- The error for a lexeme that cannot stand where it does. -/
def ofLexeme (lexeme : Lexeme Token) : ParseError :=
  match lexeme.token with
  | .stray c => .strayCharacter c lexeme.start lexeme.stop
  | token => .unexpectedToken token lexeme.start lexeme.stop

/-- The headline of the error. -/
def message : ParseError → String
  | .strayCharacter .. => "Invalid Token"
  | .unexpectedToken .. => "Unrecognized Token"
  | .unexpectedEnd _ => "Unrecognized EOF"

/-- The spelling of the token that the error points at. -/
def token? : ParseError → Option String
  | .strayCharacter c .. => some (String.singleton c)
  | .unexpectedToken token .. => some token.spelling
  | .unexpectedEnd _ => none

/-- The first byte that the error points at. -/
def offset : ParseError → Nat
  | .strayCharacter _ start _ => start
  | .unexpectedToken _ start _ => start
  | .unexpectedEnd position => position

/-- How many bytes the error points at. -/
def length : ParseError → Nat
  | .strayCharacter _ start stop => stop - start
  | .unexpectedToken _ start stop => stop - start
  | .unexpectedEnd _ => 0

/-- What is written beside the place. -/
def label : ParseError → String
  | .strayCharacter c .. =>
    "The character \"" ++ String.singleton c ++ "\" is not valid in a formula."
  | .unexpectedToken token .. =>
    "The token \"" ++ token.spelling ++ "\" is unrecognized in this context."
  | .unexpectedEnd _ => "The formula ends too early. Are you missing an operand?"

/-- Advice on what to write instead. -/
def help? : ParseError → Option String
  | .strayCharacter .. =>
    some "Propositions are lowercase identifiers such as `a` or `send_invoice`"
  | _ => none

end ParseError

/-- Reads one lexeme. -/
def advance (state : ParserState) (lexeme : Lexeme Token) : Option ParserState :=
  state.step lexeme.token

/-- Reads a formula. -/
def parse (text : String) : Except ParseError Formula :=
  match drive advance (.operand []) (Token.scan text) with
  | .error (_, lexeme) => .error (.ofLexeme lexeme)
  | .ok state =>
    match state.finish? with
    | some f => .ok f
    | none => .error (.unexpectedEnd (byteLength text.toList))

end ProcessLogic.Formula
