import ProcessLogic.Automaton.Basic
import ProcessLogic.Description.Parser
import ProcessLogic.Text.Blank
import ProcessLogic.Text.Quoted

/-!
# Reading an automaton from its description

The edge out of `init` marks the initial state; every other edge is a transition and needs a
label. A state is accepting if a statement for it has the shape `doublecircle`, its own or the
default of the statements before it. Of an attribute that is given twice the last one counts.
-/

namespace ProcessLogic.Description

open Text

/-- What is wrong with the text of a description. -/
inductive Malformation
  | blank
  | grammar (error : SyntaxError)
  | secondMarker (target earlier : String)
  | noLabel (source target : String)
  | noMarker
  deriving DecidableEq

/-- Why a text is no automaton: the text is malformed, at a line if one can be named, or its
parts do not make an automaton. -/
inductive ReadError
  | malformed (line : Option Nat) (cause : Malformation)
  | invalid (violation : Violation)
  deriving DecidableEq

/-- How messages show a token. -/
def Token.show : Token → String
  | .ident name => "Ident(" ++ quoted name ++ ")"
  | .str content => "Str(" ++ quoted content ++ ")"
  | .stray c => String.singleton c
  | token => (token.kind?.map TokenKind.title).getD ""

/-- A kind as it stands in a list: between backquotes, the end of the text without. -/
def TokenKind.listed : TokenKind → String
  | .endOfText => TokenKind.title .endOfText
  | kind => "`" ++ kind.title ++ "`"

/-- Lists one thing as `X`, two as `X or Y` and more as `X, Y, or Z`. -/
def alternatives : List String → String
  | [] => ""
  | [x] => x
  | [x, y] => x ++ " or " ++ y
  | xs => ", ".intercalate xs.dropLast ++ ", or " ++ xs.getLast?.getD ""

/-- The list of what is expected. -/
def expectation (kinds : List TokenKind) : String :=
  "expected " ++ alternatives (kinds.map TokenKind.listed)

/-- The cause in words. -/
def SyntaxError.reason : SyntaxError → String
  | .strayCharacter c _ => "unexpected `" ++ String.singleton c ++ "`"
  | .unexpectedToken token expected _ => "unexpected " ++ token.show ++ ": " ++ expectation expected
  | .unexpectedEnd expected => "unexpected end of input: " ++ expectation expected

/-- The byte that the error points at, if it is not the end of the text. -/
def SyntaxError.offset? : SyntaxError → Option Nat
  | .strayCharacter _ offset => some offset
  | .unexpectedToken _ _ offset => some offset
  | .unexpectedEnd _ => none

/-- The cause in words. -/
def Malformation.reason : Malformation → String
  | .blank => "empty automaton description"
  | .grammar error => error.reason
  | .secondMarker target earlier =>
    "second initial state marker `init -> " ++ target ++ "` (already `" ++ earlier ++ "`)"
  | .noLabel source target => "transition `" ++ source ++ " -> " ++ target ++ "` has no label"
  | .noMarker => "no initial state marker"

/-- The whole message. -/
def ReadError.message : ReadError → String
  | .malformed none cause => "malformed automaton description: " ++ cause.reason
  | .malformed (some line) cause =>
    "malformed automaton description (line " ++ toString line ++ "): " ++ cause.reason
  | .invalid violation => violation.message

/-- The value of an attribute: the last one given. -/
def attribute? (attributes : Attributes) (key : String) : Option String :=
  (attributes.reverse.find? fun pair => pair.1 == key).map (·.2)

/-- The shape that marks an accepting state. -/
def finalShape : String := "doublecircle"

/-- The parts of an automaton that the statements so far have given. -/
structure Parts where
  shape : Option String := none
  states : Array String := #[]
  finals : Array String := #[]
  initial : Option String := none
  transitions : Array Transition := #[]

/-- Adds what a statement gives; `lineOf` finds the line of a byte. -/
def Parts.add (lineOf : Nat → Nat) (parts : Parts) : Statement → Except ReadError Parts
  | .nodeDefaults attributes =>
    .ok { parts with shape := attribute? attributes "shape" <|> parts.shape }
  | .node name attributes =>
    if name = Automaton.initialMarker then .ok parts
    else
      let shape := attribute? attributes "shape" <|> parts.shape
      let finals := if shape = some finalShape then parts.finals.push name else parts.finals
      .ok { parts with states := parts.states.push name, finals := finals }
  | .edge source target attributes start =>
    if source = Automaton.initialMarker then
      match parts.initial with
      | some earlier => .error (.malformed (some (lineOf start)) (.secondMarker target earlier))
      | none => .ok { parts with states := parts.states.push target, initial := some target }
    else
      match attribute? attributes "label" with
      | none => .error (.malformed (some (lineOf start)) (.noLabel source target))
      | some label =>
        .ok { parts with
          states := (parts.states.push source).push target
          transitions := parts.transitions.push ⟨source, label, target⟩ }
  | .noEffect => .ok parts

/-- The automaton that the parts make. -/
def Parts.automaton (parts : Parts) : Except ReadError Automaton :=
  match parts.initial with
  | none => .error (.malformed none .noMarker)
  | some initial =>
    match Automaton.build parts.states.toList parts.transitions.toList initial
        parts.finals.toList with
    | .ok automaton => .ok automaton
    | .error violation => .error (.invalid violation)

/-- Reads an automaton. -/
def parse (text : String) : Except ReadError Automaton :=
  let chars := text.toList
  if chars.all isBlank then .error (.malformed none .blank)
  else
    match statements text with
    | .error error => .error (.malformed (error.offset?.map (lineAt chars)) (.grammar error))
    | .ok statements => do
      (← statements.foldlM (Parts.add (lineAt chars)) {}).automaton

end ProcessLogic.Description
