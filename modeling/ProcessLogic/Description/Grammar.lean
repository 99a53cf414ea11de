import ProcessLogic.Description.Token

/-!
# The grammar of descriptions

A description is `digraph`, a name that may be missing, and statements between braces. A
statement sets defaults for nodes or edges, sets an attribute of the graph, declares a node,
or draws an edge. `Sentence lexemes statements` is the grammar with one rule for each form.
-/

namespace ProcessLogic.Description

open Text

/-- Attributes in the order in which they are written. -/
abbrev Attributes := List (String × String)

/-- Statements of a description. An edge keeps the byte at which it starts. Attributes of the
graph and defaults for edges have no effect. -/
inductive Statement
  | nodeDefaults (attributes : Attributes)
  | node (name : String) (attributes : Attributes)
  | edge (source target : String) (attributes : Attributes) (start : Nat)
  | noEffect
  deriving DecidableEq

/-- A token that may stand for a name or a value, and its text. -/
inductive Named : Token → String → Prop
  | ident (name : String) : Named (.ident name) name
  | str (content : String) : Named (.str content) content

/-- Pairs `key = value` separated by commas. -/
inductive Pairs : List Token → Attributes → Prop
  | one (key : String) {t : Token} {value : String} : Named t value →
      Pairs [.ident key, .equals, t] [(key, value)]
  | more (key : String) {t : Token} {value : String} {ts : List Token} {rest : Attributes} :
      Named t value → Pairs ts rest →
      Pairs (.ident key :: .equals :: t :: .comma :: ts) ((key, value) :: rest)

/-- An attribute list in brackets. -/
inductive AttributeList : List Token → Attributes → Prop
  | empty : AttributeList [.openBracket, .closeBracket] []
  | pairs {ts : List Token} {attributes : Attributes} : Pairs ts attributes →
      AttributeList (.openBracket :: ts ++ [.closeBracket]) attributes

/-- One statement, which starts at byte `start`. -/
inductive StatementTokens (start : Nat) : List Token → Statement → Prop
  | nodeDefaults {ts : List Token} {attributes : Attributes} : AttributeList ts attributes →
      StatementTokens start (.node :: ts ++ [.semicolon]) (.nodeDefaults attributes)
  | edgeDefaults {ts : List Token} {attributes : Attributes} : AttributeList ts attributes →
      StatementTokens start (.edge :: ts ++ [.semicolon]) .noEffect
  | graphAttribute (key : String) {t : Token} {value : String} : Named t value →
      StatementTokens start [.ident key, .equals, t, .semicolon] .noEffect
  | node {t : Token} {name : String} : Named t name →
      StatementTokens start [t, .semicolon] (.node name [])
  | nodeWith {t : Token} {name : String} {ts : List Token} {attributes : Attributes} :
      Named t name → AttributeList ts attributes →
      StatementTokens start (t :: ts ++ [.semicolon]) (.node name attributes)
  | edge {t u : Token} {source target : String} : Named t source → Named u target →
      StatementTokens start [t, .arrow, u, .semicolon] (.edge source target [] start)
  | edgeWith {t u : Token} {source target : String} {ts : List Token}
      {attributes : Attributes} : Named t source → Named u target →
      AttributeList ts attributes →
      StatementTokens start (t :: .arrow :: u :: ts ++ [.semicolon])
        (.edge source target attributes start)

/-- The tokens of some lexemes. -/
abbrev tokensOf (lexemes : List (Lexeme Token)) : List Token := lexemes.map (·.token)

/-- Statements one after the other, each starting where its first lexeme does. -/
inductive Statements : List (Lexeme Token) → List Statement → Prop
  | empty : Statements [] []
  | more {first : Lexeme Token} {others rest : List (Lexeme Token)} {statement : Statement}
      {statements : List Statement} :
      StatementTokens first.start (tokensOf (first :: others)) statement →
      Statements rest statements →
      Statements (first :: others ++ rest) (statement :: statements)

/-- A whole description. -/
inductive Sentence : List (Lexeme Token) → List Statement → Prop
  | named {before body : List (Lexeme Token)} {last : Lexeme Token} {t : Token}
      {name : String} {statements : List Statement} :
      Named t name → tokensOf before = [.digraph, t, .openBrace] →
      Statements body statements → last.token = .closeBrace →
      Sentence (before ++ body ++ [last]) statements
  | unnamed {before body : List (Lexeme Token)} {last : Lexeme Token}
      {statements : List Statement} :
      tokensOf before = [.digraph, .openBrace] →
      Statements body statements → last.token = .closeBrace →
      Sentence (before ++ body ++ [last]) statements

end ProcessLogic.Description
