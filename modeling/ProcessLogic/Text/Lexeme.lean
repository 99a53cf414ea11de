/-!
# Lexemes with byte spans

A lexer is a function that says what stands at the start of a non-empty text: a token, or
text that only separates tokens, and how many characters it takes. `lexemes` applies it from
the first character to the last, so the pieces tile the text, and gives every token its span
in UTF-8 bytes.
-/

namespace ProcessLogic.Text

/-- The length of a text in UTF-8 bytes. -/
def byteLength (cs : List Char) : Nat := cs.foldr (fun c n => c.utf8Size + n) 0

/-- A token and the bytes `start ..< stop` that it takes in its text. -/
structure Lexeme (τ : Type) where
  token : τ
  start : Nat
  stop : Nat
  deriving DecidableEq

/-- What a lexer reads first in the text `c :: cs`: a token, or `none` for a separator, and
how many characters of `cs` belong to it. -/
abbrev Reader (τ : Type) := Char → List Char → Option τ × Nat

/-- The lexemes of a text that starts at byte `pos`, after `skip` characters that belong to a
piece already read. -/
def lexemesFrom {τ : Type} (read : Reader τ) :
    Nat → Nat → Array (Lexeme τ) → List Char → Array (Lexeme τ)
  | _, _, acc, [] => acc
  | skip + 1, pos, acc, c :: cs => lexemesFrom read skip (pos + c.utf8Size) acc cs
  | 0, pos, acc, c :: cs =>
    let (token?, more) := read c cs
    let acc := match token? with
      | none => acc
      | some token => acc.push ⟨token, pos, pos + byteLength (c :: cs.take more)⟩
    lexemesFrom read more (pos + c.utf8Size) acc cs

/-- All lexemes of a text, in order. -/
def lexemes {τ : Type} (read : Reader τ) (cs : List Char) : List (Lexeme τ) :=
  (lexemesFrom read 0 0 #[] cs).toList

/-- Counts on from `line` the newlines that start before the byte at `offset`. -/
def lineFrom (line : Nat) : Nat → List Char → Nat
  | _, [] => line
  | 0, _ :: _ => line
  | offset + 1, c :: cs =>
    lineFrom (if c = '\n' then line + 1 else line) (offset + 1 - c.utf8Size) cs

/-- The 1-based line of the byte at `offset`: one more than the newlines before it. -/
def lineAt (cs : List Char) (offset : Nat) : Nat := lineFrom 1 offset cs

end ProcessLogic.Text
