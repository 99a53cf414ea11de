import ProcessLogic.Text.Split
import ProcessLogic.Toml.Value

/-!
# TOML scalars

The lexical rules of strings, numbers, booleans and dates. A reader returns nothing if the
text does not follow the rules. They belong to the outer layer that reads options, and no theorem
of this library is about them.
-/

namespace ProcessLogic.Toml

open Text (splitOn cutFirst)
open Decimal (Binary64)

/-! ### Characters -/

/-- Blanks within a line. -/
def isBlank (c : Char) : Bool := c == ' ' || c == '\t'

/-- Characters that may stand in comments and strings: all but the controls, though tabs may. -/
def isPrintable (c : Char) : Bool := c == '\t' || (' ' ≤ c && c != '\x7f')

/-- Characters of a key without quotes. -/
def isBareKey (c : Char) : Bool := c.isAlphanum || c == '_' || c == '-'

/-- The value of a hexadecimal digit. -/
def hexDigit? (c : Char) : Option Nat :=
  if c.isDigit then some (c.toNat - '0'.toNat)
  else if 'a' ≤ c ∧ c ≤ 'f' then some (c.toNat - 'a'.toNat + 10)
  else if 'A' ≤ c ∧ c ≤ 'F' then some (c.toNat - 'A'.toNat + 10)
  else none

/-! ### Strings -/

/-- What stands at one place of a string: some characters, or the end of the string after
some characters. `more` characters of the text after the first belong to it. -/
inductive Piece
  | inside (cs : List Char) (more : Nat)
  | finish (cs : List Char) (more : Nat)

/-- The character of a number in hexadecimal digits, if it is one. -/
def charOfHex? (digits : List Char) : Option Char := do
  let values ← digits.mapM hexDigit?
  let n := values.foldl (fun n d => 16 * n + d) 0
  if n.isValidChar then some (Char.ofNat n) else none

/-- The character after a backslash, and how many characters it takes. -/
def escape? : List Char → Option (Char × Nat)
  | 'b' :: _ => some ('\x08', 1)
  | 't' :: _ => some ('\t', 1)
  | 'n' :: _ => some ('\n', 1)
  | 'f' :: _ => some ('\x0c', 1)
  | 'r' :: _ => some ('\r', 1)
  | '"' :: _ => some ('"', 1)
  | '\\' :: _ => some ('\\', 1)
  | 'u' :: cs => if cs.length < 4 then none else (charOfHex? (cs.take 4)).map (·, 5)
  | 'U' :: cs => if cs.length < 8 then none else (charOfHex? (cs.take 8)).map (·, 9)
  | _ => none

/-- How many characters a line break at the start of a text takes. -/
def lineBreak? : List Char → Option Nat
  | '\n' :: _ => some 1
  | '\r' :: '\n' :: _ => some 2
  | _ => none

/-- One place of a string in quotes. -/
def basicPiece (c : Char) (cs : List Char) : Option Piece :=
  if c = '"' then some (.finish [] 0)
  else if c = '\\' then (escape? cs).map fun (c, n) => .inside [c] n
  else if isPrintable c then some (.inside [c] 0)
  else none

/-- One place of a string in apostrophes. -/
def literalPiece (c : Char) (_ : List Char) : Option Piece :=
  if c = '\'' then some (.finish [] 0)
  else if isPrintable c then some (.inside [c] 0)
  else none

/-- Quotes in a string of several lines: three of them close it, and up to two more before
those belong to it. -/
def closing (quote : Char) (cs : List Char) : Option Piece :=
  let run := (cs.takeWhile (· == quote)).length + 1
  if run < 3 then some (.inside (List.replicate run quote) (run - 1))
  else if run < 6 then some (.finish (List.replicate (run - 3) quote) (run - 1))
  else none

/-- A line break or another character in a string of several lines. -/
def linePiece (c : Char) (cs : List Char) : Option Piece :=
  match lineBreak? (c :: cs) with
  | some n => some (.inside ['\n'] (n - 1))
  | none => if isPrintable c then some (.inside [c] 0) else none

/-- How many blanks and line breaks a text starts with. -/
def gapLength : List Char → Nat
  | '\r' :: '\n' :: cs => gapLength cs + 2
  | c :: cs => if isBlank c || c == '\n' then gapLength cs + 1 else 0
  | [] => 0

/-- A backslash at the end of a line leaves out the break and the blanks and breaks after it. -/
def continuation? (cs : List Char) : Option Piece :=
  (lineBreak? (cs.dropWhile isBlank)).map fun _ => .inside [] (gapLength cs)

/-- One place of a string of several lines in quotes. -/
def basicLinesPiece (c : Char) (cs : List Char) : Option Piece :=
  if c = '"' then closing '"' cs
  else if c = '\\' then
    continuation? cs <|> (escape? cs).map fun (c, n) => .inside [c] n
  else linePiece c cs

/-- One place of a string of several lines in apostrophes. -/
def literalLinesPiece (c : Char) (cs : List Char) : Option Piece :=
  if c = '\'' then closing '\'' cs else linePiece c cs

/-- The content of a string after its opening quotes, and the text after it. -/
def stringBody (piece : Char → List Char → Option Piece) :
    Nat → List Char → List Char → Option (String × List Char)
  | _, _, [] => none
  | skip + 1, acc, _ :: cs => stringBody piece skip acc cs
  | 0, acc, c :: cs =>
    match piece c cs with
    | none => none
    | some (.inside out more) => stringBody piece more (out.reverse ++ acc) cs
    | some (.finish out more) => some (.ofList (acc.reverse ++ out), cs.drop more)

/-- The content of a string of several lines; a break right after the opening is left out. -/
def linesBody (piece : Char → List Char → Option Piece) (cs : List Char) :
    Option (String × List Char) :=
  stringBody piece 0 [] (cs.drop ((lineBreak? cs).getD 0))

/-- A string of any kind. -/
def string? : List Char → Option (String × List Char)
  | '"' :: '"' :: '"' :: cs => linesBody basicLinesPiece cs
  | '"' :: cs => stringBody basicPiece 0 [] cs
  | '\'' :: '\'' :: '\'' :: cs => linesBody literalLinesPiece cs
  | '\'' :: cs => stringBody literalPiece 0 [] cs
  | _ => none

/-! ### Numbers -/

/-- Digits that single underscores may part. -/
def digits? (isDigit : Char → Bool) (cs : List Char) : Option (List Char) :=
  let parts := splitOn '_' cs
  if parts.all fun part => !part.isEmpty && part.all isDigit then some parts.flatten else none

/-- The number of digits in a base. -/
def natOf (base : Nat) (digits : List Char) : Nat :=
  digits.foldl (fun n c => base * n + (hexDigit? c).getD 0) 0

/-- A sign in front, true for a minus, and the rest. -/
def signed : List Char → Bool × List Char
  | '-' :: cs => (true, cs)
  | '+' :: cs => (false, cs)
  | cs => (false, cs)

/-- Decimal digits without a leading zero. -/
def decimal? (cs : List Char) : Option (List Char) :=
  match cs with
  | '0' :: _ :: _ => none
  | _ => digits? Char.isDigit cs

/-- Integers have 64 bits with a sign. -/
def inRange (i : Int) : Option Int :=
  if Int64.minValue.toInt ≤ i ∧ i ≤ Int64.maxValue.toInt then some i else none

/-- An integer in base ten, or without a sign in base 16, 8 or 2. -/
def integer? : List Char → Option Int
  | '0' :: 'x' :: cs =>
    (digits? (fun c => (hexDigit? c).isSome) cs).bind fun ds => inRange (natOf 16 ds)
  | '0' :: 'o' :: cs =>
    (digits? (fun c => '0' ≤ c && c ≤ '7') cs).bind fun ds => inRange (natOf 8 ds)
  | '0' :: 'b' :: cs =>
    (digits? (fun c => c == '0' || c == '1') cs).bind fun ds => inRange (natOf 2 ds)
  | cs =>
    let (negative, cs) := signed cs
    (decimal? cs).bind fun ds =>
      let n : Int := natOf 10 ds
      inRange (if negative then -n else n)

/-- Cuts a number at its exponent mark. -/
def cutExponent (cs : List Char) : List Char × Option (List Char) :=
  (cs.takeWhile fun c => c != 'e' && c != 'E',
    match cs.dropWhile fun c => c != 'e' && c != 'E' with
    | [] => none
    | _ :: rest => some rest)

/-- The number nearest to `digits * 10 ^ exponent`. Numbers that are out of all range are not
computed: they are too large, or zero. -/
def numberOf (negative : Bool) (digits : List Char) (exponent : Int) : Number :=
  let digits := digits.dropWhile (· == '0')
  let size : Int := digits.length + exponent
  if digits.isEmpty || size < -400 then .finite negative ⟨0, 0⟩
  else if 400 < size then .infinite negative
  else
    let (num, den) := Binary64.scaled 10 (natOf 10 digits) exponent
    match Binary64.nearest num den with
    | some x => .finite negative x
    | none => .infinite negative

/-- A number with a fraction or an exponent. One that is too large is refused unless it is
negative. -/
def fractional? (cs : List Char) : Option Number := do
  let (negative, cs) := signed cs
  let (mantissa, exponent) := cutExponent cs
  let (whole, fraction) ← match cutFirst '.' mantissa with
    | none => if exponent.isNone then none else some (mantissa, [])
    | some (whole, fraction) => (digits? Char.isDigit fraction).map (whole, ·)
  let whole ← decimal? whole
  let exponent : Int ← match exponent with
    | none => some 0
    | some e =>
      let (minus, e) := signed e
      (digits? Char.isDigit e).map fun ds =>
        let n : Int := natOf 10 ds
        if minus then -n else n
  match numberOf negative (whole ++ fraction) (exponent - fraction.length) with
  | .infinite false => none
  | n => some n

/-- A floating point number. -/
def float? (cs : List Char) : Option Number :=
  let (negative, rest) := signed cs
  if rest = "inf".toList then some (.infinite negative)
  else if rest = "nan".toList then some .nan
  else fractional? cs

/-! ### Dates -/

/-- A number of exactly `n` digits between two bounds, and the rest. -/
def fixed? (n low high : Nat) (cs : List Char) : Option (Nat × List Char) :=
  let ds := cs.take n
  let value := natOf 10 ds
  if ds.length = n ∧ ds.all Char.isDigit ∧ low ≤ value ∧ value ≤ high then
    some (value, cs.drop n)
  else none

/-- A character that must come next. -/
def expect? (c : Char) : List Char → Option (List Char)
  | d :: cs => if c = d then some cs else none
  | [] => none

/-- The number of days of a month. -/
def daysIn (year month : Nat) : Nat :=
  if month = 2 then
    if year % 4 = 0 ∧ (year % 100 ≠ 0 ∨ year % 400 = 0) then 29 else 28
  else if month ∈ [4, 6, 9, 11] then 30
  else 31

/-- A date, and the rest. -/
def date? (cs : List Char) : Option (List Char) := do
  let (year, cs) ← fixed? 4 0 9999 cs
  let (month, cs) ← fixed? 2 1 12 (← expect? '-' cs)
  let (_, cs) ← fixed? 2 1 (daysIn year month) (← expect? '-' cs)
  return cs

/-- A time of day, and the rest. -/
def time? (cs : List Char) : Option (List Char) := do
  let (_, cs) ← fixed? 2 0 23 cs
  let (_, cs) ← fixed? 2 0 59 (← expect? ':' cs)
  let (_, cs) ← fixed? 2 0 60 (← expect? ':' cs)
  match cs with
  | '.' :: rest =>
    if (rest.takeWhile Char.isDigit).isEmpty then none else some (rest.dropWhile Char.isDigit)
  | cs => some cs

/-- Whether a text is a distance from universal time. -/
def isOffset : List Char → Bool
  | [] => true
  | [c] => c == 'Z' || c == 'z'
  | c :: cs =>
    (c == '+' || c == '-') &&
      ((fixed? 2 0 23 cs).bind fun (_, cs) => (expect? ':' cs).bind (fixed? 2 0 59)).any
        (·.2.isEmpty)

/-- Whether a text is a date, a time, or both. -/
def isDatetime (cs : List Char) : Bool :=
  match date? cs with
  | some [] => true
  | some (c :: rest) => (c == 'T' || c == 't' || c == ' ') && (time? rest).any isOffset
  | none => (time? cs).any List.isEmpty

/-- Characters of numbers, dates and the words for special values. -/
def isPlain (c : Char) : Bool :=
  c.isAlphanum || c == '_' || c == '+' || c == '-' || c == '.' || c == ':'

/-- The text of a value without quotes and brackets, and the rest. A date may be parted from
its time by a blank. -/
def plainText (cs : List Char) : List Char × List Char :=
  let word := cs.takeWhile isPlain
  let rest := cs.dropWhile isPlain
  match rest with
  | ' ' :: after =>
    let next := after.takeWhile isPlain
    if (date? word).any List.isEmpty && (next.head?.any Char.isDigit) then
      (word ++ ' ' :: next, after.dropWhile isPlain)
    else (word, rest)
  | _ => (word, rest)

/-- A value without quotes and brackets. -/
def plain? (cs : List Char) : Option Value :=
  if cs = "true".toList then some (.boolean true)
  else if cs = "false".toList then some (.boolean false)
  else
    ((integer? cs).map Value.integer) <|> ((float? cs).map Value.float) <|>
      (if isDatetime cs then some .datetime else none)

end ProcessLogic.Toml
