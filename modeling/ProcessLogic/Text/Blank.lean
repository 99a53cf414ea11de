/-!
# Blank text

The characters with the Unicode property `White_Space`, and trimming by them.
-/

namespace ProcessLogic.Text

/-- Unicode's white space: 25 characters. -/
def isBlank (c : Char) : Bool :=
  let n := c.toNat
  (9 ≤ n && n ≤ 13) || n == 0x20 || n == 0x85 || n == 0xA0 || n == 0x1680 ||
    (0x2000 ≤ n && n ≤ 0x200A) || n == 0x2028 || n == 0x2029 || n == 0x202F ||
    n == 0x205F || n == 0x3000

/-- Drops blank characters from the front. -/
def trimLeft (cs : List Char) : List Char := cs.dropWhile isBlank

/-- Drops blank characters from the end. -/
def trimRight (cs : List Char) : List Char := (cs.reverse.dropWhile isBlank).reverse

/-- Drops blank characters from both ends. -/
def trim (cs : List Char) : List Char := trimRight (trimLeft cs)

/-- Drops blank characters from both ends of a string. -/
def trimmed (s : String) : String := .ofList (trim s.toList)

end ProcessLogic.Text
