import ProcessLogic.Collection.Sorted

/-!
# Formulas of linear temporal logic on finite traces

The language, its written form, and the propositions of a formula. The written form puts
parentheses around every binary operator and none around a prefix operator, so it shows the
tree without reference to precedence.
-/

namespace ProcessLogic

/-- Prefix operators. `next` demands a next position, `weakNext` does not. -/
inductive PrefixOp
  | not
  | next
  | weakNext
  | always
  | eventually
  deriving DecidableEq, Hashable, Inhabited

/-- Binary operators. -/
inductive BinaryOp
  | and
  | or
  | implies
  | equiv
  | until
  | release
  | weakUntil
  deriving DecidableEq, Hashable, Inhabited

/-- The sign of a prefix operator. -/
def PrefixOp.sign : PrefixOp → String
  | .not => "!"
  | .next => "X"
  | .weakNext => "WX"
  | .always => "G"
  | .eventually => "F"

/-- The sign of a binary operator. -/
def BinaryOp.sign : BinaryOp → String
  | .and => "&"
  | .or => "|"
  | .implies => "->"
  | .equiv => "<->"
  | .until => "U"
  | .release => "R"
  | .weakUntil => "W"

/-- Formulas over propositions named by strings. -/
inductive Formula
  | const (value : Bool)
  | prop (name : String)
  | unary (op : PrefixOp) (body : Formula)
  | binary (op : BinaryOp) (left right : Formula)
  deriving DecidableEq, Inhabited

namespace Formula

/-- What is written before the operand: letters are set off by a blank. -/
def lead : PrefixOp → String
  | .not => "!"
  | op => op.sign ++ " "

/-- The written form. -/
def print : Formula → String
  | .const true => "true"
  | .const false => "false"
  | .prop name => name
  | .unary op body => lead op ++ body.print
  | .binary op left right => "(" ++ left.print ++ " " ++ op.sign ++ " " ++ right.print ++ ")"

instance : ToString Formula := ⟨print⟩

/-- The propositions as they occur from left to right. -/
def occurrences : Formula → List String
  | .const _ => []
  | .prop name => [name]
  | .unary _ body => body.occurrences
  | .binary _ left right => left.occurrences ++ right.occurrences

/-- The distinct propositions in the order of their code points. -/
def propositions (f : Formula) : List String := Sorted.distinctStrings f.occurrences

end Formula

end ProcessLogic
