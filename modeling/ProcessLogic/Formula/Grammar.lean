import ProcessLogic.Formula.Token

/-!
# The grammar of formulas

Binary operators have five levels, from `<->`, which binds loosest, to `U`, `R` and `W`. The
operators of a level group to the right, those of `|` and `&` to the left. Prefix operators
bind tighter than all of them. `Derives level tokens formula` is the stratified grammar with
one rule for each way in which a formula of a level is put together.
-/

namespace ProcessLogic

/-- How tightly an operator binds. -/
def BinaryOp.level : BinaryOp → Nat
  | .equiv => 0
  | .implies => 1
  | .or => 2
  | .and => 3
  | .until => 4
  | .release => 4
  | .weakUntil => 4

/-- Whether a chain of operators of one level groups to the right. -/
def BinaryOp.groupsRight : BinaryOp → Bool
  | .or => false
  | .and => false
  | _ => true

namespace Formula

/-- The tokens `ts` read as `f` at level `n` if `Derives n ts f`. Levels 0 to 4 are those of the
binary operators; level 5 holds prefix operators, atoms and parentheses. -/
inductive Derives : Nat → List Token → Formula → Prop
  | ident (name : String) : Derives 5 [.ident name] (.prop name)
  | const (value : Bool) : Derives 5 [.const value] (.const value)
  | paren {ts : List Token} {f : Formula} :
      Derives 0 ts f → Derives 5 (.openParen :: ts ++ [.closeParen]) f
  | unary (op : PrefixOp) {ts : List Token} {f : Formula} :
      Derives 5 ts f → Derives 5 (.unary op :: ts) (.unary op f)
  | right (op : BinaryOp) {ts us : List Token} {f g : Formula} : op.groupsRight = true →
      Derives (op.level + 1) ts f → Derives op.level us g →
      Derives op.level (ts ++ .binary op :: us) (.binary op f g)
  | left (op : BinaryOp) {ts us : List Token} {f g : Formula} : op.groupsRight = false →
      Derives op.level ts f → Derives (op.level + 1) us g →
      Derives op.level (ts ++ .binary op :: us) (.binary op f g)
  | lift (n : Nat) {ts : List Token} {f : Formula} : n < 5 →
      Derives (n + 1) ts f → Derives n ts f

/-- A sentence is a formula of the loosest level. -/
abbrev Sentence (ts : List Token) (f : Formula) : Prop := Derives 0 ts f

end Formula

end ProcessLogic
