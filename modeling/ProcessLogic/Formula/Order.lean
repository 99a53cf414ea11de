import ProcessLogic.Formula.Nnf

/-!
# The order of formulas

Formulas are ordered first by the kind of their outermost operator, in a fixed list of kinds,
then by their parts from left to right. Normal forms have a list of kinds of their own.
-/

namespace ProcessLogic

/-- The place of a prefix operator among the kinds of formula. -/
def PrefixOp.rank : PrefixOp → Nat
  | .not => 3
  | .next => 8
  | .weakNext => 9
  | .always => 10
  | .eventually => 11

/-- The place of a binary operator among the kinds of formula. -/
def BinaryOp.rank : BinaryOp → Nat
  | .and => 4
  | .or => 5
  | .implies => 6
  | .equiv => 7
  | .until => 12
  | .release => 13
  | .weakUntil => 14

namespace Formula

/-- The place of a formula's outermost kind: constants, propositions, then operators. -/
def rank : Formula → Nat
  | .const true => 0
  | .const false => 1
  | .prop _ => 2
  | .unary op _ => op.rank
  | .binary op _ _ => op.rank

/-- Compares two formulas by kind and then by parts. -/
def compare : Formula → Formula → Ordering
  | .prop a, .prop b => Ord.compare a b
  | .unary o p, .unary o' p' => (Ord.compare o.rank o'.rank).then (p.compare p')
  | .binary o p q, .binary o' p' q' =>
    ((Ord.compare o.rank o'.rank).then (p.compare p')).then (q.compare q')
  | f, g => Ord.compare f.rank g.rank

end Formula

namespace Nnf

/-- The place of a normal form's outermost kind. -/
def rank : Nnf → Nat
  | .literal .. => 0
  | .const _ => 1
  | .until .. => 2
  | .release .. => 3
  | .or .. => 4
  | .and .. => 5
  | .next _ => 6
  | .weakNext _ => 7

/-- Compares two normal forms by kind and then by parts; a plain literal comes before a
negated one, and false before true. -/
def compare : Nnf → Nnf → Ordering
  | .literal n a, .literal n' a' =>
    (Ord.compare n.toNat n'.toNat).then (Ord.compare a a')
  | .const a, .const b => Ord.compare a.toNat b.toNat
  | .until p q, .until p' q' => (p.compare p').then (q.compare q')
  | .release p q, .release p' q' => (p.compare p').then (q.compare q')
  | .or p q, .or p' q' => (p.compare p').then (q.compare q')
  | .and p q, .and p' q' => (p.compare p').then (q.compare q')
  | .next p, .next p' => p.compare p'
  | .weakNext p, .weakNext p' => p.compare p'
  | f, g => Ord.compare f.rank g.rank

end Nnf

end ProcessLogic
