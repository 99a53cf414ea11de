import ProcessLogic.Collection.Sorted

/-!
# Obligations in disjunctive normal form

What is left to check after an event is a positive combination of obligations on the rest of
the trace: `next f` demands a next position that satisfies `f`, `weakNext f` demands it only if
there is a next position. Combinations are kept as clauses, and the clauses of a value are
reduced: none holds both obligations for one formula, and none contains another.
-/

namespace ProcessLogic

/-- An obligation on the rest of the trace; formulas are given by number. -/
inductive Obligation
  | next (formula : Nat)
  | weakNext (formula : Nat)
  deriving DecidableEq, Hashable

namespace Obligation

/-- The formula that must hold. -/
def formula : Obligation → Nat
  | .next f => f
  | .weakNext f => f

/-- Strong obligations come before weak ones, each kind in the order of formula numbers. -/
def le : Obligation → Obligation → Bool
  | .next f, .next g => decide (f ≤ g)
  | .next _, .weakNext _ => true
  | .weakNext _, .next _ => false
  | .weakNext f, .weakNext g => decide (f ≤ g)

/-- Whether the obligation is met by the end of the trace. -/
def isWeak : Obligation → Bool
  | .next _ => false
  | .weakNext _ => true

end Obligation

/-- Obligations that must all be met, in increasing order. -/
abbrev Clause := List Obligation

namespace Clause

/-- The order of clauses. -/
def le : Clause → Clause → Bool := Sorted.lexLe Obligation.le

/-- All obligations of two clauses. -/
def union (c d : Clause) : Clause := Sorted.distinct Obligation.le (c ++ d)

/-- Leaves out weak obligations that a strong one of the clause implies. -/
def reduce (c : Clause) : Clause :=
  c.filter fun
    | .next _ => true
    | .weakNext f => !c.contains (.next f)

/-- Whether every obligation of `c` is one of `d`. -/
def isSubset (c d : Clause) : Bool := c.all d.contains

end Clause

/-- A disjunction of clauses, listed in increasing order. No clause at all is false, and the
empty clause is true. -/
structure Dnf where
  clauses : List Clause
  deriving DecidableEq, Hashable

namespace Dnf

/-- Always met. -/
def top : Dnf := ⟨[[]]⟩

/-- Never met. -/
def bottom : Dnf := ⟨[]⟩

/-- A single obligation. -/
def ofObligation (o : Obligation) : Dnf := ⟨[[o]]⟩

/-- Whether there is no clause. -/
def isBottom (d : Dnf) : Bool := d.clauses.isEmpty

/-- The value of some clauses: each clause is reduced, and clauses that contain another are
left out. -/
def normalize (clauses : List Clause) : Dnf :=
  let reduced := Sorted.distinct Clause.le (clauses.map Clause.reduce)
  ⟨reduced.filter fun c => !reduced.any fun d => d != c && d.isSubset c⟩

/-- Either of two. -/
def or (d e : Dnf) : Dnf := normalize (d.clauses ++ e.clauses)

/-- Both of two. -/
def and (d e : Dnf) : Dnf :=
  normalize (d.clauses.flatMap fun c => e.clauses.map fun c' => c.union c')

/-- Whether the trace may end here: some clause has weak obligations only. -/
def acceptsEnd (d : Dnf) : Bool := d.clauses.any fun c => c.all Obligation.isWeak

/-- The truth of a value when `met` says which obligations are met. -/
def eval (met : Obligation → Bool) (d : Dnf) : Bool := d.clauses.any fun c => c.all met

end Dnf

end ProcessLogic
