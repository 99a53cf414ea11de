import ProcessLogic.Formula.Nnf

/-!
# Evaluation at the positions of a machine

What a formula means at a position, `Nnf.holdsAt`, knows no largest position. A machine has one: the
number after it is 0 again, or the program stops there. `Nnf.holdsAtWord` evaluates a formula with
the numbers of such a machine, from left to right and only as far as the answer needs it.
-/

namespace ProcessLogic

/-- What a machine does when it counts past its largest number. -/
inductive Overflow
  | wraps
  | stops
  deriving DecidableEq

/-- The number after a number of a machine that has `largest`; `none` if the program stops. -/
def Overflow.next? (overflow : Overflow) (largest i : Nat) : Option Nat :=
  if i < largest then some (i + 1)
  else
    match overflow with
    | .wraps => some 0
    | .stops => none

namespace Nnf

/-- Evaluates a formula at a position, where `after` gives the number after a number. -/
def evaluate (after : Nat → Option Nat) (events : Trace) : Nnf → Nat → Option Bool
  | .literal negated name, i =>
    match events[i]? with
    | some event => some (event.contains name != negated)
    | none => some negated
  | .const value, _ => some value
  | .and p q, i => do
    if ← p.evaluate after events i then q.evaluate after events i else return false
  | .or p q, i => do
    if ← p.evaluate after events i then return true else q.evaluate after events i
  | .next p, i => do
    let k ← after i
    if k < events.length then p.evaluate after events k else return false
  | .weakNext p, i => do
    let k ← after i
    if events.length ≤ k then return true else p.evaluate after events k
  | .until p q, i =>
    (positions i events.length).anyM fun k => do
      if ← q.evaluate after events k then
        (positions i k).allM fun j => p.evaluate after events j
      else return false
  | .release p q, i =>
    (positions i events.length).allM fun k => do
      if ← q.evaluate after events k then return true
      else (positions i k).anyM fun j => p.evaluate after events j

/-- Whether the rest of `events` from `position` on satisfies the formula, as a machine finds it whose
largest number is `largest`; `none` if the program stops. -/
def holdsAtWord (overflow : Overflow) (events : Trace) (f : Nnf) {largest : Nat}
    (position : Fin (largest + 1)) : Option Bool :=
  f.evaluate (overflow.next? largest) events position

end Nnf

end ProcessLogic
