import ProcessLogic.Formula.Nnf

/-!
# The meaning of formulas on finite traces

`Formula.Holds` states what a formula demands of a trace from a position on, directly on the
formula and with quantifiers over positions. Positions at or past the end are allowed: there
propositions, `next`, `eventually` and `until` fail and their duals hold.
-/

namespace ProcessLogic.Formula

/-- The position exists and the proposition is in its event. -/
def Occurs (events : Trace) (name : String) (i : Nat) : Prop :=
  ∃ event, events[i]? = some event ∧ name ∈ event

/-- The rest of `events` from a position on satisfies a formula. -/
def Holds (events : Trace) : Formula → Nat → Prop
  | .const value, _ => value = true
  | .prop name, i => Occurs events name i
  | .unary .not p, i => ¬ Holds events p i
  | .unary .next p, i => i + 1 < events.length ∧ Holds events p (i + 1)
  | .unary .weakNext p, i => i + 1 < events.length → Holds events p (i + 1)
  | .unary .always p, i => ∀ k, i ≤ k → k < events.length → Holds events p k
  | .unary .eventually p, i => ∃ k, i ≤ k ∧ k < events.length ∧ Holds events p k
  | .binary .and p q, i => Holds events p i ∧ Holds events q i
  | .binary .or p q, i => Holds events p i ∨ Holds events q i
  | .binary .implies p q, i => Holds events p i → Holds events q i
  | .binary .equiv p q, i => Holds events p i ↔ Holds events q i
  | .binary .until p q, i =>
    ∃ k, i ≤ k ∧ k < events.length ∧ Holds events q k ∧ ∀ j, i ≤ j → j < k → Holds events p j
  | .binary .release p q, i =>
    ∀ k, i ≤ k → k < events.length → Holds events q k ∨ ∃ j, i ≤ j ∧ j < k ∧ Holds events p j
  | .binary .weakUntil p q, i =>
    (∃ k, i ≤ k ∧ k < events.length ∧ Holds events q k ∧ ∀ j, i ≤ j → j < k → Holds events p j) ∨
      ∀ k, i ≤ k → k < events.length → Holds events p k

end ProcessLogic.Formula
