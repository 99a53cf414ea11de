import ProcessLogic.Formula.Basic

/-!
# Negation normal form

In negation normal form negation stands only before propositions, and `always` and
`eventually` are written with `release` and `until`. `Formula.nnf` pushes negations inwards
in one pass that carries the sign of the context. `Nnf.holdsAt` is the meaning on a finite
trace, for positions without a bound: past the end of the trace propositions, `next` and `until`
are false and their duals are true.
-/

namespace ProcessLogic

/-- The propositions that hold at one position of a trace. -/
abbrev Event := List String

/-- A finite sequence of events. -/
abbrev Trace := List Event

/-- Formulas in negation normal form. -/
inductive Nnf
  | literal (negated : Bool) (name : String)
  | const (value : Bool)
  | until (left right : Nnf)
  | release (left right : Nnf)
  | or (left right : Nnf)
  | and (left right : Nnf)
  | next (body : Nnf)
  | weakNext (body : Nnf)
  deriving DecidableEq, Inhabited

namespace Nnf

/-- Demands `f` at every position: `false` never releases it. -/
def always (f : Nnf) : Nnf := .release (.const false) f

/-- Demands `f` at some position: `true` lasts until then. -/
def eventually (f : Nnf) : Nnf := .until (.const true) f

/-- The written form, with every binary operator in parentheses. -/
def print : Nnf → String
  | .literal true name => "¬" ++ name
  | .literal false name => name
  | .const true => "T"
  | .const false => "⊥"
  | .until p q => "(" ++ p.print ++ " U " ++ q.print ++ ")"
  | .release p q => "(" ++ p.print ++ " R " ++ q.print ++ ")"
  | .or p q => "(" ++ p.print ++ " ∨ " ++ q.print ++ ")"
  | .and p q => "(" ++ p.print ++ " ∧ " ++ q.print ++ ")"
  | .next p => "X " ++ p.print
  | .weakNext p => "WX " ++ p.print

instance : ToString Nnf := ⟨print⟩

/-- The positions `i, i + 1, …` before `n`. -/
def positions (i n : Nat) : List Nat := List.range' i (n - i)

/-- Whether the rest of `events` from `position` on satisfies the formula. -/
def holdsAt (events : Trace) : Nnf → Nat → Bool
  | .literal negated name, i =>
    match events[i]? with
    | some event => event.contains name != negated
    | none => negated
  | .const value, _ => value
  | .and p q, i => p.holdsAt events i && q.holdsAt events i
  | .or p q, i => p.holdsAt events i || q.holdsAt events i
  | .next p, i => decide (i + 1 < events.length) && p.holdsAt events (i + 1)
  | .weakNext p, i => decide (events.length ≤ i + 1) || p.holdsAt events (i + 1)
  | .until p q, i =>
    (positions i events.length).any fun k =>
      q.holdsAt events k && (positions i k).all fun j => p.holdsAt events j
  | .release p q, i =>
    (positions i events.length).all fun k =>
      q.holdsAt events k || (positions i k).any fun j => p.holdsAt events j

/-- Whether the whole trace satisfies the formula. -/
def holds (f : Nnf) (events : Trace) : Bool := f.holdsAt events 0

end Nnf

namespace Formula

/-- The normal form of the formula, or of its negation if `positive` is false. -/
def normal : Bool → Formula → Nnf
  | positive, .const value => .const (value == positive)
  | positive, .prop name => .literal (!positive) name
  | positive, .unary .not p => normal (!positive) p
  | true, .unary .next p => .next (normal true p)
  | false, .unary .next p => .weakNext (normal false p)
  | true, .unary .weakNext p => .weakNext (normal true p)
  | false, .unary .weakNext p => .next (normal false p)
  | true, .unary .always p => (normal true p).always
  | false, .unary .always p => (normal false p).eventually
  | true, .unary .eventually p => (normal true p).eventually
  | false, .unary .eventually p => (normal false p).always
  | true, .binary .and p q => .and (normal true p) (normal true q)
  | false, .binary .and p q => .or (normal false p) (normal false q)
  | true, .binary .or p q => .or (normal true p) (normal true q)
  | false, .binary .or p q => .and (normal false p) (normal false q)
  | true, .binary .implies p q => .or (normal false p) (normal true q)
  | false, .binary .implies p q => .and (normal true p) (normal false q)
  | true, .binary .equiv p q =>
    .and (.or (normal false p) (normal true q)) (.or (normal true p) (normal false q))
  | false, .binary .equiv p q =>
    .or (.and (normal true p) (normal false q)) (.and (normal false p) (normal true q))
  | true, .binary .until p q => .until (normal true p) (normal true q)
  | false, .binary .until p q => .release (normal false p) (normal false q)
  | true, .binary .release p q => .release (normal true p) (normal true q)
  | false, .binary .release p q => .until (normal false p) (normal false q)
  | true, .binary .weakUntil p q =>
    .release (normal true q) (.or (normal true p) (normal true q))
  | false, .binary .weakUntil p q =>
    .until (normal false q) (.and (normal false p) (normal false q))

/-- The negation normal form. -/
def nnf (f : Formula) : Nnf := f.normal true

end Formula

end ProcessLogic
