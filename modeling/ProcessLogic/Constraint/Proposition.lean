/-!
# Propositions for activities

An activity name becomes a proposition that formulas can mention: an identifier that is not a
constant. Letters are made small and what an identifier cannot hold is left out, so different
names may share a proposition.
-/

namespace ProcessLogic

/-- What a character contributes to a proposition. Besides the capitals there are two
characters whose small form holds an ASCII letter: the dotted capital I and the Kelvin sign. -/
def propositionChar (c : Char) : Option Char :=
  if 'A' ≤ c ∧ c ≤ 'Z' then some c.toLower
  else if ('a' ≤ c ∧ c ≤ 'z') ∨ ('0' ≤ c ∧ c ≤ '9') ∨ c = '_' then some c
  else if c = '\u0130' then some 'i'
  else if c = '\u212a' then some 'k'
  else none

/-- Whether a proposition needs an underscore in front: it must start with a letter or an
underscore and be no constant. -/
def needsUnderscore (cs : List Char) : Bool :=
  match cs with
  | [] => true
  | c :: _ => ('0' ≤ c && c ≤ '9') || cs == "true".toList || cs == "false".toList

/-- The proposition of an activity. -/
def proposition (activity : String) : String :=
  let cs := activity.toList.filterMap propositionChar
  .ofList (if needsUnderscore cs then '_' :: cs else cs)

end ProcessLogic
