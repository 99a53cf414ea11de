import ProcessLogic.Constraint.Proposition
import ProcessLogic.Text.Blank

/-!
# Constraint templates

The catalog of constraint templates of the Declare language. A template is a formula over an
activation `a` and, for most of them, a target `b`.
-/

namespace ProcessLogic

/-- The templates in the order of the catalog. -/
inductive Template
  | init
  | existence
  | existence2
  | existence3
  | absence
  | absence2
  | absence3
  | exactly1
  | exactly2
  | choice
  | exclusiveChoice
  | respondedExistence
  | coExistence
  | response
  | alternateResponse
  | chainResponse
  | precedence
  | alternatePrecedence
  | chainPrecedence
  | succession
  | alternateSuccession
  | chainSuccession
  | notCoExistence
  | notRespondedExistence
  | notResponse
  | notPrecedence
  | notSuccession
  | notChainResponse
  | notChainPrecedence
  | notChainSuccession
  deriving DecidableEq, Inhabited

namespace Template

/-- All templates in the order of the catalog. -/
def catalog : List Template :=
  [init, existence, existence2, existence3, absence, absence2, absence3, exactly1, exactly2,
    choice, exclusiveChoice, respondedExistence, coExistence, response, alternateResponse,
    chainResponse, precedence, alternatePrecedence, chainPrecedence, succession,
    alternateSuccession, chainSuccession, notCoExistence, notRespondedExistence, notResponse,
    notPrecedence, notSuccession, notChainResponse, notChainPrecedence, notChainSuccession]

/-- The name by which models call a template. -/
def name : Template → String
  | init => "Init"
  | existence => "Existence"
  | existence2 => "Existence2"
  | existence3 => "Existence3"
  | absence => "Absence"
  | absence2 => "Absence2"
  | absence3 => "Absence3"
  | exactly1 => "Exactly1"
  | exactly2 => "Exactly2"
  | choice => "Choice"
  | exclusiveChoice => "Exclusive Choice"
  | respondedExistence => "Responded Existence"
  | coExistence => "Co-Existence"
  | response => "Response"
  | alternateResponse => "Alternate Response"
  | chainResponse => "Chain Response"
  | precedence => "Precedence"
  | alternatePrecedence => "Alternate Precedence"
  | chainPrecedence => "Chain Precedence"
  | succession => "Succession"
  | alternateSuccession => "Alternate Succession"
  | chainSuccession => "Chain Succession"
  | notCoExistence => "Not Co-Existence"
  | notRespondedExistence => "Not Responded Existence"
  | notResponse => "Not Response"
  | notPrecedence => "Not Precedence"
  | notSuccession => "Not Succession"
  | notChainResponse => "Not Chain Response"
  | notChainPrecedence => "Not Chain Precedence"
  | notChainSuccession => "Not Chain Succession"

/-- The template of a name; blanks around the name do not count. -/
def ofName? (name : String) : Option Template :=
  catalog.find? fun t => t.name == Text.trimmed name

/-- How many activities a template is about. -/
def arity : Template → Nat
  | init | existence | existence2 | existence3 | absence | absence2 | absence3 | exactly1
  | exactly2 => 1
  | _ => 2

/-- Two positions or more have an `a`. -/
def twice (a : String) : String := s!"F({a} & X(F({a})))"

/-- Three positions or more have an `a`. -/
def thrice (a : String) : String := s!"F({a} & X(F({a} & X(F({a})))))"

/-- Every `b` comes after an `a`: none comes before the first `a`, if there is one. -/
def before (a b : String) : String := s!"(!{b} U {a}) | G(!{b})"

/-- Two formulas that must both hold. -/
def both (f g : String) : String := s!"({f}) & ({g})"

/-- Every `a` is followed by a `b`. -/
def responseText (a b : String) : String := s!"G({a} -> F({b}))"

/-- Every `a` is followed by a `b` before the next `a`. -/
def alternateResponseText (a b : String) : String := s!"G({a} -> X(!{a} U {b}))"

/-- Every `a` is directly followed by a `b`. -/
def chainResponseText (a b : String) : String := s!"G({a} -> X({b}))"

/-- Every `b` comes after an `a` with no `b` in between. -/
def alternatePrecedenceText (a b : String) : String :=
  s!"({before a b}) & G({b} -> WX({before a b}))"

/-- Every `b` comes directly after an `a`. -/
def chainPrecedenceText (a b : String) : String := s!"G(X({b}) -> {a}) & !{b}"

/-- The text of the formula over an activation and a target, which templates of one activity
do not use. -/
def formulaText (a b : String) : Template → String
  | init => a
  | existence => s!"F({a})"
  | existence2 => twice a
  | existence3 => thrice a
  | absence => s!"!F({a})"
  | absence2 => "!" ++ twice a
  | absence3 => "!" ++ thrice a
  | exactly1 => s!"F({a}) & !" ++ twice a
  | exactly2 => twice a ++ " & !" ++ thrice a
  | choice => s!"F({a}) | F({b})"
  | exclusiveChoice => s!"(F({a}) | F({b})) & !(F({a}) & F({b}))"
  | respondedExistence => s!"F({a}) -> F({b})"
  | coExistence => s!"(F({a}) -> F({b})) & (F({b}) -> F({a}))"
  | response => responseText a b
  | alternateResponse => alternateResponseText a b
  | chainResponse => chainResponseText a b
  | precedence => before a b
  | alternatePrecedence => alternatePrecedenceText a b
  | chainPrecedence => chainPrecedenceText a b
  | succession => both (responseText a b) (before a b)
  | alternateSuccession => both (alternateResponseText a b) (alternatePrecedenceText a b)
  | chainSuccession => both (chainResponseText a b) (chainPrecedenceText a b)
  | notCoExistence => s!"!(F({a}) & F({b}))"
  | notRespondedExistence => s!"F({a}) -> !F({b})"
  | notResponse | notPrecedence | notSuccession => s!"G({a} -> !F({b}))"
  | notChainResponse | notChainSuccession => s!"G({a} -> !X({b}))"
  | notChainPrecedence => s!"G(X({b}) -> !{a})"

end Template

/-- A constraint with the text of its formula. -/
structure Requirement where
  template : String
  activities : List String
  formula : String
  deriving DecidableEq, Inhabited

/-- Why a constraint has no formula. -/
inductive TemplateError
  | unknownTemplate (name : String)
  | arityMismatch (template : Template) (actual : Nat)
  deriving DecidableEq

/-- The message of a template error. -/
def TemplateError.message : TemplateError → String
  | .unknownTemplate name => "unknown template `" ++ name ++ "`"
  | .arityMismatch template actual =>
    "template `" ++ template.name ++ "` takes " ++ toString template.arity ++
      " activities, got " ++ toString actual

/-- Expands the template of a name over activities. -/
def Requirement.expand (name : String) (activities : List String) :
    Except TemplateError Requirement :=
  match Template.ofName? name with
  | none => .error (.unknownTemplate (Text.trimmed name))
  | some template =>
    if activities.length = template.arity then
      let a := proposition (activities[0]?.getD "")
      let b := (activities[1]?.map proposition).getD a
      .ok ⟨template.name, activities.map Text.trimmed, template.formulaText a b⟩
    else .error (.arityMismatch template activities.length)

end ProcessLogic
