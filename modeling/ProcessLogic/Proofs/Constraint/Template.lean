import ProcessLogic.Constraint.Template
import ProcessLogic.Proofs.Formula.Parser

/-!
# Every template is a formula

The text of a template, filled in with names, is read as the formula that its signs suggest. That
formula mentions what the template is about and nothing else.
-/

namespace ProcessLogic

open Formula Text

namespace Template

/-- The formula of a template over the formulas of its activation and its target. -/
def formula (a b : Formula) : Template → Formula
  | init => a
  | existence => someTime a
  | existence2 => twiceFormula a
  | existence3 => thriceFormula a
  | absence => .unary .not (someTime a)
  | absence2 => .unary .not (twiceFormula a)
  | absence3 => .unary .not (thriceFormula a)
  | exactly1 => .binary .and (someTime a) (.unary .not (twiceFormula a))
  | exactly2 => .binary .and (twiceFormula a) (.unary .not (thriceFormula a))
  | choice => .binary .or (someTime a) (someTime b)
  | exclusiveChoice => .binary .and (.binary .or (someTime a) (someTime b))
      (.unary .not (.binary .and (someTime a) (someTime b)))
  | respondedExistence => .binary .implies (someTime a) (someTime b)
  | coExistence => .binary .and (.binary .implies (someTime a) (someTime b))
      (.binary .implies (someTime b) (someTime a))
  | response => responseFormula a b
  | alternateResponse => alternateResponseFormula a b
  | chainResponse => chainResponseFormula a b
  | precedence => beforeFormula a b
  | alternatePrecedence => alternatePrecedenceFormula a b
  | chainPrecedence => chainPrecedenceFormula a b
  | succession => .binary .and (responseFormula a b) (beforeFormula a b)
  | alternateSuccession =>
    .binary .and (alternateResponseFormula a b) (alternatePrecedenceFormula a b)
  | chainSuccession => .binary .and (chainResponseFormula a b) (chainPrecedenceFormula a b)
  | notCoExistence => .unary .not (.binary .and (someTime a) (someTime b))
  | notRespondedExistence => .binary .implies (someTime a) (.unary .not (someTime b))
  | notResponse | notPrecedence | notSuccession =>
    .unary .always (.binary .implies a (.unary .not (someTime b)))
  | notChainResponse | notChainSuccession =>
    .unary .always (.binary .implies a (.unary .not (.unary .next b)))
  | notChainPrecedence => .unary .always (.binary .implies (.unary .next b) (.unary .not a))
where
  someTime (a : Formula) : Formula := .unary .eventually a
  twiceFormula (a : Formula) : Formula := someTime (.binary .and a (.unary .next (someTime a)))
  thriceFormula (a : Formula) : Formula :=
    someTime (.binary .and a (.unary .next (twiceFormula a)))
  beforeFormula (a b : Formula) : Formula :=
    .binary .or (.binary .until (.unary .not b) a) (.unary .always (.unary .not b))
  responseFormula (a b : Formula) : Formula := .unary .always (.binary .implies a (someTime b))
  alternateResponseFormula (a b : Formula) : Formula :=
    .unary .always (.binary .implies a (.unary .next (.binary .until (.unary .not a) b)))
  chainResponseFormula (a b : Formula) : Formula :=
    .unary .always (.binary .implies a (.unary .next b))
  alternatePrecedenceFormula (a b : Formula) : Formula :=
    .binary .and (beforeFormula a b)
      (.unary .always (.binary .implies b (.unary .weakNext (beforeFormula a b))))
  chainPrecedenceFormula (a b : Formula) : Formula :=
    .binary .and (.unary .always (.binary .implies (.unary .next b) a)) (.unary .not b)

/-- The text of a template is read as its formula. -/
theorem parse_formulaText {a b : String} (ha : IsName a) (hb : IsName b) (t : Template) :
    parse (t.formulaText a b) = .ok (t.formula (.prop a) (.prop b)) := by
  rw [parse_eq_ok_iff]
  cases t <;>
    simp only [formulaText, twice, thrice, before, both, responseText, alternateResponseText,
      chainResponseText, alternatePrecedenceText, chainPrecedenceText, toString,
      String.toList_append, List.append_assoc] <;>
    simp [Token.tokens_name_closeParen, Token.tokens_name_blank, Token.tokens_name, ha, hb] <;>
    exact ⟨_, rfl, rfl⟩

/-- A template mentions its activation and, if it is about two activities, its target. -/
theorem mem_occurrences_formula_iff {a b : Formula} {t : Template} {p : String} :
    p ∈ (t.formula a b).occurrences ↔ p ∈ a.occurrences ∨ t.arity = 2 ∧ p ∈ b.occurrences := by
  cases t <;>
    simp only [arity, formula, formula.someTime, formula.twiceFormula, formula.thriceFormula,
      formula.beforeFormula, formula.responseFormula, formula.alternateResponseFormula,
      formula.chainResponseFormula, formula.alternatePrecedenceFormula,
      formula.chainPrecedenceFormula, occurrences, List.mem_append] <;>
    grind

/-- Every template is about one activity or two. -/
theorem arity_eq (t : Template) : t.arity = 1 ∨ t.arity = 2 := by
  cases t <;> decide

/-- Up to blanks around it, a template is found under its own name and under no other. -/
theorem ofName?_eq_some_iff {name : String} {t : Template} :
    ofName? name = some t ↔ trimmed name = t.name := by
  constructor
  · intro h
    unfold ofName? at h
    have hfound := List.find?_some h
    exact (beq_iff_eq.mp hfound).symm
  · intro h
    rw [ofName?, h]
    cases t <;> decide

/-- The names, as models write them. -/
example : catalog.map name =
    ["Init", "Existence", "Existence2", "Existence3", "Absence", "Absence2", "Absence3", "Exactly1",
      "Exactly2", "Choice", "Exclusive Choice", "Responded Existence", "Co-Existence", "Response",
      "Alternate Response", "Chain Response", "Precedence", "Alternate Precedence",
      "Chain Precedence", "Succession", "Alternate Succession", "Chain Succession",
      "Not Co-Existence", "Not Responded Existence", "Not Response", "Not Precedence",
      "Not Succession", "Not Chain Response", "Not Chain Precedence", "Not Chain Succession"] :=
  rfl

end Template

end ProcessLogic
