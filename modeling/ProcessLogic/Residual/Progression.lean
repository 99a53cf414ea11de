import ProcessLogic.Residual.Dnf
import ProcessLogic.Residual.Store

/-!
# Progression

Reading an event turns a formula into the obligations that it leaves for the rest of the trace.
The obligations of all stored formulas are computed in one pass over the store.
-/

namespace ProcessLogic

/-- The obligations that a node leaves after an event. `self` is the number of the node and
`known` gives the obligations of smaller numbers. -/
def Node.progress (event : Event) (self : Nat) (known : Nat → Dnf) : Node → Dnf
  | .literal negated name => if event.contains name != negated then .top else .bottom
  | .const value => if value then .top else .bottom
  | .and p q => (known p).and (known q)
  | .or p q => (known p).or (known q)
  | .next p => .ofObligation (.next p)
  | .weakNext p => .ofObligation (.weakNext p)
  | .until p q => (known q).or ((known p).and (.ofObligation (.next self)))
  | .release p q => (known q).and ((known p).or (.ofObligation (.weakNext self)))

/-- The obligations that each stored formula leaves after one event. -/
abbrev Progress := Array Dnf

namespace Progress

/-- The obligations of formula number `f`. -/
def of (progress : Progress) (f : Nat) : Dnf := progress.getD f .bottom

/-- The obligations of all nodes of a store after an event. -/
def ofStore (store : Store) (event : Event) : Progress :=
  store.pass .bottom fun self known node => node.progress event self known

/-- All obligations of a clause, progressed. -/
def ofClause (progress : Progress) (clause : Clause) : Dnf :=
  clause.foldl (fun sofar o => sofar.and (progress.of o.formula)) .top

/-- What is left of a residual after the event. -/
def successor (progress : Progress) (residual : Dnf) : Dnf :=
  residual.clauses.foldl (fun sofar clause => sofar.or (progress.ofClause clause)) .bottom

end Progress

end ProcessLogic
