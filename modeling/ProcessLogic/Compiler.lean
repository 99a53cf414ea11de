import ProcessLogic.Automaton.Basic
import ProcessLogic.Event
import ProcessLogic.Formula.Parser
import ProcessLogic.Description.Writer
import ProcessLogic.Residual.Progression
import ProcessLogic.Search.BreadthFirst

/-!
# From formulas to automata

The states of the automaton of a formula are the obligations that events leave, and a first
state for the trace of which nothing has been read. States are numbered in the order in which
a breadth-first search finds them. Obligations that cannot be met are no state: the edge to
them is missing.
-/

namespace ProcessLogic

/-- How formulas are compiled: the declared propositions, to which those of a formula are added,
the events of a trace, and how many states an automaton may have. -/
structure Compiler where
  declared : List String := []
  semantics : EventSemantics := .unrestricted
  maxStates : Nat := 50000
  deriving Inhabited

/-- Why a formula has no automaton. -/
inductive CompileError
  | syntaxError (error : Formula.ParseError)
  | tooManyStates (formula : Formula) (limit : Nat)
  | tooManyPropositions (count limit : Nat)
  | invalid (violation : Violation)
  deriving DecidableEq

/-- The message of a compile error. -/
def CompileError.message : CompileError → String
  | .syntaxError error => error.message
  | .tooManyStates formula limit =>
    "the automaton for `" ++ formula.print ++ "` exceeds " ++ toString limit ++ " states"
  | .tooManyPropositions count limit =>
    "unrestricted semantics over " ++ toString count ++
      " propositions exceeds the limit of " ++ toString limit
  | .invalid violation => violation.message

/-- How much of a trace has been read: nothing, or a part that left some obligations. -/
inductive Stage
  | initial
  | residual (obligations : Dnf)
  deriving DecidableEq, Hashable

/-- An event with its label and with what it leaves of every stored formula, which is computed
when it is first asked for. -/
structure Letter where
  label : Label
  progress : Thunk Progress

/-- A formula whose nodes are stored, and the letters that traces are made of. -/
structure Progression where
  root : Nat
  holdsOnEmpty : Bool
  letters : List Letter

namespace Progression

/-- Stores a normal form; its letters are the events of a universe. -/
def ofNnf (f : Nnf) (props : List String) (events : List Event) : Progression :=
  let (root, store) := Store.intern {} f
  { root := root
    holdsOnEmpty := store.holdsOnEmpty root
    letters := events.map fun event =>
      { label := event.label props, progress := ⟨fun _ => Progress.ofStore store event⟩ } }

/-- The obligations after one more letter. -/
def after (p : Progression) (letter : Letter) : Stage → Dnf
  | .initial => letter.progress.get.of p.root
  | .residual obligations => letter.progress.get.successor obligations

/-- The stage after one more letter, if the formula can still hold. -/
def step (p : Progression) (stage : Stage) (letter : Letter) : Option Stage :=
  let obligations := p.after letter stage
  if obligations.isBottom then none else some (.residual obligations)

/-- Whether the trace may end at a stage. -/
def mayEnd (p : Progression) : Stage → Bool
  | .initial => p.holdsOnEmpty
  | .residual obligations => obligations.acceptsEnd

end Progression

/-- The name of state number `n`: states are named from 1 on. -/
def stateNumber (n : Nat) : String := toString (n + 1)

/-- The automaton of a finished search. -/
def Progression.automaton (p : Progression) (search : Search Stage Letter) :
    Except Violation Automaton :=
  let stages := search.found.toList
  let finals := stages.zipIdx.filterMap fun (stage, n) =>
    if p.mayEnd stage then some (stateNumber n) else none
  Automaton.build ((List.range stages.length).map stateNumber)
    (search.moves.toList.map fun (s, letter, t) => ⟨stateNumber s, letter.label, stateNumber t⟩)
    (stateNumber 0) finals

namespace Compiler

/-- The universe of a formula: its own and the declared propositions, in order. -/
def propositions (c : Compiler) (f : Formula) : List String :=
  Sorted.distinctStrings (c.declared ++ f.propositions)

/-- The progression of a formula over all events. -/
def progression (c : Compiler) (f : Formula) : Progression :=
  let props := c.propositions f
  Progression.ofNnf f.nnf props (c.semantics.events props)

/-- The automaton of a formula. -/
def automaton (c : Compiler) (f : Formula) : Except CompileError Automaton :=
  let count := (c.propositions f).length
  if !c.semantics.allows count then
    .error (.tooManyPropositions count EventSemantics.maxUnrestricted)
  else
    let p := c.progression f
    match Search.run p.letters p.step (fun _ => false) c.maxStates .initial with
    | none => .error (.tooManyStates f c.maxStates)
    | some (search, _) =>
      match p.automaton search with
      | .ok automaton => .ok automaton
      | .error violation => .error (.invalid violation)

/-- The automaton of a formula given as text. -/
def automatonOfText (c : Compiler) (text : String) : Except CompileError Automaton :=
  match Formula.parse text with
  | .ok f => c.automaton f
  | .error error => .error (.syntaxError error)

/-- The description of the automaton of a formula given as text. -/
def compile (c : Compiler) (text : String) : Except CompileError String :=
  (c.automatonOfText text).map Description.write

end Compiler

end ProcessLogic
