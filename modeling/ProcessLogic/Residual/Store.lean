import ProcessLogic.Collection.Roster
import ProcessLogic.Formula.Nnf

/-!
# Shared formula nodes

Normal forms are stored as nodes that refer to their parts by number, equal nodes once. Parts
are stored before the whole, so a node refers to smaller numbers only, and equal formulas have
equal numbers. What a formula is worth can therefore be computed for all stored formulas in one
pass over the store: a node needs only the values of smaller numbers.
-/

namespace ProcessLogic

/-- A normal form whose parts are numbers of stored nodes. -/
inductive Node
  | literal (negated : Bool) (name : String)
  | const (value : Bool)
  | until (left right : Nat)
  | release (left right : Nat)
  | or (left right : Nat)
  | and (left right : Nat)
  | next (body : Nat)
  | weakNext (body : Nat)
  deriving DecidableEq, Hashable

/-- The nodes stored so far; a node's number is its place. -/
abbrev Store := Roster Node

namespace Store

/-- The number of a formula after it has been stored, and the store that holds it. -/
def intern (store : Store) : Nnf → Nat × Store
  | .literal negated name => Roster.intern store (.literal negated name)
  | .const value => Roster.intern store (.const value)
  | .until p q =>
    let (i, store) := intern store p
    let (j, store) := intern store q
    Roster.intern store (.until i j)
  | .release p q =>
    let (i, store) := intern store p
    let (j, store) := intern store q
    Roster.intern store (.release i j)
  | .or p q =>
    let (i, store) := intern store p
    let (j, store) := intern store q
    Roster.intern store (.or i j)
  | .and p q =>
    let (i, store) := intern store p
    let (j, store) := intern store q
    Roster.intern store (.and i j)
  | .next p =>
    let (i, store) := intern store p
    Roster.intern store (.next i)
  | .weakNext p =>
    let (i, store) := intern store p
    Roster.intern store (.weakNext i)

/-- Says that the node of number `i`, unfolded through the store, is the formula. -/
inductive Denotes (store : Store) : Nat → Nnf → Prop
  | literal {i : Nat} {negated : Bool} {name : String} :
      store.get? i = some (.literal negated name) → Denotes store i (.literal negated name)
  | const {i : Nat} {value : Bool} :
      store.get? i = some (.const value) → Denotes store i (.const value)
  | until {i j k : Nat} {p q : Nnf} : store.get? i = some (.until j k) →
      Denotes store j p → Denotes store k q → Denotes store i (.until p q)
  | release {i j k : Nat} {p q : Nnf} : store.get? i = some (.release j k) →
      Denotes store j p → Denotes store k q → Denotes store i (.release p q)
  | or {i j k : Nat} {p q : Nnf} : store.get? i = some (.or j k) →
      Denotes store j p → Denotes store k q → Denotes store i (.or p q)
  | and {i j k : Nat} {p q : Nnf} : store.get? i = some (.and j k) →
      Denotes store j p → Denotes store k q → Denotes store i (.and p q)
  | next {i j : Nat} {p : Nnf} : store.get? i = some (.next j) →
      Denotes store j p → Denotes store i (.next p)
  | weakNext {i j : Nat} {p : Nnf} : store.get? i = some (.weakNext j) →
      Denotes store j p → Denotes store i (.weakNext p)

/-- A value for each stored node: `value` computes it from the number of the node and the values of
smaller numbers, and a number that has no value yet counts as `unknown`. -/
def pass {α : Type} (store : Store) (unknown : α) (value : Nat → (Nat → α) → Node → α) : Array α :=
  store.items.foldl
    (fun known node => known.push (value known.size (fun i => known.getD i unknown) node)) #[]

end Store

/-- Whether the formula of a node holds on the empty trace, when `known` tells it of its parts. -/
def Node.holdsOnEmpty (known : Nat → Bool) : Node → Bool
  | .literal negated _ => negated
  | .const value => value
  | .and p q => known p && known q
  | .or p q => known p || known q
  | .next _ | .until _ _ => false
  | .weakNext _ | .release _ _ => true

/-- Whether formula number `i` holds on the empty trace. -/
def Store.holdsOnEmpty (store : Store) (i : Nat) : Bool :=
  (store.pass false fun _ known node => node.holdsOnEmpty known).getD i false

end ProcessLogic
