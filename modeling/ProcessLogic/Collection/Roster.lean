import Std.Data.HashMap

/-!
# Rosters

A roster lists distinct items in the order in which they first came, and finds the place of an
item by hashing. Automaton states, alphabets, shared formula nodes and the states of a search
are all addressed by their place in a roster. Places are numbers without a bound; numbers of 32
bits are the same as long as fewer than 4294967296 items are listed.
-/

namespace ProcessLogic

/-- Distinct items in order of arrival. `ranks` sends each item to its place in `items`. -/
structure Roster (α : Type) [BEq α] [Hashable α] where
  items : Array α := #[]
  ranks : Std.HashMap α Nat := {}

namespace Roster

variable {α : Type} [BEq α] [Hashable α]

/-- The list and the index say the same: the item at place `i` is indexed there, and what is
indexed at `i` stands there. In particular no item is listed twice. -/
structure WellFormed (r : Roster α) : Prop where
  rank_of_item : ∀ (i : Nat) (a : α), r.items[i]? = some a → r.ranks[a]? = some i
  item_of_rank : ∀ (i : Nat) (a : α), r.ranks[a]? = some i → r.items[i]? = some a

instance : Inhabited (Roster α) := ⟨{}⟩

/-- How many items there are. -/
def size (r : Roster α) : Nat := r.items.size

/-- The items in order of arrival. -/
def toList (r : Roster α) : List α := r.items.toList

/-- The item at place `i`. -/
def get? (r : Roster α) (i : Nat) : Option α := r.items[i]?

/-- The place of `a`. -/
def rank? (r : Roster α) (a : α) : Option Nat := r.ranks[a]?

/-- Whether `a` is listed. -/
def contains (r : Roster α) (a : α) : Bool := (r.rank? a).isSome

/-- The place of `a` after it has been listed, and the roster that lists it. A place is a number of 32
bits unless more items are listed than there are such numbers. -/
def intern (r : Roster α) (a : α) : Nat × Roster α :=
  match r.ranks[a]? with
  | some i => (i, r)
  | none => (r.items.size, ⟨r.items.push a, r.ranks.insert a r.items.size⟩)

/-- Lists `a` at the end unless it is there already. -/
def insert (r : Roster α) (a : α) : Roster α := (r.intern a).2

/-- Lists the items of `as` after those of `r`. -/
def insertMany (r : Roster α) (as : List α) : Roster α := as.foldl insert r

/-- The distinct items of a list, in order of first occurrence. -/
def ofList (as : List α) : Roster α := insertMany {} as

end Roster

end ProcessLogic
