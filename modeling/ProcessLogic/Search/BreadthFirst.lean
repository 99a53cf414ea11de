import ProcessLogic.Collection.Roster

/-!
# Breadth-first search

A search follows the letters of an alphabet: `step` tells which state a letter leads to, if any.
States are numbered in the order in which the search finds them, and each keeps the trail of
letters that found it. The search treats states in that order, and letters in the order of the
alphabet, so a trail is as short as any way to its state, and of those the first in the order
of the letters. The search ends at the first state it is asked to stop at, when no state is
left, or with an error when it would find more states than allowed.
-/

namespace ProcessLogic

/-- What a search has found: the states in order of discovery, for each state the letters that
first led to it (last letter first), and every move made, between states given by number. -/
structure Search (σ κ : Type) [BEq σ] [Hashable σ] where
  found : Roster σ
  trails : Array (List κ)
  moves : Array (Nat × κ × Nat) := #[]

namespace Search

variable {σ κ : Type} [BEq σ] [Hashable σ]

/-- The search that has found only its start. -/
def start (s : σ) : Search σ κ := { found := Roster.ofList [s], trails := #[[]] }

/-- Records the move by `letter` from state number `source` to the state `target`. A new state
is refused once `limit` states are known. -/
def visit (limit source : Nat) (search : Search σ κ) (letter : κ) (target : σ) :
    Option (Search σ κ) :=
  match search.found.rank? target with
  | some rank => some { search with moves := search.moves.push (source, letter, rank) }
  | none =>
    if limit ≤ search.found.size then none
    else
      let trail := letter :: search.trails.getD source []
      let (rank, found) := search.found.intern target
      some {
        found := found
        trails := search.trails.push trail
        moves := search.moves.push (source, letter, rank) }

/-- Records all moves out of the state `s` of number `source`. Letters are tried one by one, so
none is tried after a refusal. -/
def expand (letters : List κ) (step : σ → κ → Option σ) (limit source : Nat) (s : σ)
    (search : Search σ κ) : Option (Search σ κ) :=
  letters.foldlM
    (fun search letter =>
      match step s letter with
      | none => some search
      | some target => search.visit limit source letter target)
    search

/-- Treats the states from number `source` on, at most `fuel` of them. The answer holds the
number of the state that was to stop the search, if one was met. -/
def runFrom (letters : List κ) (step : σ → κ → Option σ) (stop : σ → Bool) (limit : Nat) :
    Nat → Nat → Search σ κ → Option (Search σ κ × Option Nat)
  | 0, _, search => some (search, none)
  | fuel + 1, source, search =>
    match search.found.get? source with
    | none => some (search, none)
    | some s =>
      if stop s then some (search, some source)
      else
        match search.expand letters step limit source s with
        | none => none
        | some search => runFrom letters step stop limit fuel (source + 1) search

/-- Searches from `s`, allowing `limit` states (the start is always allowed). `none` means that
there are more. -/
def run (letters : List κ) (step : σ → κ → Option σ) (stop : σ → Bool) (limit : Nat) (s : σ) :
    Option (Search σ κ × Option Nat) :=
  runFrom letters step stop limit (max 1 limit) 0 (start s)

end Search

end ProcessLogic
