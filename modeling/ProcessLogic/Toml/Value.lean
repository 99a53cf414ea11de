import ProcessLogic.Decimal.Binary64

/-!
# TOML values

The values of a TOML document. Tables keep their entries in the order in which they were
defined, and remember how they came to be, because that decides who may add to them. They serve
the outer layer that reads options, and no theorem of this library is about them.
-/

namespace ProcessLogic.Toml

open Decimal (Binary64)

/-- Floating point numbers. -/
inductive Number
  | finite (negative : Bool) (value : Binary64)
  | infinite (negative : Bool)
  | nan
  deriving DecidableEq

/-- How a table came to be: in braces, by a header of its own, on the way to the table of a
header, or on the way to a dotted key. -/
inductive TableForm
  | inlined
  | header
  | implied
  | dotted
  deriving DecidableEq

/-- Values. `tables` is an array whose rows were added by headers in double brackets. -/
inductive Value
  | string (text : String)
  | integer (value : Int)
  | float (value : Number)
  | boolean (value : Bool)
  | datetime
  | array (items : List Value)
  | table (form : TableForm) (entries : List (String × Value))
  | tables (rows : List (List (String × Value)))
  deriving Inhabited

/-- The entries of a table. -/
abbrev Entries := List (String × Value)

namespace Entries

/-- Changes the value of a key, or adds the key at the end; `change` also gives a result. -/
def update {α : Type} (key : String) (change : Option Value → Option (α × Value)) :
    Entries → Option (α × Entries)
  | [] => (change none).map fun (a, v) => (a, [(key, v)])
  | (k, v) :: rest =>
    if k = key then (change (some v)).map fun (a, v) => (a, (k, v) :: rest)
    else (update key change rest).map fun (a, rest) => (a, (k, v) :: rest)

/-- Changes the table at the end of a path; tables on the way are made if they are missing.
`dotted` tells whether the path is that of a dotted key: such a path may only go through tables
that no header has defined, and none goes through a value. `change` learns whether the table
it gets was made by dotted keys. -/
def within {α : Type} (dotted : Bool) (change : Bool → Entries → Option (α × Entries)) :
    List String → Bool → Entries → Option (α × Entries)
  | [], isDotted, entries => change isDotted entries
  | key :: path, _, entries =>
    entries.update key fun
      | none =>
        let form := if dotted then TableForm.dotted else TableForm.implied
        (within dotted change path dotted []).map fun (a, inner) => (a, .table form inner)
      | some (.table form inner) =>
        if form = .inlined || (dotted && form = .header) then none
        else
          (within dotted change path (form = .dotted) inner).map fun (a, inner) =>
            (a, .table form inner)
      | some (.tables rows) =>
        rows.getLast?.bind fun row =>
          (within dotted change path false row).map fun (a, row) =>
            (a, .tables (rows.dropLast ++ [row]))
      | some _ => none

/-- Adds a new key. -/
def define (key : String) (value : Value) (entries : Entries) : Option Entries :=
  if entries.any fun entry => entry.1 == key then none else some (entries ++ [(key, value)])

/-- Adds the value of a key that may be dotted. The table that gets it must have been made by
dotted keys just if this key is dotted. -/
def insertKey (key : List String) (value : Value) (entries : Entries) : Option Entries :=
  key.getLast?.bind fun last =>
    let path := key.dropLast
    let add := fun isDotted (inner : Entries) =>
      if isDotted = path.isEmpty then none else (inner.define last value).map ((), ·)
    (entries.within true add path false).map (·.2)

end Entries

end ProcessLogic.Toml
