import ProcessLogic.Event
import ProcessLogic.Text.Split

/-!
# Reading the command line

A command line names a command, then options with a value each, in any order with the
command's own argument. Options are read from left to right, and the first thing that is wrong
ends the reading, as does a request for help.
-/

namespace ProcessLogic.CommandLine

/-- How a report is written. -/
inductive Format
  | human
  | json
  deriving DecidableEq

/-- What the program is asked to do. -/
inductive Command
  | analyze (model : String) (config : Option String) (semantics : Option EventSemantics)
      (maxStates : Option Nat) (format : Format)
  | compile (formula : String) (activities : List String) (semantics : Option EventSemantics)
      (maxStates : Option Nat)
  | templates
  deriving DecidableEq

/-- What help can be asked about. -/
inductive Topic
  | program
  | help
  | analyze
  | compile
  | templates
  deriving DecidableEq

/-- Why no command is run. -/
inductive Stop
  | usage
  | help (topic : Topic) (long : Bool)
  | version
  deriving DecidableEq

/-- Options that take a value. -/
inductive Key
  | config
  | semantics
  | maxStates
  | format
  | activities
  deriving DecidableEq

/-- What one or two arguments say. -/
inductive Item
  | option (key : Key) (value : String)
  | plain (value : String)
  | help (long : Bool)
  | wrong
  deriving DecidableEq

/-- The long names of the options of a command. -/
def longKeys : Topic → List (String × Key)
  | .analyze => [("config", .config), ("semantics", .semantics), ("max-states", .maxStates),
      ("format", .format)]
  | .compile => [("activities", .activities), ("semantics", .semantics),
      ("max-states", .maxStates)]
  | _ => []

/-- The letters of the options of a command. -/
def shortKeys : Topic → List (Char × Key)
  | .analyze => [('f', .format)]
  | _ => []

/-- Whether an argument reads as an option; a lone hyphen does not. -/
def looksLikeOption (arg : String) : Bool :=
  match arg.toList with
  | '-' :: _ :: _ => true
  | _ => false

/-- An option that the next argument gives its value. -/
def awaited (key : Key) : List String → Item × Nat
  | next :: _ => if looksLikeOption next then (.wrong, 0) else (.option key next, 1)
  | [] => (.wrong, 0)

/-- A long option without its hyphens. -/
def longItem (topic : Topic) (name : List Char) (rest : List String) : Item × Nat :=
  let key := String.ofList (name.takeWhile (· != '='))
  match name.dropWhile (· != '=') with
  | [] =>
    if key = "help" then (.help true, 0)
    else
      match (longKeys topic).lookup key with
      | some key => awaited key rest
      | none => (.wrong, 0)
  | _ :: value =>
    match (longKeys topic).lookup key with
    | some key => (.option key (.ofList value), 0)
    | none => (.wrong, 0)

/-- A short option with the text that follows its letter. -/
def shortItem (topic : Topic) (letter : Char) (value : List Char) (rest : List String) :
    Item × Nat :=
  if letter = 'h' then (.help false, 0)
  else
    match (shortKeys topic).lookup letter, value with
    | none, _ => (.wrong, 0)
    | some key, [] => awaited key rest
    | some key, '=' :: value => (.option key (.ofList value), 0)
    | some key, value => (.option key (.ofList value), 0)

/-- What the first argument says, and how many of the others belong to it. -/
def item (topic : Topic) (arg : String) (rest : List String) : Item × Nat :=
  match arg.toList with
  | '-' :: '-' :: name => longItem topic name rest
  | '-' :: letter :: value => shortItem topic letter value rest
  | _ => (.plain arg, 0)

/-- What the arguments of a command say. After a double hyphen all are plain. -/
def items (topic : Topic) : Nat → List String → List Item
  | _, [] => []
  | skip + 1, _ :: rest => items topic skip rest
  | 0, arg :: rest =>
    if arg = "--" then rest.map .plain
    else
      let (item, more) := item topic arg rest
      item :: items topic more rest

/-- The values that have been given. -/
structure Values where
  plain : Option String := none
  config : Option String := none
  semantics : Option EventSemantics := none
  maxStates : Option Nat := none
  format : Option Format := none
  activities : List String := []

/-- A number of states: digits, perhaps after a plus, in 64 bits. -/
def count? (value : String) : Option Nat :=
  let digits := match value.toList with
    | '+' :: cs => cs
    | cs => cs
  let n : Nat := digits.foldl (fun n c => 10 * n + (c.toNat - '0'.toNat)) 0
  if !digits.isEmpty && digits.all Char.isDigit && decide (n < UInt64.size) then some n else none

/-- A format by its keyword. -/
def format? (value : String) : Option Format :=
  if value = "human" then some .human
  else if value = "json" then some .json
  else none

/-- A value that may be given once and must be valid. -/
def once {α : Type} (given : Option α) (value : Option α) : Except Stop (Option α) :=
  match given, value with
  | none, some v => .ok (some v)
  | _, _ => .error .usage

/-- The parts of a value between commas. -/
def commaParts (value : String) : List String :=
  (Text.splitOn ',' value.toList).map .ofList

/-- Takes one thing said into account. `takesPlain` says whether the command has an argument
of its own. -/
def Values.add (topic : Topic) (takesPlain : Bool) (values : Values) :
    Item → Except Stop Values
  | .wrong => .error .usage
  | .help long => .error (.help topic long)
  | .plain value => do
    if !takesPlain then throw .usage
    return { values with plain := ← once values.plain (some value) }
  | .option .config value =>
    do return { values with config := ← once values.config (some value) }
  | .option .semantics value => do
    return { values with
      semantics := ← once values.semantics (EventSemantics.ofKeyword? value) }
  | .option .maxStates value =>
    do return { values with maxStates := ← once values.maxStates (count? value) }
  | .option .format value =>
    do return { values with format := ← once values.format (format? value) }
  | .option .activities value =>
    .ok { values with activities := values.activities ++ commaParts value }

/-- The values that the arguments of a command give. -/
def valuesOf (topic : Topic) (takesPlain : Bool) (args : List String) : Except Stop Values :=
  (items topic 0 args).foldlM (Values.add topic takesPlain) {}

/-- The command of its name and arguments. -/
def command (topic : Topic) (args : List String) : Except Stop Command := do
  match topic with
  | .program => throw .usage
  | .help => throw .usage
  | .analyze =>
    let v ← valuesOf topic true args
    let some model := v.plain | throw .usage
    return .analyze model v.config v.semantics v.maxStates (v.format.getD .human)
  | .compile =>
    let v ← valuesOf topic true args
    let some formula := v.plain | throw .usage
    return .compile formula v.activities v.semantics v.maxStates
  | .templates =>
    let _ ← valuesOf topic false args
    return .templates

/-- The topic of a command's name. -/
def topic? (name : String) : Option Topic :=
  if name = "analyze" then some .analyze
  else if name = "compile" then some .compile
  else if name = "templates" then some .templates
  else none

/-- Reads a command line. -/
def parse : List String → Except Stop Command
  | [] => .error .usage
  | "help" :: [] => .error (.help .program true)
  | "help" :: "help" :: [] => .error (.help .help true)
  | "help" :: name :: [] =>
    match topic? name with
    | some topic => .error (.help topic true)
    | none => .error .usage
  | name :: args =>
    match topic? name with
    | some topic => command topic args
    | none =>
      match name.toList with
      | '-' :: 'h' :: _ => .error (.help .program false)
      | '-' :: 'V' :: _ => .error .version
      | _ =>
        if name = "--help" then .error (.help .program true)
        else if name = "--version" then .error .version
        else .error .usage

end ProcessLogic.CommandLine
