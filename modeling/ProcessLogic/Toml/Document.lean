import ProcessLogic.Toml.Scalar

/-!
# TOML documents

The grammar of documents: keys, values, headers, and what may be defined where. A reader
returns nothing if the text is no TOML document. This is outer layer: the command line reads its
options with it, and no theorem of this library is about it.
-/

namespace ProcessLogic.Toml

/-- A text without the blanks in front. -/
def skipBlanks (cs : List Char) : List Char := cs.dropWhile isBlank

/-- How deep values may be nested and how many parts a key may have: less than this. -/
def depthLimit : Nat := 80

/-! ### Keys -/

/-- One part of a key. -/
def keyPart? (cs : List Char) : Option (String × List Char) :=
  match cs with
  | '"' :: cs => stringBody basicPiece 0 [] cs
  | '\'' :: cs => stringBody literalPiece 0 [] cs
  | cs =>
    let name := cs.takeWhile isBareKey
    if name.isEmpty then none else some (.ofList name, cs.dropWhile isBareKey)

/-- A key of at most `fuel` parts with points in between, and the rest. Blanks may stand around
the parts. -/
def keyParts? : Nat → List Char → Option (List String × List Char)
  | 0, _ => none
  | fuel + 1, cs => do
    let (part, cs) ← keyPart? (skipBlanks cs)
    match skipBlanks cs with
    | '.' :: cs =>
      let (parts, cs) ← keyParts? fuel cs
      return (part :: parts, cs)
    | cs => return ([part], cs)

/-- A key, and the rest. -/
def key? (cs : List Char) : Option (List String × List Char) := keyParts? (depthLimit - 1) cs

/-! ### Values -/

/-- The rest of a text after blanks, line breaks and comments. -/
def skipLines : Bool → List Char → Option (List Char)
  | _, [] => some []
  | true, '\n' :: cs => skipLines false cs
  | true, '\r' :: '\n' :: cs => skipLines false cs
  | true, c :: cs => if isPrintable c then skipLines true cs else none
  | false, '#' :: cs => skipLines true cs
  | false, '\n' :: cs => skipLines false cs
  | false, '\r' :: '\n' :: cs => skipLines false cs
  | false, c :: cs => if isBlank c then skipLines false cs else some (c :: cs)

mutual

/-- A value, and the rest. `depth` values are open around it; `fuel` is at least twice the
length of the text. -/
def value? : Nat → Nat → List Char → Option (Value × List Char)
  | 0, _, _ => none
  | fuel + 1, depth, cs =>
    match cs with
    | '[' :: cs => if depth + 1 < depthLimit then items? fuel (depth + 1) [] cs else none
    | '\x7b' :: cs =>
      if depth + 1 < depthLimit then
        match skipBlanks cs with
        | '\x7d' :: cs => some (.table .inlined [], cs)
        | cs => pairs? fuel (depth + 1) [] cs
      else none
    | '"' :: _ => (string? cs).map fun (s, cs) => (.string s, cs)
    | '\'' :: _ => (string? cs).map fun (s, cs) => (.string s, cs)
    | cs =>
      let (text, rest) := plainText cs
      (plain? text).map (·, rest)

/-- The items of an array up to its closing bracket; a comma may stand after the last. -/
def items? : Nat → Nat → List Value → List Char → Option (Value × List Char)
  | 0, _, _, _ => none
  | fuel + 1, depth, acc, cs =>
    match skipLines false cs with
    | none => none
    | some (']' :: cs) => some (.array acc.reverse, cs)
    | some cs =>
      match value? fuel depth cs with
      | none => none
      | some (v, cs) =>
        match skipLines false cs with
        | some (',' :: cs) => items? fuel depth (v :: acc) cs
        | some (']' :: cs) => some (.array (v :: acc).reverse, cs)
        | _ => none

/-- The pairs of a table in braces up to its closing brace. -/
def pairs? : Nat → Nat → Entries → List Char → Option (Value × List Char)
  | 0, _, _, _ => none
  | fuel + 1, depth, entries, cs =>
    match key? cs with
    | some (key, '=' :: cs) =>
      match value? fuel depth (skipBlanks cs) with
      | none => none
      | some (v, cs) =>
        match entries.insertKey key v, skipBlanks cs with
        | some entries, ',' :: cs => pairs? fuel depth entries cs
        | some entries, '\x7d' :: cs => some (.table .inlined entries, cs)
        | _, _ => none
    | _ => none

end

/-! ### Lines -/

/-- The rest of a line must be blank or a comment; what stands after the line. -/
def endLine? (cs : List Char) : Option (List Char) :=
  let cs := skipBlanks cs
  let cs := match cs with
    | '#' :: cs => cs.dropWhile isPrintable
    | cs => cs
  match cs with
  | [] => some []
  | cs => (lineBreak? cs).map cs.drop

/-- The document so far. `table` collects the entries of the last header at `path`, which are
put into `root` when the next header comes; `isRow` tells whether they are the row of an
array. -/
structure DocumentState where
  root : Entries
  path : List String
  isRow : Bool
  table : Entries

namespace DocumentState

/-- Puts the collected table where its header says. -/
def close (s : DocumentState) : Option Entries :=
  match s.path.getLast? with
  | none => some s.table
  | some key =>
    let addRow := fun
      | some (Value.tables rows) => some ((), Value.tables (rows ++ [s.table]))
      | _ => none
    let add := fun (_ : Bool) (parent : Entries) =>
      if s.isRow then parent.update key addRow
      else (parent.define key (.table .header s.table)).map ((), ·)
    (s.root.within false add s.path.dropLast false).map (·.2)

/-- Opens the table of a header. A table that so far was only on the way to others is taken out
of its place and defined now; any other may not be defined again. -/
def openTable (s : DocumentState) (path : List String) : Option DocumentState := do
  let key ← path.getLast?
  let take := fun (_ : Bool) (parent : Entries) =>
    match parent.lookup key with
    | none => some ([], parent)
    | some (.table .implied inner) => some (inner, parent.filter (·.1 != key))
    | some _ => none
  let (table, root) ← (← s.close).within false take path.dropLast false
  return { root, path, isRow := false, table }

/-- Opens a row of the array of a header in double brackets. -/
def openRow (s : DocumentState) (path : List String) : Option DocumentState := do
  let key ← path.getLast?
  let reserve := fun (_ : Bool) (parent : Entries) =>
    match parent.lookup key with
    | none => some ((), parent ++ [(key, Value.tables [])])
    | some (.tables _) => some ((), parent)
    | some _ => none
  let ((), root) ← (← s.close).within false reserve path.dropLast false
  return { root, path, isRow := true, table := [] }

/-- Reads one line, and gives what stands after it. -/
def readLine (s : DocumentState) (cs : List Char) : Option (DocumentState × List Char) :=
  match skipBlanks cs with
  | [] => some (s, [])
  | '#' :: cs => (endLine? ('#' :: cs)).map (s, ·)
  | '\n' :: cs => some (s, cs)
  | '\r' :: cs => (endLine? ('\r' :: cs)).map (s, ·)
  | '[' :: '[' :: cs =>
    match key? cs with
    | some (path, ']' :: ']' :: cs) => do return (← s.openRow path, ← endLine? cs)
    | _ => none
  | '[' :: cs =>
    match key? cs with
    | some (path, ']' :: cs) => do return (← s.openTable path, ← endLine? cs)
    | _ => none
  | cs =>
    match key? cs with
    | some (key, '=' :: cs) => do
      let (v, cs) ← value? (2 * cs.length + 2) 0 (skipBlanks cs)
      return ({ s with table := ← s.table.insertKey key v }, ← endLine? cs)
    | _ => none

/-- Reads lines; `fuel` is at least the length of the text. -/
def readLines : Nat → DocumentState → List Char → Option DocumentState
  | _, s, [] => some s
  | 0, _, _ => none
  | fuel + 1, s, cs =>
    match s.readLine cs with
    | none => none
    | some (s, cs) => readLines fuel s cs

end DocumentState

/-- The entries of a document. A byte order mark may stand in front. -/
def parse (text : String) : Option Entries :=
  let cs := match text.toList with
    | '\ufeff' :: cs => cs
    | cs => cs
  (DocumentState.readLines cs.length ⟨[], [], false, []⟩ cs).bind DocumentState.close

end ProcessLogic.Toml
