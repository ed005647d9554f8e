import CommandScript.Toml.Scalar
/-!
# TOML documents

A document is a list of statements: headers `[path]` and `[[path]]`, and keys with their values.
They are read from the text one a line, and the tables they describe are built up in order. Between
brackets and braces lines may break, around an equals sign too, but not within a key. A value may
nest only so deep and a key have only so many parts.
-/

set_option autoImplicit false
set_option relaxedAutoImplicit false

namespace CommandScript.Toml

/-- How deep arrays and tables in braces may nest. -/
def maxDepth : Nat := 80

/-- How many parts a key may have. -/
def maxKeyParts : Nat := 80

/-- A key: the path to its table and its name there. -/
structure KeyPath where
  path : List String
  key : String
  deriving DecidableEq, Repr

namespace KeyPath

def toList (keyPath : KeyPath) : List String := keyPath.path ++ [keyPath.key]

/-- The key whose parts are given. -/
def ofParts? (parts : List String) : Option KeyPath :=
  parts.getLast?.map fun key ↦ { path := parts.dropLast, key }

end KeyPath

inductive Statement
  | table (keyPath : KeyPath)
  | arrayItem (keyPath : KeyPath)
  | assignment (keyPath : KeyPath) (value : Value)

/-! ### Reading statements -/

def skipSpaces (cs : List Char) : List Char := cs.dropWhile isSpace

/-- Skips blanks, line breaks and comments. -/
def skipGaps (inComment : Bool) : List Char → Option (List Char)
  | [] => some []
  | c :: cs =>
    if c = '\n' then skipGaps false cs
    else if c = '\r' then if cs.head? = some '\n' then skipGaps false cs else none
    else if inComment then if isTextChar c then skipGaps true cs else none
    else if isSpace c then skipGaps false cs
    else if c = '#' then skipGaps true cs
    else some (c :: cs)

/-- Skips what may follow a statement on its line, and the end of the line. -/
def skipLineEnd (inComment : Bool) : List Char → Option (List Char)
  | [] => some []
  | c :: cs =>
    if c = '\n' then some cs
    else if c = '\r' then if cs.head? = some '\n' then skipLineEnd inComment cs else none
    else if inComment then if isTextChar c then skipLineEnd true cs else none
    else if isSpace c then skipLineEnd false cs
    else if c = '#' then skipLineEnd true cs
    else none

def isBareKeyChar (c : Char) : Bool := c.isAlphanum || c = '_' || c = '-'

/-- Reads one part of a key. -/
def readKeyPart? : List Char → Option (String × List Char)
  | [] => none
  | c :: cs =>
    if c = '"' || c = '\'' then
      if cs.take 2 = [c, c] then none else Text.read? c cs
    else
      let part := (c :: cs).takeWhile isBareKeyChar
      if part.isEmpty then none
      else some (String.ofList part, (c :: cs).dropWhile isBareKeyChar)

/-- Reads the parts of a key, as many as `fuel` allows. -/
def readKeyParts? : (fuel : Nat) → List Char → Option (List String × List Char)
  | 0, _ => none
  | fuel + 1, cs => do
    let (part, cs) ← readKeyPart? (skipSpaces cs)
    match skipSpaces cs with
    | '.' :: cs =>
      let (parts, cs) ← readKeyParts? fuel cs
      return (part :: parts, cs)
    | cs => return ([part], cs)

/-- Reads a key and the blanks around it. -/
def readKey? (cs : List Char) : Option (KeyPath × List Char) := do
  let (parts, cs) ← readKeyParts? maxKeyParts cs
  return (← KeyPath.ofParts? parts, cs)

/-- Whether a character may stand in an unquoted value. -/
def isScalarChar (c : Char) : Bool :=
  !(isSpace c || c = '\n' || c = '\r' || c = ',' || c = '#' || c = '=' || c = '[' || c = ']' ||
    c = '\x7b' || c = '\x7d')

/-- Whether an unquoted value may go on with a character behind blanks. -/
def continuesScalar (c : Char) : Bool := !(c = '.' || c = '"' || c = '\'')

/-- The characters of an unquoted value and what follows them. Blanks belong to the value if it goes
on behind them, as between a date and a time. -/
def splitScalar : List Char → List Char × List Char
  | [] => ([], [])
  | c :: cs =>
    if isScalarChar c || isSpace c then
      let (run, rest) := splitScalar cs
      if isSpace c && !run.head?.any continuesScalar then ([], c :: cs) else (c :: run, rest)
    else ([], c :: cs)

/-- Reads a value that is neither an array nor a table. -/
def readLeaf? : List Char → Option (Value × List Char)
  | [] => none
  | c :: cs =>
    if c = '"' || c = '\'' then (Text.read? c cs).map fun (text, rest) ↦ (.string text, rest)
    else
      let (run, rest) := splitScalar (c :: cs)
      (scalar? run).map (·, rest)

/-- Reads what stands between brackets, parted by commas, up to the closing bracket. -/
def readItems? {α : Type} (close : Char) (read? : List Char → Option (α × List Char)) :
    (fuel : Nat) → List Char → Option (List α × List Char)
  | 0, _ => none
  | fuel + 1, cs => do
    match ← skipGaps false cs with
    | [] => none
    | c :: rest =>
      if c = close then return ([], rest)
      let (item, cs) ← read? (c :: rest)
      match ← skipGaps false cs with
      | [] => none
      | c :: rest =>
        if c = close then return ([item], rest)
        else if c = ',' then
          let (items, cs) ← readItems? close read? fuel rest
          return (item :: items, cs)
        else none

/-- Reads a key, an equals sign and a value. What may stand around the sign is skipped by
`skip?`. -/
def readAssignment? (skip? : List Char → Option (List Char))
    (readValue? : List Char → Option (Value × List Char)) (cs : List Char) :
    Option ((KeyPath × Value) × List Char) := do
  let (keyPath, cs) ← readKey? cs
  let cs ← expect? '=' (← skip? cs)
  let (value, cs) ← readValue? (← skip? cs)
  return ((keyPath, value), cs)

/-- The table in braces that some assignments describe. -/
def inlineTable? (assignments : List (KeyPath × Value)) : Option Value := do
  let entries ← assignments.foldlM (fun entries (keyPath, value) ↦
    (assign keyPath.path keyPath.key value .inline entries).map (·.2)) []
  return .table .inline entries

/-- Reads a value that nests no deeper than `depth`, with lists no longer than `fuel`. -/
def readValue? (fuel : Nat) : (depth : Nat) → List Char → Option (Value × List Char)
  | 0, cs => readLeaf? cs
  | depth + 1, cs =>
    match cs with
    | '[' :: cs => (readItems? ']' (readValue? fuel depth) fuel cs).map fun (items, rest) ↦
        (.array items, rest)
    | '\x7b' :: cs => do
      let (assignments, rest) ←
        readItems? '\x7d' (readAssignment? (skipGaps false) (readValue? fuel depth)) fuel cs
      return (← inlineTable? assignments, rest)
    | cs => readLeaf? cs

/-- Reads a statement. -/
def readStatement? (fuel : Nat) : List Char → Option (Statement × List Char)
  | '[' :: '[' :: cs => do
    let (keyPath, cs) ← readKey? cs
    let cs ← expect? ']' (← expect? ']' cs)
    return (.arrayItem keyPath, cs)
  | '[' :: cs => do
    let (keyPath, cs) ← readKey? cs
    let cs ← expect? ']' cs
    return (.table keyPath, cs)
  | cs => do
    let ((keyPath, value), cs) ←
      readAssignment? (fun cs ↦ some (skipSpaces cs)) (readValue? fuel maxDepth) cs
    return (.assignment keyPath value, cs)

/-- Reads statements up to the end, as many as `fuel` allows. -/
def readStatements? (size : Nat) : (fuel : Nat) → List Char → Option (List Statement)
  | 0, _ => none
  | fuel + 1, cs => do
    match ← skipGaps false cs with
    | [] => return []
    | cs =>
      let (statement, cs) ← readStatement? size cs
      let statements ← readStatements? size fuel (← skipLineEnd false cs)
      return statement :: statements

/-- A text without the byte-order mark in front of it. -/
def dropByteOrderMark : List Char → List Char
  | '\uFEFF' :: cs => cs
  | cs => cs

/-- The statements of a document. -/
def statements? (text : String) : Option (List Statement) :=
  let cs := dropByteOrderMark text.toList
  readStatements? (cs.length + 1) (cs.length + 1) cs

/-! ### Building tables -/

/-- A document under construction: its entries, and the path of the header in force. -/
structure Assembly where
  entries : Entries := []
  current : List String := []

namespace Assembly

/-- Changes the document's own table. -/
def change? (assembly : Assembly) (change : TableChange) : Option Assembly :=
  (change .header assembly.entries).map fun changed ↦ { assembly with entries := changed.2 }

def extend? (assembly : Assembly) : Statement → Option Assembly
  | .table keyPath => do
    let assembly ← assembly.change? ((openTable keyPath.key).under false keyPath.path)
    return { assembly with current := keyPath.toList }
  | .arrayItem keyPath => do
    let assembly ← assembly.change? ((openArrayItem keyPath.key).under false keyPath.path)
    return { assembly with current := keyPath.toList }
  | .assignment keyPath value =>
    assembly.change? ((assign keyPath.path keyPath.key value).under false assembly.current)

end Assembly

/-- The entries of a document. -/
def parse? (text : String) : Option Entries := do
  let assembly ← (← statements? text).foldlM Assembly.extend? {}
  return assembly.entries

end CommandScript.Toml
