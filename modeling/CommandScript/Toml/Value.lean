/-!
# TOML values and tables

A document's values, with what the rules on extending tables need to know: how each table came to
be, and which arrays grow by `[[…]]` headers. `openTable` and `openArrayItem` open the tables that
headers name, `assign` gives a key its value, and `TableChange.under` carries such a change along a
path. Each fails where TOML forbids it, which is where a key would be defined twice.
-/

set_option autoImplicit false
set_option relaxedAutoImplicit false

namespace CommandScript.Toml

/-- A real number in decimal, or one of the two that are not finite. -/
inductive Real
  | finite (mantissa : Nat) (exponent : Int)
  | infinite
  | nan
  deriving DecidableEq, Repr

/-- How a table came to be: under a header of its own, on the way to a longer header, on the way to
a dotted key, or in braces. -/
inductive Origin
  | header
  | implied
  | dotted
  | inline
  deriving DecidableEq, Repr

/-- A value of a document. A malformed integer has the outline of an integer and writes no
number. -/
inductive Value
  | string (text : String)
  | integer (value : Int)
  | malformedInteger
  | real (value : Real)
  | boolean (value : Bool)
  | dateTime
  | array (items : List Value)
  | tables (items : List Value)
  | table (origin : Origin) (entries : List (String × Value))

/-- The entries of a table, each key once, in the order of the document. -/
abbrev Entries := List (String × Value)

namespace Entries

/-- Gives a key the value that `change` makes of its present one. -/
def alter? (key : String) (change : Option Value → Option Value) : Entries → Option Entries
  | [] => (change none).map fun value ↦ [(key, value)]
  | (name, value) :: entries =>
    if name = key then (change (some value)).map fun value ↦ (name, value) :: entries
    else (alter? key change entries).map ((name, value) :: ·)

end Entries

/-- A change to a table, given its origin. -/
abbrev TableChange := Origin → Entries → Option (Origin × Entries)

namespace Value

/-- The value of a table changed. -/
def ofTable? (change : TableChange) (origin : Origin) (entries : Entries) : Option Value :=
  (change origin entries).map fun changed ↦ .table changed.1 changed.2

/-- Changes the last of some values. -/
def alterLast? (change : Value → Option Value) : List Value → Option (List Value)
  | [] => none
  | [last] => (change last).map ([·])
  | item :: items => (alterLast? change items).map (item :: ·)

end Value

/-- Applies a change to the table at the end of a path. Tables missing on the way are made, arrays
of tables stand for their last table, and nothing else can be entered. A dotted path may not lead
through a table that has a header of its own, and none leads into braces. -/
def TableChange.under (change : TableChange) (dotted : Bool) : List String → TableChange
  | [], origin, entries => change origin entries
  | key :: path, origin, entries =>
    let enter : TableChange := under change dotted path
    let changed := entries.alter? key fun
      | none => Value.ofTable? enter (if dotted then .dotted else .implied) []
      | some (.table child inner) =>
        if child = .inline || dotted && child = .header then none
        else Value.ofTable? enter child inner
      | some (.tables items) =>
        (Value.alterLast? · items) (fun
          | .table child inner => Value.ofTable? enter child inner
          | _ => none) |>.map .tables
      | some _ => none
    changed.map ((origin, ·))

/-- Opens the table of a header `[key]`. Only a table that longer headers have implied may be there
already. -/
def openTable (key : String) : TableChange := fun origin entries ↦
  let changed := entries.alter? key fun
    | none => some (.table .header [])
    | some (.table .implied inner) => some (.table .header inner)
    | some _ => none
  changed.map ((origin, ·))

/-- Adds a table to the array of a header `[[key]]`. -/
def openArrayItem (key : String) : TableChange := fun origin entries ↦
  let changed := entries.alter? key fun
    | none => some (.tables [.table .header []])
    | some (.tables items) => some (.tables (items ++ [.table .header []]))
    | some _ => none
  changed.map ((origin, ·))

/-- Gives a new key its value. -/
def assignKey (key : String) (value : Value) : TableChange := fun origin entries ↦
  let changed := entries.alter? key fun
    | none => some value
    | some _ => none
  changed.map ((origin, ·))

/-- Gives the key at the end of a path its value. The tables that dotted keys fill are those that
dotted keys have made. -/
def assign (path : List String) (key : String) (value : Value) : TableChange :=
  let fill : TableChange := fun origin entries ↦
    if path.isEmpty == (origin == .dotted) then none else assignKey key value origin entries
  fill.under true path

end CommandScript.Toml
