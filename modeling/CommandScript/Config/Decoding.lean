import CommandScript.Config
import CommandScript.Toml.Document
/-!
# Settings in TOML

The tables `names`, `output` and `audit` hold the settings. Keys that are not known are passed over,
so long as the numbers under them can be represented. A group of settings may also be given as an
array of its values in order, where what follows the last setting is passed over unseen, and a
format as a table that has the format for its only key.
-/

set_option autoImplicit false
set_option relaxedAutoImplicit false

namespace CommandScript

namespace Toml

namespace Value

mutual

/-- Whether every number within a value can be represented. -/
def isRepresentable : Value → Bool
  | string _ | boolean _ | dateTime => true
  | integer value => -2 ^ 127 ≤ value && value < 2 ^ 128
  | malformedInteger => false
  | real value => value.fitsDouble
  | array items => allRepresentable items
  | tables items => allRepresentable items
  | table _ entries => allEntriesRepresentable entries

def allRepresentable : List Value → Bool
  | [] => true
  | item :: items => item.isRepresentable && allRepresentable items

def allEntriesRepresentable : List (String × Value) → Bool
  | [] => true
  | (_, value) :: entries => value.isRepresentable && allEntriesRepresentable entries

end

def asBool? : Value → Option Bool
  | boolean value => some value
  | _ => none

def asString? : Value → Option String
  | string text => some text
  | _ => none

/-- The values of a group of settings whose fields have these names, each where it is given: by key
in a table, or in order in an array. A date counts as a table that gives none of them. -/
def fields? (names : List String) : Value → Option (List (Option Value))
  | table _ entries =>
    if allEntriesRepresentable (entries.filter fun entry ↦ !names.contains entry.1) then
      some (names.map fun name ↦ entries.lookup name)
    else none
  | array items | tables items => some (names.mapIdx fun index _ ↦ items[index]?)
  | dateTime => some (names.map fun _ ↦ none)
  | _ => none

/-- Reads a field that may be missing. -/
def optional? {α : Type} (default : α) (decode : Value → Option α) : Option Value → Option α
  | none => some default
  | some value => decode value

end Value

end Toml

namespace Format

def ofName? : String → Option Format
  | "text" => some .text
  | "json" => some .json
  | _ => none

open Toml in
def ofToml? : Value → Option Format
  | .string name => ofName? name
  | .table _ [(name, .table _ [])] => ofName? name
  | .table _ [(name, .array [])] => ofName? name
  | _ => none

end Format

namespace NamePolicy

open Toml in
def ofToml? (value : Value) : Option NamePolicy := do
  match ← value.fields? ["allow_single_char"] with
  | [allowed] => return { allowSingleChar := ← Value.optional? false Value.asBool? allowed }
  | _ => none

end NamePolicy

namespace AuditSettings

open Toml in
def ofToml? (value : Value) : Option AuditSettings := do
  match ← value.fields? ["enabled", "path"] with
  | [enabled, path] =>
    return {
      enabled := ← Value.optional? false Value.asBool? enabled
      path := ← Value.optional? none (fun value ↦ some <$> value.asString?) path }
  | _ => none

end AuditSettings

namespace Config

open Toml in
/-- The output format that a group of settings asks for, if it does. -/
def formatOfToml? (value : Value) : Option (Option Format) := do
  match ← value.fields? ["format"] with
  | [format] => Value.optional? none (fun value ↦ some <$> Format.ofToml? value) format
  | _ => none

open Toml in
def ofToml? (value : Value) : Option Config := do
  match ← value.fields? ["names", "output", "audit"] with
  | [names, output, audit] =>
    return {
      names := ← Value.optional? {} NamePolicy.ofToml? names
      format := ← Value.optional? none formatOfToml? output
      audit := ← Value.optional? {} AuditSettings.ofToml? audit }
  | _ => none

/-- The settings in a document. -/
def parse? (text : String) : Option Config := do
  ofToml? (.table .header (← Toml.parse? text))

end Config

end CommandScript
