import CommandScript.Failure
/-!
# Scripts by name

A library says which file a name stands for: its canonical path and its content. Reading a script in
gives its marker and then its commands.
-/

set_option autoImplicit false
set_option relaxedAutoImplicit false

namespace CommandScript

/-- A file that a name stands for. -/
structure ScriptFile where
  path : String
  content : Bytes
  deriving DecidableEq, Repr

/-- The files that names stand for. -/
abbrev ScriptLibrary := String → Option ScriptFile

/-- A script that has been read. -/
structure LoadedScript where
  path : String
  commands : List Command
  deriving DecidableEq, Repr

namespace LoadedScript

/-- What the script adds to a stream. -/
def contribution (script : LoadedScript) : List Command :=
  Command.fileMarker script.path :: script.commands

end LoadedScript

/-- Reads the commands of a script whose failures cite `name`. -/
def Script.parseAs (policy : NamePolicy) (name : String) (content : Bytes) :
    Except Failure (List Command) :=
  (Script.parse policy content).mapError (Failure.badLine name)

/-- Finds and reads the script that a name stands for. -/
def ScriptLibrary.load (library : ScriptLibrary) (policy : NamePolicy) (name : String) :
    Except Failure LoadedScript :=
  match library name with
  | none => .error (.unreadable name)
  | some file => ({ path := file.path, commands := · }) <$> Script.parseAs policy name file.content

end CommandScript
