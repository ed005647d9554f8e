import CommandScript.Draft
import CommandScript.Script.Library
/-!
# Argument lists

A lone dash announces a command name, and a dash in front of a name does both at once. Other
arguments go to the command that is open; as long as none is, each names a script whose commands
come next. A lone dash at the very end asks for more commands on the standard input. No dash may
follow a dash that is still waiting for its name.
-/

set_option autoImplicit false
set_option relaxedAutoImplicit false

namespace CommandScript

/-- What an argument looks like by itself. -/
inductive Argument
  | dash
  | dashed (name : String)
  | bare (text : String)
  deriving DecidableEq, Repr

/-- Whether a text begins with a dash. -/
def startsWithDash (text : String) : Bool := text.toList.head? == some '-'

namespace Argument

def ofString (text : String) : Argument :=
  match text.toList with
  | ['-'] => dash
  | '-' :: name => dashed (String.ofList name)
  | _ => bare text

end Argument

namespace Arguments

/-- The stream so far, and whether a dash waits for its name. -/
structure State where
  draft : Draft := {}
  awaitsName : Bool := false
  deriving DecidableEq, Repr

namespace State

/-- Begins the command that a dash has announced. -/
def begin (policy : NamePolicy) (state : State) (name : String) : Except Failure State :=
  if policy.accepts name then
    .ok { draft := state.draft.begin (canonicalName name), awaitsName := false }
  else .error .invalidName

/-- Takes a text that no dash announces, as an argument or as the name of a script. -/
def take (library : ScriptLibrary) (policy : NamePolicy) (state : State) (text : String) :
    Except Failure State :=
  match state.draft.addArg? text with
  | some draft => .ok { state with draft }
  | none => do
    let script ← library.load policy text
    return { state with draft := state.draft.splice script.contribution }

/-- Reads one argument. -/
def step (library : ScriptLibrary) (policy : NamePolicy) (state : State) (argument : Argument) :
    Except Failure State :=
  match argument with
  | .dash =>
    if state.awaitsName then .error .dashSuccession else .ok { state with awaitsName := true }
  | .dashed name =>
    if state.awaitsName || startsWithDash name then .error .dashSuccession
    else state.begin policy name
  | .bare text =>
    if state.awaitsName then state.begin policy text else state.take library policy text

/-- What a reading that ends here has produced. -/
def result (state : State) : CommandStream :=
  { commands := state.draft.commands, fromStdin := state.awaitsName }

end State

/-- Reads arguments one after another. -/
def readFrom (library : ScriptLibrary) (policy : NamePolicy) :
    State → List String → Except Failure State
  | state, [] => .ok state
  | state, arg :: args => do
    let next ← state.step library policy (Argument.ofString arg)
    readFrom library policy next args

/-- The stream that an argument list asks for. -/
def parse (library : ScriptLibrary) (policy : NamePolicy) (args : List String) :
    Except Failure CommandStream :=
  (·.result) <$> readFrom library policy {} args

/-- The arguments that may name scripts: those in front of the first dash. -/
def scriptNames (args : List String) : List String :=
  args.takeWhile fun arg ↦ !startsWithDash arg

end Arguments

end CommandScript
