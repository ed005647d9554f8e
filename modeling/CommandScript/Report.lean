import CommandScript.Command
import CommandScript.Json
/-!
# Printed streams

A stream is printed as text, a command a line with its arguments quoted and a last line `-` if more
is to come from the standard input, or as one JSON object.
-/

set_option autoImplicit false
set_option relaxedAutoImplicit false

namespace CommandScript

inductive Format
  | text
  | json
  deriving DecidableEq, Repr

namespace Command

/-- A command on a line of its own, without the line's end. -/
def lineChars (command : Command) : List Char :=
  command.name.toList ++ command.args.flatMap fun arg ↦ ' ' :: Json.quote arg

def toJson (command : Command) : Json :=
  .object [("name", .string command.name), ("args", .array (command.args.map .string))]

end Command

namespace CommandStream

def textChars (stream : CommandStream) : List Char :=
  (stream.commands.flatMap fun command ↦ command.lineChars ++ ['\n']) ++
    if stream.fromStdin then ['-', '\n'] else []

def toJson (stream : CommandStream) : Json :=
  .object [("commands", .array (stream.commands.map Command.toJson)),
    ("from_stdin", .boolean stream.fromStdin)]

/-- The printed form of a stream. -/
def render (stream : CommandStream) : Format → String
  | .text => String.ofList stream.textChars
  | .json => stream.toJson.render

end CommandStream

end CommandScript
