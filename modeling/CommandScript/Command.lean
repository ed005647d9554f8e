/-!
# Commands

A command is a name and its arguments. A script that is read in leaves a marker, a command under the
reserved name `<file>` that carries the script's path; no command name may look like it, so markers
and commands cannot be confused. A stream is what one reading produced: the commands in order, and
whether more are to come from the standard input.
-/

set_option autoImplicit false
set_option relaxedAutoImplicit false

namespace CommandScript

structure Command where
  name : String
  args : List String
  deriving DecidableEq, Repr

namespace Command

/-- The reserved name of a marker. -/
def markerName : String := "<file>"

/-- The marker of a script. -/
def fileMarker (path : String) : Command := { name := markerName, args := [path] }

def isFileMarker (command : Command) : Bool := command.name == markerName

@[simp]
theorem isFileMarker_fileMarker (path : String) : (fileMarker path).isFileMarker = true :=
  rfl

/-- The script that a command marks. -/
def markedFile? (command : Command) : Option String :=
  if command.isFileMarker then command.args.head? else none

@[simp]
theorem markedFile?_fileMarker (path : String) : (fileMarker path).markedFile? = some path :=
  rfl

def addArg (command : Command) (arg : String) : Command :=
  { command with args := command.args ++ [arg] }

end Command

structure CommandStream where
  commands : List Command := []
  fromStdin : Bool := false
  deriving DecidableEq, Repr

namespace CommandStream

/-- Whether there is nothing to do, now or later. -/
def isEmpty (stream : CommandStream) : Bool := stream.commands.isEmpty && !stream.fromStdin

/-- The paths of the scripts read in, in order. -/
def files (stream : CommandStream) : List String := stream.commands.filterMap Command.markedFile?

end CommandStream

end CommandScript
