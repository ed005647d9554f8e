import CommandScript.Failure
import CommandScript.Json
/-!
# Audit lines

Each run is one line of JSON: when it was made, in which directory, on which arguments (joined by
spaces and cut short if they are long), and what came of it. Members that have nothing to say are
left out.
-/

set_option autoImplicit false
set_option relaxedAutoImplicit false

namespace CommandScript

namespace Audit

/-- The longest beginning of a text, in whole characters, that fits into so many bytes. -/
def fitting (size : Nat) : List Char → List Char
  | [] => []
  | c :: cs => if c.utf8Size ≤ size then c :: fitting (size - c.utf8Size) cs else []

/-- What stands for the end of a text that was cut. -/
def ellipsis : String := "..."

/-- A text cut to so many bytes, of which the ellipsis takes its share. -/
def truncate (size : Nat) (text : String) : String :=
  if text.utf8ByteSize ≤ size then text
  else String.ofList (fitting (size - ellipsis.utf8ByteSize) text.toList) ++ ellipsis

/-- The number of bytes that arguments may take in a line. -/
def summarySize : Nat := 200

def summary (args : List String) : String := truncate summarySize (" ".intercalate args)

/-- What came of a run, as members of its line. -/
def outcomeMembers : Except Failure CommandStream → List (String × Json)
  | .ok stream =>
    [("commands", .number stream.commands.length)] ++
      (if stream.files.isEmpty then [] else [("files", .array (stream.files.map .string))]) ++
      (if stream.fromStdin then [("from_stdin", .boolean true)] else [])
  | .error failure => [("commands", .number 0), ("error", .string failure.message)]

/-- The line of a run, as a value. -/
def entry (timestamp : String) (directory : Option String) (args : List String)
    (result : Except Failure CommandStream) : Json :=
  .object ([("timestamp", .string timestamp)] ++
    (directory.toList.map fun path ↦ ("cwd", .string path)) ++
    [("args", .string (summary args))] ++ outcomeMembers result)

/-- The line of a run, with its end. -/
def line (timestamp : String) (directory : Option String) (args : List String)
    (result : Except Failure CommandStream) : String :=
  (entry timestamp directory args result).render ++ "\n"

end Audit

end CommandScript
