import CommandScript.Command
import CommandScript.Name
import CommandScript.Script.Lines
import CommandScript.Script.Tokens
import CommandScript.Text.Blank
/-!
# Scripts

A script holds a command a line. A line without tokens says nothing; on any other the first token
must be a command name, and the rest are its arguments. The first line that breaks a rule decides
the failure of the whole script.
-/

set_option autoImplicit false
set_option relaxedAutoImplicit false

namespace CommandScript

/-- Why a line is refused. -/
inductive LineIssue
  | unterminated (what : Unterminated)
  | invalidName
  deriving DecidableEq, Repr

namespace LineIssue

def message : LineIssue → String
  | unterminated what => what.message
  | invalidName => "invalid command name"

end LineIssue

namespace Script

/-- The command that tokens ask for, if there are any. -/
def commandOfTokens (policy : NamePolicy) : List String → Except LineIssue (Option Command)
  | [] => .ok none
  | name :: args =>
    if policy.accepts name then .ok (some { name := canonicalName name, args })
    else .error .invalidName

/-- The command on a line, if there is one. White space at the two ends of the line is no part of
it. -/
def commandOfLine (policy : NamePolicy) (line : String) : Except LineIssue (Option Command) :=
  match tokenize (trim line.toList) with
  | .error what => .error (.unterminated what)
  | .ok tokens => commandOfTokens policy (tokens.map String.ofList)

/-- The commands on some lines. -/
def commandsOfLines (policy : NamePolicy) : List String → Except LineIssue (List Command)
  | [] => .ok []
  | line :: lines => do
    let command ← commandOfLine policy line
    let commands ← commandsOfLines policy lines
    return command.toList ++ commands

/-- The lines of a script's text. -/
def lines (content : Bytes) : List String :=
  (LineStream.ofBytes content).lines.map fun line ↦ Utf8.decode line.1

/-- The commands of a script. -/
def parse (policy : NamePolicy) (content : Bytes) : Except LineIssue (List Command) :=
  commandsOfLines policy (lines content)

end Script

end CommandScript
