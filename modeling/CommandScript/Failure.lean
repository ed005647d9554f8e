import CommandScript.Script
/-!
# Failures

What stops a reading of the arguments, and the line that reports it. A script is cited by the name
it was given by, as it was given.
-/

set_option autoImplicit false
set_option relaxedAutoImplicit false

namespace CommandScript

inductive Failure
  | dashSuccession
  | invalidName
  | unreadable (script : String)
  | badLine (script : String) (issue : LineIssue)
  deriving DecidableEq, Repr

namespace Failure

def message : Failure → String
  | dashSuccession => "Invalid CLI syntax: succession of dashes"
  | invalidName => "Invalid CLI syntax: invalid command name"
  | unreadable script => "Error reading specified file: " ++ script
  | badLine script issue => "Invalid syntax in file " ++ script ++ ": " ++ issue.message

/-- The script at fault, as named. -/
def script? : Failure → Option String
  | dashSuccession | invalidName => none
  | unreadable script | badLine script _ => some script

end Failure

end CommandScript
