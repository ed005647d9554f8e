import CommandScript.Name
import CommandScript.Report
/-!
# Settings

Which names may begin a command, how the result is printed, and whether and where runs are recorded.
Project settings are laid over the user's: a project can let single characters through, choose a
format and turn the record on with a path of its own; it cannot take back what the user has turned
on.
-/

set_option autoImplicit false
set_option relaxedAutoImplicit false

namespace CommandScript

structure AuditSettings where
  enabled : Bool := false
  path : Option String := none
  deriving DecidableEq, Repr

namespace AuditSettings

/-- Where runs are recorded, if they are. -/
def activePath? (settings : AuditSettings) : Option String :=
  if settings.enabled then settings.path else none

/-- A project's settings laid over these. They count only if they turn the record on. -/
def overlay (settings project : AuditSettings) : AuditSettings :=
  if project.enabled then { enabled := true, path := project.path <|> settings.path }
  else settings

end AuditSettings

structure Config where
  names : NamePolicy := {}
  format : Option Format := none
  audit : AuditSettings := {}
  deriving DecidableEq, Repr

namespace Config

/-- The format in which results are printed. -/
def outputFormat (config : Config) : Format := config.format.getD .text

/-- A project's settings laid over these. -/
def overlay (config project : Config) : Config where
  names := { allowSingleChar := config.names.allowSingleChar || project.names.allowSingleChar }
  format := project.format <|> config.format
  audit := config.audit.overlay project.audit

end Config

end CommandScript
