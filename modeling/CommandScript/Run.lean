import CommandScript.Arguments
import CommandScript.Audit
import CommandScript.Config.Source
import CommandScript.Report
/-!
# One run of the program

A run reads its settings and its arguments, prints the stream or the failure, and says what it has
to add to the record of runs. Settings that cannot be used are reported and replaced by the
defaults. Nothing of a run that fails is printed, and what becomes of the record has no part in what
the run prints itself.
-/

set_option autoImplicit false
set_option relaxedAutoImplicit false

namespace CommandScript

/-- What a run starts from. The words on a settings file that cannot be used are not its own. -/
structure Request where
  args : List String
  directory : Option String
  timestamp : String
  userConfig : ConfigFile
  projectConfig : ConfigFile
  explain : ConfigFile → String
  library : ScriptLibrary

/-- A line to be added to a file. -/
structure LogEntry where
  path : String
  line : String
  deriving DecidableEq, Repr

/-- What comes of a run: what it prints, and what it has to add to the record. -/
structure Outcome where
  exitCode : UInt8
  stdout : String
  stderr : String
  log : Option LogEntry
  deriving DecidableEq, Repr

/-- The outcome with a report in front of what goes to the standard error. -/
def Outcome.behind (outcome : Outcome) (report : String) : Outcome :=
  { outcome with stderr := report ++ outcome.stderr }

namespace Request

def config (request : Request) : Except ConfigError Config :=
  Config.load request.explain request.userConfig request.projectConfig

/-- The settings in force. -/
def effectiveConfig (request : Request) : Config :=
  match request.config with
  | .ok config => config
  | .error _ => {}

/-- The report on settings that cannot be used. -/
def configReport (request : Request) : String :=
  match request.config with
  | .ok _ => ""
  | .error error => error.message ++ "\n"

/-- The outcome under given settings. -/
def outcomeUnder (request : Request) (config : Config) : Outcome :=
  let result := Arguments.parse request.library config.names request.args
  let log := config.audit.activePath?.map fun path ↦
    { path, line := Audit.line request.timestamp request.directory request.args result }
  match result with
  | .ok stream =>
    { exitCode := 0, stdout := stream.render config.outputFormat, stderr := "", log }
  | .error failure =>
    { exitCode := 1, stdout := "", stderr := failure.message ++ "\n", log }

def outcome (request : Request) : Outcome :=
  (request.outcomeUnder request.effectiveConfig).behind request.configReport

end Request

end CommandScript
