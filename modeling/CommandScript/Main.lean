import CommandScript.Account
import CommandScript.FileTree.Path
import CommandScript.Run
import Std.Time.Format
/-!
# The command line

Gathers what a run starts from: the arguments, the scripts that they name, the settings files and
the working directory. Then adds the line of the run to the record of runs and prints the outcome. A
record that cannot be written is let be.
-/

set_option autoImplicit false
set_option relaxedAutoImplicit false

namespace CommandScript.Program

/-- The value of an action, unless it fails. -/
def attempt {α : Type} (action : IO α) : BaseIO (Option α) := do
  match ← action.toBaseIO with
  | .ok value => return some value
  | .error _ => return none

/-- The file that a name stands for. -/
def readScript (name : String) : IO ScriptFile := do
  let path ← IO.FS.realPath name
  let content ← IO.FS.readBinFile path
  return { path := path.toString, content := content.toList }

/-- The files that some names stand for, each under its name. -/
def readLibrary (names : List String) : BaseIO ScriptLibrary := do
  let files ← names.mapM fun name ↦ return (name, ← attempt (readScript name))
  return fun name ↦ (files.lookup name).join

/-- The settings file that a path leads to. What is there and is no file cannot be read. -/
def readConfigFile (path : String) : BaseIO ConfigFile := do
  match ← attempt (IO.FS.readBinFile path) with
  | some content => return .ofBytes content.toList
  | none =>
    let location ← attempt (IO.FS.realPath path)
    return if location.isSome && Path.isShort path then .unreadable else .absent

/-- The words on a settings file that cannot be used. -/
def explain : ConfigFile → String
  | .text _ => "it is no document of settings"
  | .absent | .unreadable => "it holds no text"

/-- The home directory of the account that the program runs for. -/
def readAccountHome : BaseIO (Option String) := do
  let status ← attempt (IO.FS.readFile "/proc/self/status")
  let accounts ← attempt (IO.FS.readFile "/etc/passwd")
  return do Account.home? (← accounts) (← Account.userOf? (← status))

def readEnvironment : BaseIO Environment := do
  return {
    userConfig := ← IO.getEnv "FABLINE_CONFIG"
    xdgConfigHome := ← IO.getEnv "XDG_CONFIG_HOME"
    home := ← IO.getEnv "HOME"
    accountHome := ← readAccountHome }

/-- The present time, universal and to the nanosecond. -/
def timestamp : IO String := do
  let now ← Std.Time.Timestamp.now
  return (Std.Time.DateTime.ofTimestampWithZone now .GMT).format
    "uuuu-MM-dd'T'HH:mm:ss.SSSSSSSSS'Z'"

/-- What a run on some arguments starts from. -/
def gather (args : List String) : IO Request := do
  let directory ← attempt IO.currentDir
  let userConfig ← match (← readEnvironment).userConfigPath? with
    | none => pure ConfigFile.absent
    | some path => readConfigFile path
  let projectConfig ← match directory with
    | none => pure ConfigFile.absent
    | some directory => readConfigFile (Config.projectPath directory.toString)
  return {
    args
    directory := directory.map (·.toString)
    timestamp := ← timestamp
    userConfig
    projectConfig
    explain
    library := ← readLibrary (Arguments.scriptNames args) }

/-- Adds a line to the record of runs. -/
def record (entry : LogEntry) : IO Unit := do
  let file ← IO.FS.Handle.mk entry.path .append
  file.putStr entry.line
  file.flush

end CommandScript.Program

open CommandScript.Program in
def main (args : List String) : IO UInt32 := do
  let request ← gather args
  let outcome := request.outcome
  if let some entry := outcome.log then
    discard (attempt (record entry))
  IO.eprint outcome.stderr
  IO.print outcome.stdout
  return outcome.exitCode.toUInt32
