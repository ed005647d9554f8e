import CommandScript.FileTree
import CommandScript.Run
/-!
# Runs in a file tree

The scripts and settings of a run are looked up in a tree, from a working directory. A run leaves
the tree as it was, but for the line that it adds to the record of runs. If the record is a standard
stream of the program, the line is shown there, behind a report on settings and in front of what the
run prints.
-/

set_option autoImplicit false
set_option relaxedAutoImplicit false

namespace CommandScript

/-- The outcome with a line in front of what goes to a stream, if one is given. -/
def Outcome.showing (outcome : Outcome) (line : String) : Option StandardStream → Outcome
  | none => outcome
  | some .output => { outcome with stdout := line ++ outcome.stdout }
  | some .error => { outcome with stderr := line ++ outcome.stderr }

namespace FileTree

/-- The scripts that names stand for in a working directory. -/
def library (tree : FileTree) (cwd : Location) : ScriptLibrary := fun name ↦ do
  let location ← tree.resolve? cwd name
  let content ← tree.contentAt? location
  return { path := location.path, content }

/-- The settings file that a path leads to. -/
def configFile (tree : FileTree) (cwd : Location) (path : String) : ConfigFile :=
  match tree.nodeBehind? cwd path with
  | none => .absent
  | some (.file content) => ConfigFile.ofBytes content
  | some .nullDevice => ConfigFile.ofBytes []
  | some _ => .unreadable

/-- The user's settings file. -/
def userConfigFile (tree : FileTree) (cwd : Location) (environment : Environment) : ConfigFile :=
  match environment.userConfigPath? with
  | none => .absent
  | some path => tree.configFile cwd path

/-- The project's settings file. -/
def projectConfigFile (tree : FileTree) (cwd : Location) : ConfigFile :=
  tree.configFile cwd (Config.projectPath cwd.path)

/-- A run in a working directory, on arguments given as bytes. -/
def request (tree : FileTree) (cwd : Location) (environment : Environment)
    (explain : ConfigFile → String) (timestamp : String) (args : List Bytes) : Request where
  args := args.map Utf8.decode
  directory := some cwd.path
  timestamp := timestamp
  userConfig := tree.userConfigFile cwd environment
  projectConfig := tree.projectConfigFile cwd
  explain
  library := tree.library cwd

/-- The outcome of a run from where its settings are loaded, behind a report on them, and the tree
that it leaves. -/
def runUnder (tree : FileTree) (cwd : Location) (request : Request) (config : Config)
    (report : String) : Outcome × FileTree :=
  let outcome := request.outcomeUnder config
  match outcome.log with
  | none => (outcome.behind report, tree)
  | some entry =>
    ((outcome.showing entry.line (tree.stream? cwd entry.path)).behind report,
      tree.append cwd entry.path (Utf8.encode entry.line))

/-- The outcome of a run, and the tree that it leaves. -/
def run (tree : FileTree) (cwd : Location) (environment : Environment)
    (explain : ConfigFile → String) (timestamp : String) (args : List Bytes) :
    Outcome × FileTree :=
  let request := tree.request cwd environment explain timestamp args
  tree.runUnder cwd request request.effectiveConfig request.configReport

end FileTree

end CommandScript
