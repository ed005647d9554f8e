import CommandScript.Config.Decoding
import CommandScript.FileTree.Path
import CommandScript.Text.Utf8
/-!
# Where settings come from

The user's settings come from a file of their own, whose place the environment decides, and the
project's from a file in the working directory. Either may be missing. If one cannot be used there
are no settings at all, and the user's file is looked at first.
-/

set_option autoImplicit false
set_option relaxedAutoImplicit false

namespace CommandScript

/-- What a settings file turned out to be. -/
inductive ConfigFile
  | absent
  | unreadable
  | text (content : String)
  deriving DecidableEq, Repr

namespace ConfigFile

/-- A file with the given content. -/
def ofBytes (content : Bytes) : ConfigFile :=
  match Utf8.decodeStrict? content with
  | some content => text content
  | none => unreadable

end ConfigFile

/-- Why there are no settings: a file cannot be read, or is not understood. The cause is told in the
words of what failed. -/
inductive ConfigError
  | unreadable (cause : String)
  | malformed (cause : String)
  deriving DecidableEq, Repr

namespace ConfigError

def message : ConfigError → String
  | unreadable cause => "Config error: failed to read config file: " ++ cause
  | malformed cause => "Config error: failed to parse TOML: " ++ cause

end ConfigError

namespace Config

/-- The settings in a file, if there is one. What is wrong with a file that cannot be used is said
by `explain`. -/
def ofFile (explain : ConfigFile → String) : ConfigFile → Except ConfigError (Option Config)
  | .absent => .ok none
  | .unreadable => .error (.unreadable (explain .unreadable))
  | .text content =>
    match parse? content with
    | some config => .ok (some config)
    | none => .error (.malformed (explain (.text content)))

/-- The settings that the user's and the project's files make together. -/
def load (explain : ConfigFile → String) (user project : ConfigFile) :
    Except ConfigError Config := do
  let base := (← ofFile explain user).getD {}
  match ← ofFile explain project with
  | none => return base
  | some config => return base.overlay config

/-- The path of the settings file of a project in a directory. -/
def projectPath (directory : String) : String := Path.join directory ".fabline.toml"

end Config

/-- The environment variables that decide where the user's settings are, each if it is set, and the
home directory of the user's account. -/
structure Environment where
  userConfig : Option String := none
  xdgConfigHome : Option String := none
  home : Option String := none
  accountHome : Option String := none
  deriving DecidableEq, Repr

namespace Environment

/-- The directory for configuration: the one set for it if that is an absolute path, or else one in
the home directory. -/
def configDirectory? (environment : Environment) : Option String :=
  match environment.xdgConfigHome.filter Path.isAbsolute with
  | some path => some path
  | none =>
    let home := environment.home.filter (· ≠ "") <|> environment.accountHome
    home.map (Path.join · ".config")

/-- The path of the user's settings file. -/
def userConfigPath? (environment : Environment) : Option String :=
  environment.userConfig <|> environment.configDirectory?.map (Path.join · "fabline/config.toml")

end Environment

end CommandScript
