import RootedGlob.Disk
import RootedGlob.Glob.Combined

/-!
# Errors

Everything that can go wrong between a user's settings and a list of files, each with its cause. The
message of an error is a heading that depends on its kind, followed by the cause.
-/

namespace RootedGlob

/-- The kinds of error. -/
inductive ErrorKind where
  | pattern
  | relativeFolder
  | workspaceFile (path : Text)
  | configuration
  | inputOutput
  | workers
deriving DecidableEq, Repr

namespace ErrorKind

/-- The message of an error of this kind with a given cause. -/
def describe (kind : ErrorKind) (cause : Text) : Text :=
  let heading :=
    match kind with
    | pattern => "Invalid pattern".toList
    | relativeFolder => "Workspace folder must be an absolute path".toList
    | workspaceFile path => "Invalid workspace file ".toList ++ path
    | configuration => "Configuration error".toList
    | inputOutput => "IO error".toList
    | workers => "Failed to build thread pool".toList
  heading ++ ": ".toList ++ cause

end ErrorKind

/-- Why a workspace file gives no folders. -/
inductive WorkspaceFault where
  | unreadable (cause : FileFault)
  /-- The text is no JSON, or not of the shape of a workspace file. -/
  | malformed
deriving DecidableEq, Repr

/-- Why the configuration files give no settings. -/
inductive ConfigurationFault where
  | missing (path : Text)
  /-- The name of the file ends in none of the known extensions. -/
  | unknownFormat (path : Text)
  /-- A file cannot be read, does not follow its format, or holds a value of a wrong type. -/
  | malformed
deriving DecidableEq, Repr

inductive Error where
  | pattern (cause : Glob.PatternError)
  | relativeFolder (folder : Text)
  | workspaceFile (path : Text) (cause : WorkspaceFault)
  | configuration (cause : ConfigurationFault)
deriving DecidableEq, Repr

namespace Error

def kind : Error → ErrorKind
  | pattern _ => .pattern
  | relativeFolder _ => .relativeFolder
  | workspaceFile path _ => .workspaceFile path
  | configuration _ => .configuration

def detail : Error → Text
  | pattern cause => cause.detail
  | relativeFolder folder => folder
  | workspaceFile _ (.unreadable cause) => cause.detail
  | workspaceFile _ .malformed => "the text does not describe a workspace".toList
  | configuration (.missing path) =>
    "configuration file \"".toList ++ path ++ "\" not found".toList
  | configuration (.unknownFormat path) =>
    "configuration file \"".toList ++ path ++ "\" is not of a registered file format".toList
  | configuration .malformed => "a configuration file does not hold valid settings".toList

def message (error : Error) : Text := error.kind.describe error.detail

end Error

end RootedGlob
