import RootedGlob.Text

/-!
# Settings

The settings of a search, and how later ones take precedence over earlier ones. Folders and a
workspace file exclude each other: the later layer that gives either decides both. Walking hidden
files and disregarding ignore files can be switched on by a later layer, never off.
-/

namespace RootedGlob

structure Settings where
  folders : List Text := []
  workspaceFile : Option Text := none
  included : Option Text := none
  excluded : Option Text := none
  hidden : Bool := false
  ignoreFiles : Bool := true
  threads : Option Nat := none
  logLevel : Option Text := none
deriving DecidableEq, Repr

namespace Settings

def defaultLogLevel : Text := "warn".toList

def effectiveLogLevel (settings : Settings) : Text := settings.logLevel.getD defaultLogLevel

/-- The settings that hold when `later` is layered over `settings`. -/
def overriddenBy (settings later : Settings) : Settings :=
  let named :=
    if later.folders ≠ [] then { settings with folders := later.folders, workspaceFile := none }
    else if later.workspaceFile.isSome then
      { settings with folders := [], workspaceFile := later.workspaceFile }
    else settings
  { named with
    included := later.included.or settings.included
    excluded := later.excluded.or settings.excluded
    hidden := settings.hidden || later.hidden
    ignoreFiles := settings.ignoreFiles && later.ignoreFiles
    threads := later.threads.or settings.threads
    logLevel := later.logLevel.or settings.logLevel }

end Settings

end RootedGlob
