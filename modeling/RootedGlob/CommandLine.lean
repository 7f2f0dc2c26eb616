import RootedGlob.CommandLine.Arguments
import RootedGlob.Finder
import RootedGlob.Json.Printer
import RootedGlob.Settings.Files
import RootedGlob.Workspace.Detection
import RootedGlob.Workspace.Document

/-!
# The command line

A run loads the settings, lays the options of the command over them, and prints a report, as text or
as JSON. The folders are those of the settings; without any they come from the workspace file, from
one that is found in the current directory or above, or they are the current directory alone.
-/

namespace RootedGlob.CommandLine

/-- What went wrong, and in which part of a run. -/
inductive Failure where
  | configuration (cause : Error)
  | folder (cause : Error)
  | workspaceFile (path : Text) (cause : Error)
  | search (included : Text) (cause : Error)
deriving DecidableEq, Repr

namespace Failure

/-- The part of the run that failed. -/
def context : Failure → Text
  | configuration _ => "Failed to load configuration".toList
  | folder _ => "Invalid workspace folder".toList
  | workspaceFile path _ => "Failed to read workspace file ".toList ++ path
  | search included _ => "Failed to search ".toList ++ included

def cause : Failure → Error
  | configuration cause => cause
  | folder cause => cause
  | workspaceFile _ cause => cause
  | search _ cause => cause

end Failure

inductive Outcome where
  /-- The arguments cannot be understood. -/
  | misused
  | failed (failure : Failure)
  | printed (report : Text)
deriving DecidableEq, Repr

/-- The settings that a choice of folders stands for. -/
def FolderChoice.settings (choice : FolderChoice) : Settings :=
  { folders := choice.folders, workspaceFile := choice.workspaceFile }

/-- The settings that the options of a command stand for. -/
def Command.settings : Command → Settings
  | .split _ => {}
  | .convert _ choice => choice.settings
  | .scope _ included excluded choice => { choice.settings with included, excluded }
  | .files included excluded hidden noIgnore threads _ choice =>
    { choice.settings with included, excluded, hidden, ignoreFiles := !noIgnore, threads }

/-- The folders that a run works on. -/
def chooseFolders (disk : Disk) (settings : Settings) : Except Failure Folders :=
  if settings.folders ≠ [] then (Folders.ofPaths settings.folders).mapError .folder
  else
    match settings.workspaceFile.or (Workspace.detect disk disk.currentPath) with
    | some file => (Workspace.load disk file).mapError (.workspaceFile file)
    | none => (Folders.ofPaths [disk.currentPath]).mapError .folder

inductive Style where
  | blue
  | green
  | yellow
  | dimmed

/-- Writes a text in a style, if styles are wanted. -/
def styled (color : Bool) (style : Style) (text : Text) : Text :=
  if color then
    let code :=
      match style with
      | .blue => "34"
      | .green => "32"
      | .yellow => "33"
      | .dimmed => "2"
    "\x1b[".toList ++ code.toList ++ 'm' :: text ++ "\x1b[0m".toList
  else text

def line (text : Text) : Text := text ++ ['\n']

def jsonTexts (texts : List Text) : Json := .array (texts.map Json.ofText)

def jsonObject (members : List (String × Json)) : Json :=
  .object (members.map fun (name, value) => (name.toList, value))

def jsonReport (value : Json) : Text := line (value.pretty 0)

def jsonResolution : Resolution → Json
  | .noFolders => jsonObject [("status", .ofText "no_workspace_folders".toList)]
  | .nothingToFind => jsonObject [("status", .ofText "empty_find".toList)]
  | .ready scope =>
    jsonObject [("status", .ofText "ready".toList), ("include", .ofText scope.included),
      ("exclude", (scope.excluded.map Json.ofText).getD .null)]

def jsonFindings (findings : Findings) : Json :=
  let group (group : FolderFiles) : Json :=
    jsonObject [("folder", .ofText group.folder), ("files", jsonTexts group.files)]
  jsonObject [("folders", .array (findings.groups.map group)),
    ("total_files", .ofNat findings.total), ("files_scanned", .ofNat findings.scanned)]

def textResolution (color : Bool) (folders : Folders) : Resolution → Text
  | .noFolders => line (styled color .yellow "No workspace folders found; nothing to search".toList)
  | .nothingToFind =>
    line (styled color .yellow "Find expression is empty; nothing to search".toList)
  | .ready scope =>
    let entry (name : String) (value : Text) : Text :=
      line (styled color .blue name.toList ++ ' ' :: value)
    entry "folders:" (", ".toList.intercalate folders.paths)
      ++ entry "include:" scope.included
      ++ entry "exclude:" (scope.excluded.getD (styled color .dimmed "(none)".toList))

/-- A file as it is shown below its folder. -/
def shownFile (folder file : Text) : Text :=
  let stem := if Path.endsWithSeparator folder then folder else folder ++ [Path.separator]
  (Text.after? stem file).getD file

def textGroup (color : Bool) (group : FolderFiles) : Text :=
  if group.files = [] then []
  else
    line ('\n' :: styled color .blue group.folder)
      ++ group.files.flatMap fun file =>
        line (' ' :: ' ' :: styled color .green (shownFile group.folder file))

def textFindings (color stats : Bool) (findings : Findings) : Text :=
  let groups := if stats then [] else findings.groups.flatMap (textGroup color)
  let summary :=
    "\nSelected ".toList ++ Text.ofNat findings.total ++ " of ".toList
      ++ Text.ofNat findings.scanned ++ " files in ".toList
      ++ Text.ofNat findings.groups.length ++ " folders".toList
  groups ++ line summary

/-- Runs a command under some settings. -/
def perform (env : Environment) (color json : Bool) (settings : Settings) (command : Command) :
    Except Failure Text :=
  match command with
  | .split pattern =>
    let tokens := PatternList.tokens pattern
    .ok (if json then jsonReport (jsonTexts tokens) else tokens.flatMap line)
  | .convert pattern _ => do
    let folders ← chooseFolders env.disk settings
    let converted := Anchoring.anchor folders.paths pattern
    return if json then
      jsonReport (jsonObject [("converted", .ofText converted),
        ("folders", jsonTexts folders.paths), ("pattern", .ofText pattern)])
    else line converted
  | .scope find .. => do
    let folders ← chooseFolders env.disk settings
    let resolution := Resolution.ofQuery folders
      { find, included := settings.included, excluded := settings.excluded }
    return if json then jsonReport (jsonResolution resolution)
    else textResolution color folders resolution
  | .files _ _ _ _ _ stats _ => do
    let folders ← chooseFolders env.disk settings
    let scope := Scope.ofFields folders settings.included settings.excluded
    let options := { hidden := settings.hidden, ignoreFiles := settings.ignoreFiles }
    let findings ← (Finder.find env options folders scope).mapError (.search scope.included)
    return if json then jsonReport (jsonFindings findings)
    else textFindings color stats findings

/-- The folders that a command is going to search; none if it searches nothing or fails before. -/
def foldersToWalk (env : Environment) (settings : Settings) : Command → List Text
  | .files .. => ((chooseFolders env.disk settings).toOption.map (·.paths)).getD []
  | _ => []

/-- The settings of a run. -/
def settingsOf (env : Environment) (arguments : Arguments) : Except Failure Settings :=
  ((Settings.load env arguments.config).mapError .configuration).map
    (·.overriddenBy arguments.command.settings)

/-- Runs a command line. -/
def run (env : Environment) (color : Bool) (arguments : List Text) : Outcome :=
  match Arguments.ofList? arguments with
  | none => .misused
  | some arguments =>
    let report := do
      let settings ← settingsOf env arguments
      perform env color arguments.json settings arguments.command
    match report with
    | .ok report => .printed report
    | .error failure => .failed failure

end RootedGlob.CommandLine
