import RootedGlob.CommandLine
import RootedGlob.Disk.Change

/-!
# The program

Copies the parts of the real disk that a run may look at into a disk value, and runs the command
line on it: first the configuration and workspace files with the directories above the current one, then,
once the folders are known, everything below the folders to be searched and the ignore files above
them.
-/

namespace RootedGlob.Main

/-- Copies a file, if there is one. -/
def copyFile (disk : Disk) (path : Text) : IO Disk := do
  try
    let content ← IO.FS.readBinFile (String.ofList path)
    return disk.write path content
  catch _ => return disk

/-- Copies the names in a directory, and the files among them with given names or extensions. -/
def copyNames (disk : Disk) (wanted : Text → Bool) (directory : Text) : IO Disk := do
  try
    let real ← IO.FS.realPath (String.ofList directory)
    let mut disk := disk.makeDirectory directory
    for entry in ← real.readDir do
      let name := entry.fileName.toList
      if wanted name then
        disk ← copyFile disk (Path.under directory name)
    return disk
  catch _ => return disk

/-- The names of files whose content a walk looks at. -/
def isIgnoreFile (name : Text) : Bool :=
  [".ignore", ".gitignore", "exclude"].any fun ignore => name == ignore.toList

/-- Copies everything below a directory. Links are copied as links. -/
partial def copyTree (disk : Disk) (directory : Text) : IO Disk := do
  try
    let real ← IO.FS.realPath (String.ofList directory)
    let mut disk := disk.makeDirectory directory
    for entry in ← real.readDir do
      let name := entry.fileName.toList
      let path := Path.under directory name
      match (← entry.path.symlinkMetadata).type with
      | .dir => disk ← copyTree disk path
      | .file =>
        disk ←
          if isIgnoreFile name then copyFile disk path
          else pure (disk.write path ByteArray.empty)
      | .symlink => disk ← if isIgnoreFile name then copyFile disk path else pure disk
      | .other => pure ()
    return disk
  catch _ => return disk

/-- Copies the ignore files of a directory. -/
def copyIgnoreFiles (disk : Disk) (directory : Text) : IO Disk := do
  let disk ← copyNames disk isIgnoreFile directory
  copyFile disk (Path.under directory ".git/info/exclude".toList)

/-- The files that settings may come from. -/
def settingsFiles (env : Environment) (explicit : Option Text) : List Text :=
  let global := env.configDirectory?.map fun directory => Path.under directory Settings.globalFile
  let names := global.toList ++ [Settings.localFile] ++ explicit.toList
  names.flatMap fun name =>
    name :: Settings.extensions.map fun (extension, _) => Settings.withExtension name extension

/-- Copies what a run looks at before it knows its folders. -/
def copySettings (env : Environment) (arguments : CommandLine.Arguments) : IO Environment := do
  let mut disk := env.disk
  for directory in Path.ancestors disk.currentPath do
    disk ← copyNames disk (Path.extension? · == some Workspace.fileExtension) directory
  for file in settingsFiles env arguments.config do
    disk ← copyFile disk file
  return { env with disk }

/-- Copies what a walk of some folders looks at. -/
def copyFolders (env : Environment) (folders : List Text) : IO Environment := do
  let mut disk := env.disk
  for folder in folders do
    for directory in (Path.ancestors folder).drop 1 do
      disk ← copyIgnoreFiles disk directory
    disk ← copyTree disk folder
  for file in (Ignore.Rules.globalFile? env).toList do
    disk ← copyFile disk file
  return { env with disk }

/-- Copies all that a run looks at. -/
def copyAll (env : Environment) (arguments : CommandLine.Arguments) : IO Environment := do
  let env ← copySettings env arguments
  match CommandLine.settingsOf env arguments with
  | .error _ => return env
  | .ok settings =>
    let mut disk := env.disk
    for file in settings.workspaceFile.toList do
      disk ← copyFile disk file
    let env := { env with disk }
    copyFolders env (CommandLine.foldersToWalk env settings arguments.command)

/-- The environment of the process, with a disk that holds the current directory only. -/
def processEnvironment : IO Environment := do
  let current := (toString (← IO.FS.realPath ".")).toList
  let read (name : String) : IO (Option Text) := return (← IO.getEnv name).map String.toList
  return {
    disk := ({} : Disk).enter current
    home := ← read "HOME"
    configHome := ← read "XDG_CONFIG_HOME" }

end RootedGlob.Main

open RootedGlob in
/-- Runs the command line. Misuse ends with code 2, a failure with code 1. -/
def main (arguments : List String) : IO UInt32 := do
  let arguments := arguments.map String.toList
  let env ← Main.processEnvironment
  let env ←
    match CommandLine.Arguments.ofList? arguments with
    | some read => Main.copyAll env read
    | none => pure env
  let color ← (← IO.getStdout).isTty
  match CommandLine.run env color arguments with
  | .misused =>
    IO.eprintln "usage: split | convert | scope | files, with their options"
    return 2
  | .failed failure =>
    IO.eprintln (String.ofList ("Error: ".toList ++ failure.context ++ "\n\nCaused by:\n    ".toList
      ++ failure.cause.message))
    return 1
  | .printed report =>
    IO.print (String.ofList report)
    return 0
