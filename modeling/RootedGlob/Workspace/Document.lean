import RootedGlob.Json.Comments
import RootedGlob.Json.Quoted
import RootedGlob.Path.Ancestors
import RootedGlob.Workspace.Folders

/-!
# Workspace files

A workspace file is JSON with comments that lists folders, each with a path. Other members are
passed over, a member that counts must not occur twice, and an array may give the members by
position. A path that is neither absolute nor starts with a drive letter is taken from the directory
that holds the file.
-/

namespace RootedGlob.Workspace

/-- The value of the only member with a given name: none if there is no such member, a failure if
there are several. -/
def onlyMember? (name : Text) (members : List (Text × Json)) : Option (Option Json) :=
  match members.filter fun (other, _) => other == name with
  | [] => some none
  | [(_, value)] => some (some value)
  | _ => none

/-- The path of an entry of a workspace file. -/
def entryPath? : Json → Option Text
  | .object members => do
    let members ← Json.decodeNames? members
    let path ← ← onlyMember? "path".toList members
    path.text?
  | .array [path] => path.text?
  | _ => none

/-- The paths of a list of entries. -/
def entryPaths? : Json → Option (List Text)
  | .array entries => entries.mapM entryPath?
  | _ => none

/-- The paths that a workspace file lists. -/
def paths? : Json → Option (List Text)
  | .object members => do
    let members ← Json.decodeNames? members
    match ← onlyMember? "folders".toList members with
    | none => some []
    | some entries => entryPaths? entries
  | .array [] => some []
  | .array [entries] => entryPaths? entries
  | _ => none

/-- The paths listed in the text of a workspace file. -/
def parse? (text : Text) : Option (List Text) := (Json.parse? (Json.stripComments text)).bind paths?

/-- The directory that holds a file, made absolute against the current directory. -/
def baseDirectory (current file : Text) : Text :=
  match Path.parent? file with
  | some parent => if Path.isAbsolute parent then parent else Path.under current parent
  | none => current

/-- The folder that an entry of a workspace file names. -/
def resolveEntry (base entry : Text) : Text :=
  let path := Text.slashed entry
  if Path.isAbsolute path ∨ Folders.hasDrive path then path else Path.under base path

/-- The folders of a workspace file with given entries. -/
def foldersOfEntries (current file : Text) (entries : List Text) : Except Error Folders :=
  Folders.ofPaths (entries.map (resolveEntry (baseDirectory current file)))

/-- Reads the folders of a workspace file from a disk. -/
def load (disk : Disk) (file : Text) : Except Error Folders := do
  let text ← (disk.readText file).mapError fun cause => .workspaceFile file (.unreadable cause)
  match parse? text with
  | none => .error (.workspaceFile file .malformed)
  | some entries => foldersOfEntries disk.currentPath file entries

end RootedGlob.Workspace
