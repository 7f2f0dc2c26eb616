import RootedGlob.Ignore
import RootedGlob.Scope

/-!
# Finding files

Every folder of a workspace is walked, and the files that the included glob matches and the excluded
one does not are selected. A file that lies in several folders belongs to the innermost one only.
Only regular files count, links inside a folder are not followed, and a folder that is missing gives
an empty group. The groups come in the order of the folders and are sorted segment by segment.
-/

namespace RootedGlob

structure WalkOptions where
  /-- Whether names that start with a dot are walked, too. -/
  hidden : Bool := false
  /-- Whether ignore files count. -/
  ignoreFiles : Bool := true
deriving DecidableEq, Repr

/-- The selected files of one folder. -/
structure FolderFiles where
  folder : Text
  files : List Text
deriving DecidableEq, Repr

structure Findings where
  groups : List FolderFiles := []
  /-- How many files were selected. -/
  total : Nat := 0
  /-- How many files were looked at. -/
  scanned : Nat := 0
deriving DecidableEq, Repr

namespace Findings

/-- All selected files, in the order of the groups. -/
def files (findings : Findings) : List Text := findings.groups.flatMap (·.files)

end Findings

namespace Finder

/-- Whether a walk passes over an entry. A rule that includes it holds against its hidden name. -/
def skips (options : WalkOptions) (rules : Ignore.Rules) (names : List Text) (directory : Bool) :
    Bool :=
  let verdict := if options.ignoreFiles then rules.verdict? names directory else none
  match verdict with
  | some .ignored => true
  | some .included => false
  | none => !options.hidden && (names.getLast?.bind (·.head?)) == some '.'

/-- The regular files among the entries of a directory and below, each given by its names below
the walked folder. `path` is the directory, and `names` leads to it. -/
def walkEntries (disk : Disk) (options : WalkOptions) (rules : Ignore.Rules) (path : Text)
    (names : List Text) : List (Text × FileTree) → List (List Text)
  | [] => []
  | (name, .file _) :: rest =>
    let here := names ++ [name]
    let files := walkEntries disk options rules path names rest
    if skips options rules here false then files else here :: files
  | (name, .directory entries) :: rest =>
    let here := names ++ [name]
    let files := walkEntries disk options rules path names rest
    if skips options rules here true then files
    else
      let inner := Path.under path name
      walkEntries disk options (rules.enter disk inner [] here.length) inner here entries ++ files
  | (_, .link _) :: rest => walkEntries disk options rules path names rest

/-- The regular files below a folder; none if it is not a directory. -/
def walk (env : Environment) (options : WalkOptions) (folder : Text) : Option (List Text) :=
  match env.disk.locate folder, env.disk.find folder with
  | .ok location, .ok (.directory entries) =>
    let rules := (Ignore.Rules.above env location).enter env.disk folder [] 0
    let found := walkEntries env.disk options rules folder [] entries
    some (found.map fun names => Path.under folder (Path.ofSegments names))
  | _, _ => none

/-- The order of paths: segment by segment, and within a segment character by character. -/
def comesBefore (a b : Text) : Bool :=
  !List.lex (Path.segments b) (Path.segments a) fun s t => List.lex s t fun c d => decide (c < d)

/-- The files of a walk that belong to a folder and to no other folder inside it. -/
def owned (folders : Folders) (folder : Text) (walked : List Text) : List Text :=
  walked.filter fun file => folders.around? file == some folder

/-- Adds the group of a folder, given the files of its walk. -/
def addGroup (folders : Folders) (included excluded : Glob.Combined)
    (walk : Text → Option (List Text)) (findings : Findings) (folder : Text) : Findings :=
  let scanned := owned folders folder ((walk folder).getD [])
  let selected := scanned.filter fun file => included.isMatch file && !excluded.isMatch file
  let files := selected.mergeSort comesBefore
  { groups := findings.groups ++ [⟨folder, files⟩]
    total := findings.total + files.length
    scanned := findings.scanned + scanned.length }

/-- Selects files from the walks of all folders. -/
def select (folders : Folders) (scope : Scope) (walk : Text → Option (List Text)) :
    Except Glob.PatternError Findings := do
  let included ← Glob.Combined.compile scope.included
  let excluded ← (scope.excluded.map Glob.Combined.compile).getD (.ok {})
  return folders.paths.foldl (addGroup folders included excluded walk) {}

/-- Finds the files of a scope on a disk. -/
def find (env : Environment) (options : WalkOptions) (folders : Folders) (scope : Scope) :
    Except Error Findings :=
  (select folders scope (walk env options)).mapError .pattern

end Finder

end RootedGlob
