import RootedGlob.Disk
import RootedGlob.Path.Ancestors

/-!
# Detecting a workspace file

Without settings, the workspace file is looked for in a directory and the directories above it. The
nearest directory that holds one decides, and there the first name in the order of characters. Only
a limited number of directories is looked at.
-/

namespace RootedGlob.Workspace

/-- How many directories are looked at. -/
def maxSteps : Nat := 20

def fileExtension : Text := "code-workspace".toList

/-- Whether an entry of a directory is a workspace file. -/
def isCandidate (disk : Disk) (directory name : Text) : Bool :=
  Path.extension? name == some fileExtension && disk.isFile (Path.under directory name)

/-- The first of some names in the order of characters. -/
def firstName? (names : List Text) : Option Text :=
  names.foldl (fun best name => if best.all (name < ·) then some name else best) none

/-- The workspace file of one directory. -/
def inDirectory? (disk : Disk) (directory : Text) : Option Text :=
  if disk.isDirectory directory then
    (firstName? ((disk.names directory).filter (isCandidate disk directory))).map
      (Path.under directory)
  else none

/-- The nearest workspace file of a directory and those above it. -/
def detect (disk : Disk) (directory : Text) : Option Text :=
  ((Path.ancestors directory).take maxSteps).findSome? (inDirectory? disk)

end RootedGlob.Workspace
