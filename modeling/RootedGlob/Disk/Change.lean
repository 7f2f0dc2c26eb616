import RootedGlob.Disk
import RootedGlob.Path.Ancestors

/-!
# Changing a disk

A path that is written to may lead through links, and its end need not be there yet. Writing makes
the directories that are missing; a link is made or removed in place and not followed.
-/

namespace RootedGlob.Disk

/-- Walks on from a location. What is missing on the way is taken as if it were a directory. -/
def settleFrom (root : FileTree) (links : Nat) (here : List Text) (ahead : List Text) : List Text :=
  match ahead with
  | [] => here
  | name :: rest =>
    if name = [] ∨ name = Path.dot then settleFrom root links here rest
    else if name = Path.dotDot then settleFrom root links here.dropLast rest
    else
      match root.at? (here ++ [name]) with
      | some (.link target) =>
        match links with
        | 0 => here ++ [name]
        | links + 1 =>
          settleFrom root links (if Path.isAbsolute target then [] else here)
            (Path.segments target ++ rest)
      | _ => settleFrom root links (here ++ [name]) rest
termination_by (links, ahead.length)

/-- The location that writing to a path changes. -/
def settle (disk : Disk) (path : Text) : List Text :=
  settleFrom disk.root maxLinks (if Path.isAbsolute path then [] else disk.current)
    (Path.segments path)

/-- The location of a path whose last component is not followed. -/
def settleEntry (disk : Disk) (path : Text) : List Text :=
  match Path.parent? path, Path.fileName? path with
  | some parent, some name => disk.settle parent ++ [name]
  | _, _ => disk.settle path

/-- Writes a file. -/
def write (disk : Disk) (path : Text) (content : ByteArray) : Disk :=
  { disk with root := disk.root.put (.file content) (disk.settle path) }

/-- Makes a directory, unless it is there. -/
def makeDirectory (disk : Disk) (path : Text) : Disk :=
  let location := disk.settle path
  if (disk.root.at? location).any (·.isDirectory) then disk
  else { disk with root := disk.root.put .empty location }

/-- Makes a symbolic link. -/
def makeLink (disk : Disk) (path target : Text) : Disk :=
  { disk with root := disk.root.put (.link target) (disk.settleEntry path) }

/-- Removes a file, a link, or a directory with all that it holds. -/
def remove (disk : Disk) (path : Text) : Disk :=
  { disk with root := disk.root.erase (disk.settleEntry path) }

/-- Makes a directory the current one; it is made if it is missing. -/
def enter (disk : Disk) (path : Text) : Disk :=
  let made := disk.makeDirectory path
  { made with current := made.settle path }

end RootedGlob.Disk
