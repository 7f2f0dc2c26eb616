import RootedGlob.Path

/-!
# Disks

A disk is a tree of directories, regular files and symbolic links. Looking up a path starts at the
root or at the current directory and follows every link on the way, the last one included, as long
as there are not too many of them.
-/

namespace RootedGlob

inductive FileTree where
  | file (content : ByteArray)
  | link (target : Text)
  | directory (entries : List (Text × FileTree))
deriving Inhabited

namespace FileTree

def empty : FileTree := .directory []

def entries : FileTree → List (Text × FileTree)
  | .directory entries => entries
  | _ => []

def isFile : FileTree → Bool
  | .file _ => true
  | _ => false

def isDirectory : FileTree → Bool
  | .directory _ => true
  | _ => false

/-- The tree at a location, which names directories from the root down. Links are not followed. -/
def at? (tree : FileTree) : List Text → Option FileTree
  | [] => some tree
  | name :: rest => (tree.entries.lookup name).bind (·.at? rest)

/-- Replaces the entry of a name; a new name comes last. -/
def setEntry (name : Text) (tree : FileTree) :
    List (Text × FileTree) → List (Text × FileTree)
  | [] => [(name, tree)]
  | (other, old) :: rest =>
    if other = name then (name, tree) :: rest else (other, old) :: setEntry name tree rest

/-- Puts a tree at a location. Whatever is missing on the way becomes a directory. -/
def put (tree new : FileTree) : List Text → FileTree
  | [] => new
  | name :: rest =>
    let old := (tree.entries.lookup name).getD empty
    .directory (setEntry name (old.put new rest) tree.entries)

/-- Removes what is at a location. -/
def erase (tree : FileTree) : List Text → FileTree
  | [] => empty
  | [name] => .directory (tree.entries.filter fun (other, _) => other != name)
  | name :: rest =>
    match tree.entries.lookup name with
    | none => tree
    | some old => .directory (setEntry name (old.erase rest) tree.entries)

end FileTree

/-- Why a file cannot be read. -/
inductive FileFault where
  | missing
  | notDirectory
  | isDirectory
  | tooManyLinks
  | nameTooLong
  | nulInName
  | notText
deriving DecidableEq, Repr

namespace FileFault

def detail : FileFault → Text
  | missing => "No such file or directory (os error 2)".toList
  | notDirectory => "Not a directory (os error 20)".toList
  | isDirectory => "Is a directory (os error 21)".toList
  | tooManyLinks => "Too many levels of symbolic links (os error 40)".toList
  | nameTooLong => "File name too long (os error 36)".toList
  | nulInName => "file name contained an unexpected NUL byte".toList
  | notText => "stream did not contain valid UTF-8".toList

end FileFault

/-- A disk as a program sees it that runs in some directory. -/
structure Disk where
  root : FileTree := .empty
  /-- The location of the current directory. -/
  current : List Text := []
deriving Inhabited

namespace Disk

/-- How many links a lookup may follow. -/
def maxLinks : Nat := 40

/-- How many bytes a name may have. -/
def maxName : Nat := 255

/-- How many bytes a path may have. -/
def maxPath : Nat := 4095

/-- Walks on from a location. The answer is a location without links. -/
def walk (root : FileTree) (links : Nat) (here : List Text) (ahead : List Text) :
    Except FileFault (List Text) :=
  match ahead with
  | [] => .ok here
  | name :: rest =>
    match root.at? here with
    | none => .error .missing
    | some (.directory entries) =>
      if name = [] ∨ name = Path.dot then walk root links here rest
      else if name = Path.dotDot then walk root links here.dropLast rest
      else if maxName < Text.byteLength name then .error .nameTooLong
      else
        match entries.lookup name with
        | none => .error .missing
        | some (.link target) =>
          match links with
          | 0 => .error .tooManyLinks
          | links + 1 =>
            walk root links (if Path.isAbsolute target then [] else here)
              (Path.segments target ++ rest)
        | some _ => walk root links (here ++ [name]) rest
    | some _ => .error .notDirectory
termination_by (links, ahead.length)

/-- The location that a path leads to. -/
def locate (disk : Disk) (path : Text) : Except FileFault (List Text) :=
  if path = [] then .error .missing
  else if path.contains '\x00' then .error .nulInName
  else if maxPath < Text.byteLength path then .error .nameTooLong
  else
    walk disk.root maxLinks (if Path.isAbsolute path then [] else disk.current) (Path.segments path)

/-- What a path leads to; never a link. -/
def find (disk : Disk) (path : Text) : Except FileFault FileTree := do
  let location ← disk.locate path
  match disk.root.at? location with
  | some tree => .ok tree
  | none => .error .missing

/-- The path of the current directory. -/
def currentPath (disk : Disk) : Text := Path.separator :: Path.ofSegments disk.current

def exists? (disk : Disk) (path : Text) : Bool := (disk.find path).toOption.isSome

def isFile (disk : Disk) (path : Text) : Bool := (disk.find path).toOption.any (·.isFile)

def isDirectory (disk : Disk) (path : Text) : Bool := (disk.find path).toOption.any (·.isDirectory)

/-- The names in a directory, in no particular order. -/
def names (disk : Disk) (path : Text) : List Text :=
  match disk.find path with
  | .ok tree => tree.entries.map (·.1)
  | .error _ => []

def readBytes (disk : Disk) (path : Text) : Except FileFault ByteArray := do
  match ← disk.find path with
  | .file content => .ok content
  | _ => .error .isDirectory

/-- The content of a file, which has to be UTF-8. -/
def readText (disk : Disk) (path : Text) : Except FileFault Text := do
  let content ← disk.readBytes path
  match String.fromUTF8? content with
  | some text => .ok text.toList
  | none => .error .notText

end Disk

end RootedGlob
