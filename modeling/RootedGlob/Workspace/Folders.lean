import RootedGlob.Error

/-!
# Workspace folders

The folders of a workspace are absolute, normalized paths in a fixed order. Backslashes are read as
separators, and a path that starts with a drive letter is put below the root. The order matters
where two folders have one name, and where a file lies in several folders of one length: the last
one wins. In all other cases the longest folder around a file is the innermost one.
-/

namespace RootedGlob

structure Folders where
  paths : List Text := []
deriving DecidableEq, Repr, Inhabited

namespace Folders

/-- Whether a path starts with a drive letter, as in `C:/`. -/
def hasDrive : Text → Bool
  | letter :: ':' :: '/' :: _ => letter.isAlpha
  | _ => false

/-- The normal form of a folder. -/
def normalizeFolder (folder : Text) : Except Error Text :=
  let slashed := Text.slashed folder
  let rooted := if hasDrive slashed then Path.separator :: slashed else slashed
  if Path.isAbsolute rooted then .ok (Path.dropTrailingSeparator (Path.normalize rooted))
  else .error (.relativeFolder rooted)

/-- Builds the folders of a workspace from paths, all of which have to be absolute. -/
def ofPaths (paths : List Text) : Except Error Folders :=
  (paths.mapM normalizeFolder).map fun paths => ⟨paths⟩

def size (folders : Folders) : Nat := folders.paths.length

def isEmpty (folders : Folders) : Bool := folders.paths.isEmpty

/-- The last folder with a given name. -/
def named? (folders : Folders) (name : Text) : Option Text :=
  folders.paths.reverse.find? fun folder => Path.basename folder == name

/-- Whether a folder is a path or lies above it. -/
def covers (folder file : Text) : Bool :=
  folder == [Path.separator] || file == folder ||
    ((Text.after? folder file).bind (·.head?)) == some Path.separator

/-- Of two folders the longer one, and the later one of two with the same length. -/
def longer (best : Option Text) (folder : Text) : Option Text :=
  match best with
  | none => some folder
  | some other =>
    if Text.byteLength folder < Text.byteLength other then some other else some folder

/-- The innermost folder around a file. -/
def around? (folders : Folders) (file : Text) : Option Text :=
  let file := Text.slashed file
  (folders.paths.filter (covers · file)).foldl longer none

end Folders

end RootedGlob
