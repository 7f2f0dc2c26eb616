import RootedGlob.Text

/-!
# Lexical paths

Paths are texts in which only `/`, `.` and `..` have a meaning, so that every operation also
applies to glob patterns. A path is resolved by walking its segments with a stack: an empty or `.`
segment changes nothing, `..` drops the segment before it, and a `..` with nothing to drop is
forgotten at the root and kept in a relative path. No operation looks at a disk.
-/

namespace RootedGlob.Path

def separator : Char := '/'

/-- The segment that names the current directory. -/
def dot : Text := ['.']

/-- The segment that names the parent directory. -/
def dotDot : Text := ['.', '.']

def isAbsolute (path : Text) : Bool := path.head? == some separator

def endsWithSeparator (path : Text) : Bool := path.getLast? == some separator

/-- The texts between the separators, the empty ones included. -/
def segments (path : Text) : List Text := List.splitOn separator path

def ofSegments (names : List Text) : Text := [separator].intercalate names

/-- Walks one segment. The stack holds the segments of the location, the last one first. -/
def walk (absolute : Bool) (stack : List Text) (segment : Text) : List Text :=
  if segment = [] ∨ segment = dot then stack
  else if segment = dotDot then
    match stack with
    | top :: below => if top ≠ dotDot then below else if absolute then stack else dotDot :: stack
    | [] => if absolute then [] else [dotDot]
  else segment :: stack

/-- The segments of the location that a path denotes. -/
def resolve (path : Text) : List Text :=
  ((segments path).foldl (walk (isAbsolute path)) []).reverse

/-- The one spelling of a path without `.`, without inner `..` and without repeated separators.
A separator at the end survives; a relative path that resolves to nothing is `.`. -/
def normalize (path : Text) : Text :=
  if path = [] then dot
  else
    let body := ofSegments (resolve path)
    let named := if body = [] ∧ ¬ isAbsolute path then dot else body
    let closed := if named ≠ [] ∧ endsWithSeparator path then named ++ [separator] else named
    if isAbsolute path then separator :: closed else closed

/-- Joins the non-empty parts with separators and normalizes the result. Joining nothing is `.`. -/
def join (parts : List Text) : Text :=
  normalize (ofSegments (parts.filter (· ≠ [])))

/-- How many leading segments two locations share. -/
def commonLength : List Text → List Text → Nat
  | a :: as, b :: bs => if a = b then commonLength as bs + 1 else 0
  | _, _ => 0

/-- The path that leads from one location to another. Identical locations give the empty path. -/
def relative (start target : Text) : Text :=
  let a := resolve start
  let b := resolve target
  let common := commonLength a b
  ofSegments (List.replicate (a.length - common) dotDot ++ b.drop common)

/-- Drops the separators at the end. -/
def trimSeparators (path : Text) : Text := (path.reverse.dropWhile (· == separator)).reverse

/-- The last segment, separators at the end aside. -/
def basename (path : Text) : Text :=
  ((trimSeparators path).reverse.takeWhile (· != separator)).reverse

/-- Drops one separator at the end, unless the path is the root. -/
def dropTrailingSeparator (path : Text) : Text :=
  if 1 < path.length ∧ endsWithSeparator path then path.dropLast else path

end RootedGlob.Path
