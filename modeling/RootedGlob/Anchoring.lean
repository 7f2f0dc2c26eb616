import RootedGlob.Brace.Expansion
import RootedGlob.Path
import RootedGlob.PatternList

/-!
# Anchoring a pattern list

A pattern list is written against several folders at once. Anchoring turns it into one combined
glob over absolute paths. An absolute token stays as it is. A token whose first segment is the name
of a folder moves below that folder, the last one of that name. Any other token applies to every
folder, at any depth unless it starts with a dot. The alternatives of the result are the absolute
tokens, then one for each folder that a token names, in the order of first mention, then one for
the remaining tokens over all folders.
-/

namespace RootedGlob.Anchoring

/-- Where a token belongs. -/
inductive Placement where
  | absolute
  /-- Below a folder that the token names. -/
  | inside (folder : Text) (pattern : Text)
  /-- Below every folder. -/
  | anywhere (pattern : Text)
deriving DecidableEq, Repr

/-- The segment of any number of directories. -/
def anyDepth : Text := ['*', '*']

/-- Enters a folder into a table under its name. An earlier folder of this name loses its place. -/
def enterName (table : List (Text × Text)) (folder : Text) : List (Text × Text) :=
  (Path.basename folder, folder) :: table.filter fun (name, _) => name != Path.basename folder

/-- The folders by their names. -/
def nameTable (folders : List Text) : List (Text × Text) := folders.foldl enterName []

/-- The folder that the table of names has under a name. -/
def folderNamed? (folders : List Text) (name : Text) : Option Text := (nameTable folders).lookup name

/-- The text up to the first separator. -/
def firstSegment (token : Text) : Text := token.takeWhile (· != Path.separator)

def place (folders : List Text) (token : Text) : Placement :=
  if Path.isAbsolute token then .absolute
  else
    match folderNamed? folders (firstSegment token) with
    | some folder => .inside folder (Path.relative (firstSegment token) token)
    | none =>
      if token.head? = some '.' then .anywhere token
      else .anywhere (Path.join [anyDepth, token])

/-- Adds a pattern to those of its folder; a folder that has none yet comes last. -/
def addInside (folder pattern : Text) : List (Text × List Text) → List (Text × List Text)
  | [] => [(folder, [pattern])]
  | (other, patterns) :: rest =>
    if other = folder then (other, patterns ++ [pattern]) :: rest
    else (other, patterns) :: addInside folder pattern rest

/-- The placed tokens of a pattern list, each kind in its order. -/
structure Plan where
  absolute : List Text := []
  inside : List (Text × List Text) := []
  anywhere : List Text := []
deriving DecidableEq, Repr

namespace Plan

def add (folders : List Text) (plan : Plan) (token : Text) : Plan :=
  match place folders token with
  | .absolute => { plan with absolute := plan.absolute ++ [token] }
  | .inside folder pattern => { plan with inside := addInside folder pattern plan.inside }
  | .anywhere pattern => { plan with anywhere := plan.anywhere ++ [pattern] }

def ofTokens (folders : List Text) (tokens : List Text) : Plan := tokens.foldl (add folders) {}

/-- The alternatives of the combined glob. -/
def alternatives (folders : List Text) (plan : Plan) : List Text :=
  plan.absolute
    ++ plan.inside.map (fun (folder, patterns) => Path.join [folder, Brace.alternation patterns])
    ++ if plan.anywhere = [] then []
      else [Path.join [Brace.alternation folders, Brace.alternation plan.anywhere]]

end Plan

/-- The combined glob that a pattern list stands for over some folders. -/
def anchor (folders : List Text) (list : Text) : Text :=
  Brace.alternation ((Plan.ofTokens folders (PatternList.tokens list)).alternatives folders)

end RootedGlob.Anchoring
