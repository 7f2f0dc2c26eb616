import RootedGlob.Anchoring
import RootedGlob.Workspace.Folders

/-!
# Search scopes

What a user typed into a search panel becomes a scope: a combined glob of the files to search, and
perhaps one of the files to leave out. Without a pattern, or with a blank one, every folder is
searched and nothing is left out. There is no scope without folders, or without anything to find.
-/

namespace RootedGlob

/-- The fields of a search panel. -/
structure Query where
  find : Option Text := none
  replace : Option Text := none
  included : Option Text := none
  excluded : Option Text := none
deriving DecidableEq, Repr

namespace Query

/-- Whether a search for `later` may give another answer than one for `earlier`. -/
def differs (earlier later : Query) : Bool := earlier != later

end Query

/-- The combined globs of a search. -/
structure Scope where
  included : Text
  excluded : Option Text := none
deriving DecidableEq, Repr

namespace Scope

/-- The combined glob of a field, unless the field holds no pattern. -/
def anchored? (folders : Folders) (field : Option Text) : Option Text :=
  (field.map (Anchoring.anchor folders.paths)).filter (· ≠ [])

/-- The scope of two fields over some folders. -/
def ofFields (folders : Folders) (included excluded : Option Text) : Scope where
  included := (anchored? folders included).getD (Brace.alternation folders.paths)
  excluded := anchored? folders excluded

end Scope

/-- Whether a search can run. -/
inductive Resolution where
  | noFolders
  | nothingToFind
  | ready (scope : Scope)
deriving DecidableEq, Repr

namespace Resolution

def scope? : Resolution → Option Scope
  | ready scope => some scope
  | _ => none

def isBlankField (field : Option Text) : Bool := field.all Text.isBlankText

/-- Decides whether a search can run, and over which files. -/
def ofQuery (folders : Folders) (query : Query) : Resolution :=
  if folders.isEmpty then .noFolders
  else if isBlankField query.find then .nothingToFind
  else .ready (Scope.ofFields folders query.included query.excluded)

end Resolution

end RootedGlob
