import RootedGlob.Environment
import RootedGlob.Ignore.Rule

/-!
# Ignore files

While a folder is walked, each directory may hold ignore files of three kinds, and so may the
directories above the folder; one more file holds for all of them. For each kind the files that are
nearest to an entry are asked first, and the first verdict counts. The kinds are asked in a fixed
order, so a verdict of one kind stands against all files of the later ones.
-/

namespace RootedGlob.Ignore

/-- The rules that hold for the entries of a directory; for each kind the nearest file first. -/
structure Rules where
  plain : List RuleSet := []
  repository : List RuleSet := []
  excluded : List RuleSet := []
  everywhere : List RuleSet := []

namespace Rules

/-- What the rules say about an entry. -/
def verdict? (rules : Rules) (names : List Text) (directory : Bool) : Option Verdict :=
  let ask (sets : List RuleSet) := sets.findSome? (·.verdict? names directory)
  (ask rules.plain).or ((ask rules.repository).or ((ask rules.excluded).or (ask rules.everywhere)))

/-- The rules of one file, if it can be read. -/
def fileRules (disk : Disk) (path : Text) (lead : List Text) (depth : Nat) : List RuleSet :=
  match disk.readBytes path with
  | .ok content => [{ lead, depth, rules := rulesOf content }]
  | .error _ => []

/-- Adds the ignore files of a directory, which is nearer than all before. -/
def enter (rules : Rules) (disk : Disk) (directory : Text) (lead : List Text) (depth : Nat) :
    Rules :=
  let read (name : String) := fileRules disk (Path.under directory name.toList) lead depth
  { rules with
    plain := read ".ignore" ++ rules.plain
    repository := read ".gitignore" ++ rules.repository
    excluded := read ".git/info/exclude" ++ rules.excluded }

/-- The file whose rules hold everywhere. -/
def globalFile? (env : Environment) : Option Text :=
  ((env.configHome.filter (· ≠ [])).or env.homeConfig?).map fun directory =>
    Path.under directory "git/ignore".toList

/-- The rules that hold for a whole folder, given the names of its location: those of the
directories above it, and those that hold everywhere. -/
def above (env : Environment) (location : List Text) : Rules :=
  let global :=
    match globalFile? env with
    | some path => if env.disk.isFile path then fileRules env.disk path location 0 else []
    | none => []
  let parent (rules : Rules) (depth : Nat) : Rules :=
    let directory := Path.separator :: Path.ofSegments (location.take depth)
    rules.enter env.disk directory (location.drop depth) 0
  (List.range location.length).foldl parent { everywhere := global }

end Rules

end RootedGlob.Ignore
