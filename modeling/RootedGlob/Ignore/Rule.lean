import RootedGlob.Ignore.Pattern
import RootedGlob.Path

/-!
# Rules of ignore files

A line of an ignore file is a rule, unless it is blank or a comment. A rule ignores the paths that
its pattern matches, or takes them back in if the line starts with an exclamation mark. A pattern
with a separator in it, one at its end aside, is matched against the whole path below the directory
of the file; any other pattern is matched against the last names of the path. A separator at the end
restricts the rule to directories. Of all rules of a file that match, the last one decides.
-/

namespace RootedGlob.Ignore

inductive Verdict where
  | ignored
  | included
deriving DecidableEq, Repr

structure Rule where
  verdict : Verdict
  directoriesOnly : Bool
  tokens : List Token

/-- Removes the separator at the end of a pattern; says whether there was one. -/
def dropDirectoryMark (pattern : Text) : Bool × Text :=
  match pattern.reverse with
  | '/' :: '\\' :: rest => (true, rest.reverse)
  | '/' :: rest => (true, rest.reverse)
  | _ => (false, pattern)

/-- The pattern to be matched against the path below the directory of the file. -/
def rootedPattern (anchored : Bool) (pattern : Text) : Text :=
  let anyDepth := "**/".toList
  let rooted :=
    if anchored ∨ pattern.contains '/' ∨ pattern = "**".toList then pattern
    else anyDepth ++ pattern
  -- Two stars at the end stand for what is below the directory, not for the directory itself.
  if "**/".toList.isPrefixOf rooted.reverse then rooted ++ "/*".toList else rooted

/-- Cuts the marks at the start of a line: its verdict, whether its pattern is anchored, and the
pattern. -/
def readMarks (line : Text) : Verdict × Bool × Text :=
  let anchor (verdict : Verdict) (pattern : Text) : Verdict × Bool × Text :=
    match pattern with
    | '/' :: rest => (verdict, true, rest)
    | pattern => (verdict, false, pattern)
  match line with
  | '\\' :: '!' :: rest => (.ignored, false, '!' :: rest)
  | '\\' :: '#' :: rest => (.ignored, false, '#' :: rest)
  | '!' :: rest => anchor .included rest
  | line => anchor .ignored line

/-- The rule of a line, if it has a valid one. -/
def Rule.ofLine? (line : Text) : Option Rule :=
  let trimmed := if [' ', '\\'].isPrefixOf line.reverse then line else Text.trimEnd line
  if line.head? = some '#' ∨ trimmed = [] then none
  else
    let (verdict, anchored, marked) := readMarks trimmed
    let (directoriesOnly, pattern) := dropDirectoryMark marked
    (compile? (rootedPattern anchored pattern)).map fun tokens =>
      { verdict, directoriesOnly, tokens }

/-- The lines of a file up to the first one that is no UTF-8, without a byte order mark. -/
def linesOf (content : ByteArray) : List Text :=
  let lines := List.splitOn 10 content.toList
  let decoded := lines.map fun line => String.fromUTF8? ⟨line.toArray⟩
  let texts := (decoded.takeWhile (·.isSome)).map fun line => (line.getD "").toList
  match texts with
  | first :: rest => first.dropWhile (· == '\uFEFF') :: rest
  | [] => []

def rulesOf (content : ByteArray) : List Rule := (linesOf content).filterMap Rule.ofLine?

/-- The rules of a file, and where the file is: its directory is the ancestor of the walked folder
with the names `lead` below it, or lies `depth` names below that folder. -/
structure RuleSet where
  lead : List Text := []
  depth : Nat := 0
  rules : List Rule

/-- What a file says about an entry, which is given by its names below the walked folder. -/
def RuleSet.verdict? (set : RuleSet) (names : List Text) (directory : Bool) : Option Verdict :=
  let path := Path.ofSegments (set.lead ++ names.drop set.depth)
  (set.rules.reverse.find? fun rule =>
    (directory || !rule.directoriesOnly) && isMatch rule.tokens path).map (·.verdict)

end RootedGlob.Ignore
