import RootedGlob.Brace.Expansion
import RootedGlob.Glob.Match
import RootedGlob.Path.Ancestors

/-!
# Combined globs

A combined glob is a pattern with groups. It is expanded, every expansion is normalized as a path
and compiled, and expansions that come to the same text are kept once. A path is selected if one of
the compiled alternatives matches it or one of its ancestors, so a pattern that matches a directory
selects everything below. A blank combined glob has no alternatives and selects nothing.
-/

namespace RootedGlob.Glob

inductive PatternError where
  | expansion (cause : Brace.ExpansionError)
  /-- An expansion does not compile. -/
  | uncompilable (alternative : Text) (fault : Fault)
deriving DecidableEq, Repr

namespace PatternError

def detail : PatternError → Text
  | expansion cause => cause.detail
  | uncompilable alternative fault => alternative ++ ": ".toList ++ fault.detail

end PatternError

/-- The characters that a glob pattern reads as itself only inside a class. -/
def isSpecial (c : Char) : Bool := c == '*' || c == '?' || c == '[' || c == ']'

/-- Replaces every escape by a text that stands for the escaped character: a class of its own for a
special character, the bare character otherwise. A backslash at the end stays. -/
def unescape : Text → Text
  | [] => []
  | ['\\'] => ['\\']
  | '\\' :: c :: rest =>
    if isSpecial c then '[' :: c :: ']' :: unescape rest else c :: unescape rest
  | c :: rest => c :: unescape rest

/-- The text that an expansion is compiled from. -/
def plainText (alternative : Text) : Text :=
  unescape (Path.dropTrailingSeparator (Path.normalize alternative))

def compileAlternative (alternative : Text) : Except PatternError Pattern :=
  (Pattern.compile (plainText alternative)).mapError (.uncompilable alternative)

/-- A combined glob with its compiled alternatives. -/
structure Combined where
  source : Text := []
  patterns : List Pattern := []
deriving DecidableEq, Repr

namespace Combined

/-- Compiles a combined glob. -/
def compile (source : Text) : Except PatternError Combined := do
  if Text.isBlankText source then return { source }
  let expansions ← (Brace.expand source).mapError .expansion
  let patterns ← expansions.mapM compileAlternative
  return { source, patterns := patterns.eraseDupsBy fun a b => a.text == b.text }

/-- The texts of the compiled alternatives, in the order of expansion. -/
def alternatives (glob : Combined) : List Text := glob.patterns.map (·.text)

def isEmpty (glob : Combined) : Bool := glob.patterns.isEmpty

/-- Whether an alternative matches the text itself. -/
def matchesText (glob : Combined) (text : Text) : Bool := glob.patterns.any (·.isMatch text)

/-- Whether an alternative matches the path or one of its ancestors. -/
def isMatch (glob : Combined) (path : Text) : Bool :=
  (Path.ancestors path).any fun ancestor =>
    ancestor != [] && glob.matchesText (Text.slashed ancestor)

end Combined

end RootedGlob.Glob
