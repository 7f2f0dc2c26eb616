import RootedGlob.Glob.Pattern

/-!
# Matching a text against a glob pattern

A pattern is matched from the left, trying the shortest text for each wildcard first. Besides
success and failure there is a third answer: the text ended where the tokens still asked for a character.
A longer text for a wildcard further left cannot help then, so that answer ends the search.
-/

namespace RootedGlob.Glob

inductive Outcome where
  | matched
  /-- The text differs from the pattern; a wildcard further left may still take more of it. -/
  | differs
  /-- The text ends too early, whatever the wildcards take. -/
  | tooShort
deriving DecidableEq, Repr

/-- Whether a token that stands for one character can stand for `c`. Only a literal separator
stands for a separator. -/
def Token.fits (token : Token) (c : Char) : Bool :=
  match token with
  | .literal d => c == d
  | .anyChar => c != '/'
  | .oneOf members => c != '/' && members.any (·.holds c)
  | .noneOf members => c != '/' && !members.any (·.holds c)
  | .anyRun => false
  | .anyDirectories => false

/-- Tries to continue behind every text without separators, the shortest first. -/
def behindRun (continue? : Text → Outcome) : Text → Outcome
  | [] => continue? []
  | c :: rest =>
    match continue? (c :: rest) with
    | .differs => if c = '/' then .differs else behindRun continue? rest
    | outcome => outcome

/-- Tries to continue here, if this is the start of a segment, behind every further separator, and
at the end of the text. -/
def behindDirectories (continue? : Text → Outcome) : Bool → Text → Outcome
  | _, [] => continue? []
  | atStart, c :: rest =>
    match if atStart then continue? (c :: rest) else .differs with
    | .differs => behindDirectories continue? (c == '/') rest
    | outcome => outcome

/-- Matches a whole text against tokens. -/
def run : List Token → Text → Outcome
  | [], [] => .matched
  | [], _ :: _ => .differs
  | .anyRun :: tokens, text => behindRun (run tokens) text
  | .anyDirectories :: tokens, text => behindDirectories (run tokens) true text
  | _ :: _, [] => .tooShort
  | token :: tokens, c :: rest => if token.fits c then run tokens rest else .differs

def Pattern.isMatch (pattern : Pattern) (text : Text) : Bool := run pattern.tokens text = .matched

end RootedGlob.Glob
