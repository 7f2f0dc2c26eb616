import RootedGlob.Text

/-!
# Patterns of ignore files

The patterns of ignore files are matched against the bytes of a path that is relative to the
directory of the file. A star stops at a separator; two stars that fill a segment stand for any
number of directories at the start or in the middle of a pattern, and for everything below at its
end. Braces hold alternatives, the empty ones left out, and a backslash makes the next character
literal.

Bytes are written as the characters with the same code.
-/

namespace RootedGlob.Ignore

inductive Token where
  | literal (c : Char)
  /-- Any byte but a separator. -/
  | one
  /-- Any bytes but separators. -/
  | run
  /-- Any directories in front of the rest. -/
  | leading
  /-- Everything below. -/
  | trailing
  /-- Any directories between two segments. -/
  | between
  | oneOf (negated : Bool) (ranges : List (Char × Char))
  | anyOf (branches : List (List Token))
deriving Inhabited

/-- The bytes of the UTF-8 encoding, each as the character with its code. -/
def octets (text : Text) : Text :=
  (String.ofList text).toUTF8.toList.map fun byte => Char.ofNat byte.toNat

/-- Reads the inside of a class from behind its opening bracket and sign: its ranges, and the text
behind its end. `started` is the beginning of a range whose hyphen was read. -/
def readRanges? (fuel : Nat) (first : Bool) (ranges : List (Char × Char)) (started : Bool)
    (text : Text) : Option (List (Char × Char) × Text) :=
  match fuel, text with
  | fuel + 1, c :: rest =>
    if c = ']' ∧ ¬ first then
      some ((if started then ('-', '-') :: ranges else ranges).reverse, rest)
    else if c = '-' ∧ ¬ first ∧ ¬ started then readRanges? fuel false ranges true rest
    else
      match started, ranges with
      | true, (low, _) :: others =>
        if c < low then none else readRanges? fuel false ((low, c) :: others) false rest
      | _, ranges => readRanges? fuel false ((c, c) :: ranges) false rest
  | _, _ => none

/-- Reads a class from behind its opening bracket. -/
def readClass? (text : Text) : Option (Token × Text) :=
  let (negated, rest) :=
    match text with
    | '!' :: rest => (true, rest)
    | '^' :: rest => (true, rest)
    | rest => (false, rest)
  (readRanges? (rest.length + 1) true [] false rest).map fun (ranges, later) =>
    (.oneOf negated ranges, later)

/-- A pair of braces that is still open: the tokens before it, and its finished branches, both the
last one first. -/
structure OpenBrace where
  before : List Token
  branches : List (List Token)

/-- What two stars stand for, given the tokens of the branch, the last one first, the character
before them and the text behind them. -/
def readStars (done : List Token) (previous : Option Char) (inBraces : Bool) (rest : Text) :
    List Token × Text :=
  let plain := (Token.run :: .run :: done, rest)
  match done with
  | [] =>
    match rest with
    | [] => ([.leading], [])
    | '/' :: later => ([.leading], later)
    | _ => plain
  | top :: below =>
    if previous ≠ some '/' then plain
    else
      let replaced (token : Token) : List Token :=
        match top with
        | .leading => .leading :: below
        | .trailing => .trailing :: below
        | _ => token :: below
      match rest with
      | [] => (replaced .trailing, [])
      | '/' :: later => (replaced .between, later)
      | c :: _ => if inBraces ∧ (c = ',' ∨ c = '}') then (replaced .trailing, rest) else plain

/-- Reads tokens. `done` holds those of the current branch, the last one first. -/
def readTokens? (fuel : Nat) (braces : List OpenBrace) (done : List Token) (previous : Option Char)
    (text : Text) : Option (List Token) :=
  match fuel, text with
  | _ + 1, [] => if braces.isEmpty then some done.reverse else none
  | fuel + 1, c :: rest =>
    match c with
    | '?' => readTokens? fuel braces (.one :: done) (some c) rest
    | '*' =>
      match rest with
      | '*' :: behind =>
        let (done, later) := readStars done previous (!braces.isEmpty) behind
        let last := if later.length < behind.length then '/' else '*'
        readTokens? fuel braces done (some last) later
      | rest => readTokens? fuel braces (.run :: done) (some c) rest
    | '[' =>
      (readClass? rest).bind fun (token, later) =>
        readTokens? fuel braces (token :: done) (some ']') later
    | '{' => readTokens? fuel (⟨done, []⟩ :: braces) [] (some c) rest
    | '}' =>
      match braces with
      | [] => none
      | brace :: braces =>
        let branches := (done.reverse :: brace.branches).reverse.filter (!·.isEmpty)
        let done := if branches.isEmpty then brace.before else .anyOf branches :: brace.before
        readTokens? fuel braces done (some c) rest
    | ',' =>
      match braces with
      | [] => readTokens? fuel [] (.literal c :: done) (some c) rest
      | brace :: braces =>
        readTokens? fuel ({ brace with branches := done.reverse :: brace.branches } :: braces) []
          (some c) rest
    | '\\' =>
      match rest with
      | [] => none
      | d :: later => readTokens? fuel braces (.literal d :: done) (some d) later
    | c => readTokens? fuel braces (.literal c :: done) (some c) rest
  | _, _ => none

/-- Compiles a pattern. -/
def compile? (pattern : Text) : Option (List Token) :=
  let bytes := octets pattern
  readTokens? (bytes.length + 1) [] [] none bytes

/-- Tries to continue behind any text without separators. -/
def behindRun (continues : Text → Bool) : Text → Bool
  | [] => continues []
  | c :: rest => continues (c :: rest) || c != '/' && behindRun continues rest

/-- Tries to continue behind any separator. -/
def behindSeparator (continues : Text → Bool) : Text → Bool
  | [] => false
  | c :: rest => c == '/' && continues rest || behindSeparator continues rest

/-- Tries to continue behind any text. -/
def behindAny (continues : Text → Bool) : Text → Bool
  | [] => continues []
  | c :: rest => continues (c :: rest) || behindAny continues rest

def inRanges (ranges : List (Char × Char)) (c : Char) : Bool :=
  ranges.any fun (low, high) => low ≤ c && c ≤ high

mutual

/-- Matches the beginning of a text against tokens and lets `continues` decide on the rest. -/
def matchTokens (continues : Text → Bool) : List Token → Text → Bool
  | [], text => continues text
  | token :: tokens, text => matchToken (matchTokens continues tokens) token text

def matchToken (continues : Text → Bool) : Token → Text → Bool
  | .literal c, text => text.head? == some c && continues (text.drop 1)
  | .one, text => text.head?.any (· != '/') && continues (text.drop 1)
  | .run, text => behindRun continues text
  | .leading, text => continues text || behindSeparator continues text
  | .trailing, text => text.head? == some '/' && behindAny continues (text.drop 1)
  | .between, text =>
    text.head? == some '/' && (continues (text.drop 1) || behindSeparator continues (text.drop 1))
  | .oneOf negated ranges, text =>
    text.head?.any (fun c => inRanges ranges c != negated) && continues (text.drop 1)
  | .anyOf branches, text => matchBranches continues branches text

def matchBranches (continues : Text → Bool) : List (List Token) → Text → Bool
  | [], _ => false
  | branch :: branches, text =>
    matchTokens continues branch text || matchBranches continues branches text

end

/-- Whether tokens match a whole path. A pattern of nothing but leading directories matches all. -/
def isMatch (tokens : List Token) (path : Text) : Bool :=
  match tokens with
  | [.leading] => true
  | tokens => matchTokens List.isEmpty tokens (octets path)

end RootedGlob.Ignore
