import RootedGlob.Text

/-!
# Glob patterns

A glob pattern is compiled to tokens. `?` stands for one character, `*` for any run of characters
within one path segment, and `**` for any number of whole segments; `**` has to fill a segment and
takes the separator behind it along. A class `[...]` stands for one of its members, and a class
`[!...]` for any other character. The first character of a class is always a member, also when it is
a closing bracket, and three characters with a hyphen in the middle are a range.
-/

namespace RootedGlob.Glob

/-- A member of a character class. A range whose ends are in the wrong order is empty. -/
inductive Member where
  | single (c : Char)
  | range (low high : Char)
deriving DecidableEq, Repr

inductive Token where
  | literal (c : Char)
  | anyChar
  | anyRun
  | anyDirectories
  | oneOf (members : List Member)
  | noneOf (members : List Member)
deriving DecidableEq, Repr

inductive Fault where
  | longWildcard
  | splitRecursion
  | invalidRange
deriving DecidableEq, Repr

namespace Fault

def detail : Fault → Text
  | longWildcard => "wildcards are either regular `*` or recursive `**`".toList
  | splitRecursion => "recursive wildcards must form a single path component".toList
  | invalidRange => "invalid range pattern".toList

end Fault

namespace Member

def holds (member : Member) (c : Char) : Bool :=
  match member with
  | single d => c == d
  | range low high => low ≤ c && c ≤ high

/-- Reads the members of a class. -/
def ofText : Text → List Member
  | low :: '-' :: high :: rest => range low high :: ofText rest
  | c :: rest => single c :: ofText rest
  | [] => []

end Member

/-- Reads a class from the text behind its opening bracket: the token, and the text behind the
class. The first member is passed over before the closing bracket is looked for. -/
def readClass? : Text → Option (Token × Text)
  | '!' :: first :: rest =>
    (Text.cutAt? ']' rest).map fun (body, later) => (.noneOf (Member.ofText (first :: body)), later)
  | ['!'] => none
  | first :: rest =>
    (Text.cutAt? ']' rest).map fun (body, later) => (.oneOf (Member.ofText (first :: body)), later)
  | [] => none

theorem length_of_readClass? {text later : Text} {token : Token}
    (found : readClass? text = some (token, later)) : later.length < text.length := by
  have shorter {body rest : Text} (cutAt : Text.cutAt? ']' rest = some (body, later)) :
      later.length < rest.length := by
    have := congrArg List.length (Text.eq_of_cutAt? cutAt)
    simp only [List.length_append, List.length_cons] at this
    omega
  unfold readClass? at found
  split at found
  · simp only [Option.map_eq_some_iff, Prod.exists, Prod.mk.injEq] at found
    obtain ⟨body, _, cutAt, _, rfl⟩ := found
    have := shorter cutAt
    simp only [List.length_cons]
    omega
  · simp at found
  · simp only [Option.map_eq_some_iff, Prod.exists, Prod.mk.injEq] at found
    obtain ⟨body, _, cutAt, _, rfl⟩ := found
    have := shorter cutAt
    simp only [List.length_cons]
    omega
  · simp at found

/-- Compiles a text. `before` is the character read last, and `repeats` says that the token written
last is a `**` behind another token: such a token is not written twice. -/
def compileFrom (before : Option Char) (repeats : Bool) (text : Text) :
    Except Fault (List Token) :=
  match text with
  | [] => .ok []
  | '*' :: '*' :: '*' :: _ => .error .longWildcard
  | '*' :: '*' :: rest =>
    if before = none ∨ before = some '/' then
      let written := if repeats then [] else [Token.anyDirectories]
      match rest with
      | [] => .ok written
      | '/' :: rest => (compileFrom (some '/') before.isSome rest).map (written ++ ·)
      | _ => .error .splitRecursion
    else .error .splitRecursion
  | '*' :: rest => (compileFrom (some '*') false rest).map (.anyRun :: ·)
  | '?' :: rest => (compileFrom (some '?') false rest).map (.anyChar :: ·)
  | '[' :: rest =>
    match _read : readClass? rest with
    | none => .error .invalidRange
    | some (token, later) => (compileFrom (some ']') false later).map (token :: ·)
  | c :: rest => (compileFrom (some c) false rest).map (.literal c :: ·)
termination_by text.length
decreasing_by
  all_goals simp only [List.length_cons]
  all_goals try omega
  have := length_of_readClass? ‹_›
  omega

/-- A compiled pattern with the text it was compiled from. -/
structure Pattern where
  text : Text
  tokens : List Token
deriving DecidableEq, Repr

def Pattern.compile (text : Text) : Except Fault Pattern :=
  (compileFrom none false text).map fun tokens => ⟨text, tokens⟩

end RootedGlob.Glob
