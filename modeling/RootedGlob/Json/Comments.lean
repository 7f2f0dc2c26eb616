import RootedGlob.Text

/-!
# JSON with comments

Editors write JSON with comments, from `//` to the end of the line or between `/*` and `*/`, and
with a comma behind the last item of a container. Removing both leaves plain JSON. The text is read
one character at a time; the text kept so far is at hand backwards, because a closing bracket takes
back the comma before it together with the blanks between them.
-/

namespace RootedGlob.Json

/-- What the character to be read belongs to. -/
inductive Zone where
  | plain
  /-- A slash was read that may start a comment. -/
  | slash
  | string
  /-- A backslash was read inside a string. -/
  | escape
  | lineComment
  /-- Inside a block comment; says whether the character read last was a star. -/
  | blockComment (star : Bool)
deriving DecidableEq, Repr

/-- Takes back a comma at the end of the text kept so far, with the blanks behind it. -/
def dropTrailingComma (kept : Text) : Text :=
  match kept.dropWhile Text.isBlank with
  | ',' :: rest => rest
  | _ => kept

/-- The text kept so far, backwards, and where its end is. -/
structure Stripper where
  zone : Zone := .plain
  kept : Text := []
deriving DecidableEq, Repr

namespace Stripper

/-- Reads a character outside strings and comments. -/
def readPlain (kept : Text) (c : Char) : Stripper :=
  match c with
  | '"' => ⟨.string, c :: kept⟩
  | '/' => ⟨.slash, kept⟩
  | '}' => ⟨.plain, c :: dropTrailingComma kept⟩
  | ']' => ⟨.plain, c :: dropTrailingComma kept⟩
  | c => ⟨.plain, c :: kept⟩

/-- Reads a character. -/
def read (stripper : Stripper) (c : Char) : Stripper :=
  let kept := stripper.kept
  match stripper.zone with
  | .plain => readPlain kept c
  | .slash =>
    if c = '/' then ⟨.lineComment, kept⟩
    else if c = '*' then ⟨.blockComment false, kept⟩
    else readPlain ('/' :: kept) c
  | .string =>
    if c = '\\' then ⟨.escape, c :: kept⟩
    else if c = '"' then ⟨.plain, c :: kept⟩
    else ⟨.string, c :: kept⟩
  | .escape => ⟨.string, c :: kept⟩
  | .lineComment => if c = '\n' then ⟨.plain, c :: kept⟩ else ⟨.lineComment, kept⟩
  | .blockComment star =>
    if star ∧ c = '/' then ⟨.plain, kept⟩ else ⟨.blockComment (c == '*'), kept⟩

/-- The text kept at the end of the input. -/
def finish (stripper : Stripper) : Text :=
  match stripper.zone with
  | .slash => ('/' :: stripper.kept).reverse
  | _ => stripper.kept.reverse

end Stripper

/-- Removes comments and trailing commas. -/
def stripComments (text : Text) : Text := (text.foldl Stripper.read {}).finish

end RootedGlob.Json
