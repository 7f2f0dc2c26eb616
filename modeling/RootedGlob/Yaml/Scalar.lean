import RootedGlob.Value

/-!
# YAML scalars

The text of a scalar may go over several lines. A gap inside it that holds a line break is folded:
one break becomes a space, and of several breaks all but one are kept. Double quotes know escapes;
an escaped line break joins two lines. What a plain scalar stands for is decided by its text.
-/

namespace RootedGlob.Yaml

def isSpace (c : Char) : Bool := c == ' ' || c == '\t'

def isBreak (c : Char) : Bool := c == '\n'

def isGap (c : Char) : Bool := isSpace c || isBreak c

/-- Writes every line break as one line feed. -/
def unifyBreaks : Text → Text
  | '\r' :: '\n' :: rest => '\n' :: unifyBreaks rest
  | '\r' :: rest => '\n' :: unifyBreaks rest
  | c :: rest => c :: unifyBreaks rest
  | [] => []

/-- A part of a scalar. -/
inductive Piece where
  /-- A character that stands for itself, even if it is a space. -/
  | fixed (c : Char)
  /-- A space or a line break that may be folded. -/
  | gap (c : Char)
  /-- An escaped line break. -/
  | joint
deriving DecidableEq, Repr

/-- The text that a gap with `breaks` line breaks stands for. -/
def foldGap (spaces : Text) (breaks : Nat) (joined : Bool) : Text :=
  if joined then List.replicate breaks '\n'
  else
    match breaks with
    | 0 => spaces.reverse
    | 1 => [' ']
    | breaks + 1 => List.replicate breaks '\n'

/-- Folds the gaps of a scalar. A gap read so far is given by its spaces, the last one first, the
number of its breaks, and whether it started with an escaped break. -/
def foldPieces (spaces : Text) (breaks : Nat) (joined : Bool) : List Piece → Text
  | [] => foldGap spaces breaks joined
  | .fixed c :: rest => foldGap spaces breaks joined ++ c :: foldPieces [] 0 false rest
  | .joint :: rest => foldGap spaces breaks joined ++ foldPieces [] 0 true rest
  | .gap c :: rest =>
    if isBreak c then foldPieces [] (breaks + 1) joined rest
    else if 0 < breaks ∨ joined then foldPieces spaces breaks joined rest
    else foldPieces (c :: spaces) breaks joined rest

/-- The text of a scalar. -/
def fold (pieces : List Piece) : Text := foldPieces [] 0 false pieces

def pieceOf (c : Char) : Piece := if isGap c then .gap c else .fixed c

/-- The pieces of a single-quoted scalar, and the text behind its closing quote. -/
def readSingle? : Text → Option (List Piece × Text)
  | [] => none
  | '\'' :: '\'' :: rest =>
    (readSingle? rest).map fun (pieces, later) => (.fixed '\'' :: pieces, later)
  | '\'' :: rest => some ([], rest)
  | c :: rest => (readSingle? rest).map fun (pieces, later) => (pieceOf c :: pieces, later)

/-- The character that an escape of one character stands for. -/
def escape? (c : Char) : Option Char :=
  match c with
  | '0' => some '\x00'
  | 'a' => some '\x07'
  | 'b' => some '\x08'
  | 't' => some '\t'
  | '\t' => some '\t'
  | 'n' => some '\n'
  | 'v' => some '\x0b'
  | 'f' => some '\x0c'
  | 'r' => some '\r'
  | 'e' => some '\x1b'
  | ' ' => some ' '
  | '"' => some '"'
  | '\'' => some '\''
  | '\\' => some '\\'
  | 'N' => some '\u0085'
  | '_' => some '\u00a0'
  | 'L' => some '\u2028'
  | 'P' => some '\u2029'
  | _ => none

/-- How many hexadecimal digits follow the letter of a code point escape. -/
def codeLength? (c : Char) : Option Nat :=
  match c with
  | 'x' => some 2
  | 'u' => some 4
  | 'U' => some 8
  | _ => none

def hexDigit? (c : Char) : Option Nat :=
  if c.isDigit then some (c.toNat - '0'.toNat)
  else if 'a' ≤ c ∧ c ≤ 'f' then some (c.toNat - 'a'.toNat + 10)
  else if 'A' ≤ c ∧ c ≤ 'F' then some (c.toNat - 'A'.toNat + 10)
  else none

/-- The character whose code point some hexadecimal digits name. -/
def codePoint? (digits : Text) : Option Char := do
  let values ← digits.mapM hexDigit?
  let code := values.foldl (fun code digit => code * 16 + digit) 0
  if code.isValidChar then some (Char.ofNat code) else none

/-- The pieces of a double-quoted scalar, and the text behind its closing quote. `pending` counts
the characters of a code point escape that are still to be passed over. -/
def readDouble? (pending : Nat) : Text → Option (List Piece × Text)
  | [] => none
  | c :: rest =>
    if 0 < pending then readDouble? (pending - 1) rest
    else if c = '"' then some ([], rest)
    else if c = '\\' then
      match rest with
      | [] => none
      | mark :: later =>
        let put (piece : Piece) (found : Option (List Piece × Text)) :=
          found.map fun (pieces, later) => (piece :: pieces, later)
        if isBreak mark then put .joint (readDouble? 0 later)
        else
          match escape? mark with
          | some d => put (.fixed d) (readDouble? 0 later)
          | none =>
            match codeLength? mark with
            | none => none
            | some length =>
              if later.length < length then none
              else
                match codePoint? (later.take length) with
                | none => none
                | some d => put (.fixed d) (readDouble? length later)
    else (readDouble? 0 rest).map fun (pieces, later) => (pieceOf c :: pieces, later)

/-- A number given by its sign and size, if 64 bits can hold it. -/
def signed? (negative : Bool) (size : Nat) : Option Int :=
  let value : Int := if negative then -size else size
  if Int64.minValue.toInt ≤ value ∧ value ≤ Int64.maxValue.toInt then some value else none

/-- Reads a whole number with an optional sign, within 64 bits. -/
def integer? (text : Text) : Option Int :=
  let (negative, digits) := Decimal.spanSign text
  if digits ≠ [] ∧ digits.all Char.isDigit then signed? negative (Decimal.natural digits) else none

/-- Reads the digits of a number in base 16 or 8, within 64 bits. -/
def inBase? (base : Nat) (text : Text) : Option Int := do
  let (negative, digits) := Decimal.spanSign text
  if digits = [] then none
  let values ← digits.mapM hexDigit?
  if values.any (base ≤ ·) then none
  signed? negative (values.foldl (fun size digit => size * base + digit) 0)

/-- The whole number that a plain scalar writes. A plus may stand in front of any whole number, also
of one with a sign. -/
def plainInteger? (text : Text) : Option Int :=
  let based :=
    match text with
    | '0' :: 'x' :: digits => inBase? 16 digits
    | '0' :: 'o' :: digits => inBase? 8 digits
    | '+' :: signed => integer? signed
    | _ => none
  based.or (integer? text)

/-- The value of a plain scalar. -/
def plainValue (text : Text) : Value :=
  if text = "~".toList ∨ text = "null".toList then .null
  else if text = "true".toList then .bool true
  else if text = "false".toList then .bool false
  else
    match plainInteger? text with
    | some value => .integer value
    | none =>
      match Decimal.read? text with
      | some value => .decimal value
      | none => .text text

end RootedGlob.Yaml
