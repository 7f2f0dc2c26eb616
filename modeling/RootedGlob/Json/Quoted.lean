import RootedGlob.Json

/-!
# Text inside JSON strings

The characters that a JSON string stands for, and the way a text is written as one. An escape that
names half of a surrogate pair stands for no character, so such a string holds no text. Writing
escapes quotes, backslashes and control characters only.
-/

namespace RootedGlob.Json

/-- The value of a hexadecimal digit. -/
def hexValue (c : Char) : Nat :=
  if c.isDigit then c.toNat - '0'.toNat
  else if 'a' ≤ c then c.toNat - 'a'.toNat + 10
  else c.toNat - 'A'.toNat + 10

/-- The code unit that four hexadecimal digits name. -/
def codeUnit (a b c d : Char) : Nat :=
  ((hexValue a * 16 + hexValue b) * 16 + hexValue c) * 16 + hexValue d

def isHighSurrogate (unit : Nat) : Bool := 0xD800 ≤ unit && unit ≤ 0xDBFF

def isLowSurrogate (unit : Nat) : Bool := 0xDC00 ≤ unit && unit ≤ 0xDFFF

/-- The character that a short escape stands for. -/
def shortEscape (c : Char) : Char :=
  match c with
  | 'b' => '\x08'
  | 'f' => '\x0C'
  | 'n' => '\n'
  | 'r' => '\r'
  | 't' => '\t'
  | c => c

/-- The text that a string stands for, given what stands between its quotes. -/
def decode? : Text → Option Text
  | [] => some []
  | '\\' :: 'u' :: a :: b :: c :: d :: rest =>
    let unit := codeUnit a b c d
    if isHighSurrogate unit then
      match rest with
      | '\\' :: 'u' :: e :: f :: g :: h :: rest =>
        let second := codeUnit e f g h
        if isLowSurrogate second then
          (decode? rest).map
            (Char.ofNat (0x10000 + (unit - 0xD800) * 0x400 + (second - 0xDC00)) :: ·)
        else none
      | _ => none
    else if isLowSurrogate unit then none
    else (decode? rest).map (Char.ofNat unit :: ·)
  | '\\' :: c :: rest => (decode? rest).map (shortEscape c :: ·)
  | c :: rest => (decode? rest).map (c :: ·)

def hexDigit (n : Nat) : Char := Nat.digitChar n

/-- How a character is written inside a string. -/
def encodeChar (c : Char) : Text :=
  match c with
  | '"' => ['\\', '"']
  | '\\' => ['\\', '\\']
  | '\n' => ['\\', 'n']
  | '\r' => ['\\', 'r']
  | '\t' => ['\\', 't']
  | '\x08' => ['\\', 'b']
  | '\x0C' => ['\\', 'f']
  | c =>
    if c.toNat < 0x20 then ['\\', 'u', '0', '0', hexDigit (c.toNat / 16), hexDigit (c.toNat % 16)]
    else [c]

/-- How a text is written between quotes. -/
def encode (text : Text) : Text := text.flatMap encodeChar

/-- The string that stands for a text. -/
def ofText (text : Text) : Json := .string (encode text)

def ofNat (n : Nat) : Json := .number (Text.ofNat n)

/-- The text of a string. -/
def text? : Json → Option Text
  | .string raw => decode? raw
  | _ => none

/-- Members with their names decoded; none if a name holds no text. -/
def decodeNames? (members : List (Text × Json)) : Option (List (Text × Json)) :=
  members.mapM fun (name, value) => (decode? name).map fun name => (name, value)

end RootedGlob.Json
