/-!
# Text

Patterns, paths and names are lists of characters, so that a scan is a recursion on the text it
reads. This module holds the operations on text that know nothing about patterns: which characters
are blank, trimming, reading backslashes as separators, and the length of the UTF-8 encoding.
-/

namespace RootedGlob

/-- A sequence of Unicode scalar values. -/
abbrev Text := List Char

namespace Text

/-- The characters that have the Unicode property `White_Space`. -/
def isBlank (c : Char) : Bool :=
  let code := c.toNat
  (0x09 ≤ code && code ≤ 0x0D) || code == 0x20 || code == 0x85 || code == 0xA0 ||
    code == 0x1680 || (0x2000 ≤ code && code ≤ 0x200A) || code == 0x2028 || code == 0x2029 ||
    code == 0x202F || code == 0x205F || code == 0x3000

def trimStart (text : Text) : Text := text.dropWhile isBlank

def trimEnd (text : Text) : Text := (text.reverse.dropWhile isBlank).reverse

/-- Removes the blank characters at both ends. -/
def trim (text : Text) : Text := trimEnd (trimStart text)

/-- A text is blank if trimming leaves nothing of it. -/
def isBlankText (text : Text) : Bool := (trim text).isEmpty

/-- Reads every backslash as a path separator. -/
def slashed (text : Text) : Text := text.map fun c => if c = '\\' then '/' else c

/-- The number of bytes of the UTF-8 encoding. -/
def byteLength (text : Text) : Nat := text.foldl (fun length c => length + c.utf8Size) 0

/-- What remains of a text after a given beginning. -/
def after? : Text → Text → Option Text
  | [], text => some text
  | _ :: _, [] => none
  | c :: start, d :: text => if c = d then after? start text else none

theorem after?_eq_some_iff {start text rest : Text} :
    after? start text = some rest ↔ text = start ++ rest := by
  induction start generalizing text with
  | nil => simp [after?]
  | cons c start ih =>
    cases text with
    | nil => simp [after?]
    | cons d text =>
      by_cases same : c = d
      · simp [after?, same, ih]
      · simp [after?, same, Ne.symm same]

/-- Cuts a text at the first occurrence of a character: what stands before it and behind it. -/
def cutAt? (mark : Char) : Text → Option (Text × Text)
  | [] => none
  | c :: rest =>
    if c = mark then some ([], rest)
    else (cutAt? mark rest).map fun (before, behind) => (c :: before, behind)

theorem eq_of_cutAt? {mark : Char} {text before behind : Text}
    (found : cutAt? mark text = some (before, behind)) : text = before ++ mark :: behind := by
  induction text generalizing before with
  | nil => simp [cutAt?] at found
  | cons c text ih =>
    simp only [cutAt?] at found
    split at found
    · next same =>
      simp only [Option.some.injEq, Prod.mk.injEq] at found
      simp [← found.1, found.2, same]
    · simp only [Option.map_eq_some_iff, Prod.exists, Prod.mk.injEq] at found
      obtain ⟨inner, rest, cutAt, rfl, rfl⟩ := found
      simp [← ih cutAt]

/-- Cuts a text behind its leading digits. -/
def spanDigits (text : Text) : Text × Text :=
  (text.takeWhile Char.isDigit, text.dropWhile Char.isDigit)

theorem append_spanDigits (text : Text) : (spanDigits text).1 ++ (spanDigits text).2 = text :=
  List.takeWhile_append_dropWhile

/-- The decimal digits of a number. -/
def ofNat (n : Nat) : Text := (toString n).toList

end Text

end RootedGlob
