import RootedGlob.Text

/-!
# JSON tokens

The tokens of a JSON text. Strings and numbers keep the characters they were written with, so that
two texts with the same tokens differ in the gaps between them only. Only space, tab, line feed and
carriage return are gaps.
-/

namespace RootedGlob.Json

inductive Token where
  | openObject
  | closeObject
  | openArray
  | closeArray
  | colon
  | comma
  | null
  | bool (value : Bool)
  /-- A number as it was written. -/
  | number (literal : Text)
  /-- A string as it was written, without its quotes. -/
  | string (raw : Text)
deriving DecidableEq, Repr

def isGap (c : Char) : Bool := c == ' ' || c == '\t' || c == '\n' || c == '\r'

def isHexDigit (c : Char) : Bool :=
  c.isDigit || ('a' ≤ c && c ≤ 'f') || ('A' ≤ c && c ≤ 'F')

/-- The characters that may stand behind a backslash, the code point escape aside. -/
def isShortEscape (c : Char) : Bool :=
  c == '"' || c == '\\' || c == '/' || c == 'b' || c == 'f' || c == 'n' || c == 'r' || c == 't'

/-- Reads a string from the text behind its opening quote: what is written, and the text behind
the closing quote. -/
def readString? : Text → Option (Text × Text)
  | '"' :: rest => some ([], rest)
  | '\\' :: 'u' :: a :: b :: c :: d :: rest =>
    if isHexDigit a && isHexDigit b && isHexDigit c && isHexDigit d then
      (readString? rest).map fun (raw, later) => ('\\' :: 'u' :: a :: b :: c :: d :: raw, later)
    else none
  | '\\' :: c :: rest =>
    if isShortEscape c then (readString? rest).map fun (raw, later) => ('\\' :: c :: raw, later)
    else none
  | c :: rest =>
    if c.toNat < 0x20 then none else (readString? rest).map fun (raw, later) => (c :: raw, later)
  | [] => none

/-- Reads the whole part of a number: a single zero, or digits that start with none. -/
def readWhole? (text : Text) : Option (Text × Text) :=
  match text with
  | '0' :: rest => some (['0'], rest)
  | c :: rest =>
    if c.isDigit then
      let (digits, later) := Text.spanDigits rest
      some (c :: digits, later)
    else none
  | [] => none

/-- Reads the part of a number behind its point, if there is one. -/
def readFraction? (text : Text) : Option (Text × Text) :=
  match text with
  | '.' :: rest =>
    let (digits, later) := Text.spanDigits rest
    if digits = [] then none else some ('.' :: digits, later)
  | _ => some ([], text)

/-- Cuts a text behind its leading sign, if there is one. -/
def spanSign : Text → Text × Text
  | '+' :: rest => (['+'], rest)
  | '-' :: rest => (['-'], rest)
  | rest => ([], rest)

/-- Reads the exponent of a number, if there is one. -/
def readExponent? (text : Text) : Option (Text × Text) :=
  match text with
  | [] => some ([], [])
  | mark :: rest =>
    if mark = 'e' ∨ mark = 'E' then
      let sign := (spanSign rest).1
      let (digits, later) := Text.spanDigits (spanSign rest).2
      if digits = [] then none else some (mark :: sign ++ digits, later)
    else some ([], text)

/-- Reads a number. -/
def readNumber? (text : Text) : Option (Text × Text) := do
  let (sign, unsigned) :=
    match text with
    | '-' :: rest => (['-'], rest)
    | _ => ([], text)
  let (whole, behindWhole) ← readWhole? unsigned
  let (fraction, behindFraction) ← readFraction? behindWhole
  let (exponent, later) ← readExponent? behindFraction
  return (sign ++ whole ++ fraction ++ exponent, later)

/-- Reads the token that starts with `c`. -/
def readToken? (c : Char) (rest : Text) : Option (Token × Text) :=
  match c with
  | '{' => some (.openObject, rest)
  | '}' => some (.closeObject, rest)
  | '[' => some (.openArray, rest)
  | ']' => some (.closeArray, rest)
  | ':' => some (.colon, rest)
  | ',' => some (.comma, rest)
  | '"' => (readString? rest).map fun (raw, later) => (.string raw, later)
  | 'n' => (Text.after? "ull".toList rest).map (.null, ·)
  | 't' => (Text.after? "rue".toList rest).map (.bool true, ·)
  | 'f' => (Text.after? "alse".toList rest).map (.bool false, ·)
  | c => (readNumber? (c :: rest)).map fun (literal, later) => (.number literal, later)

theorem length_of_readString? {text raw later : Text}
    (found : readString? text = some (raw, later)) : later.length < text.length := by
  fun_induction readString? text generalizing raw with
  | case1 rest => simp_all
  | case2 a b c d rest valid ih =>
    simp only [Option.map_eq_some_iff, Prod.exists, Prod.mk.injEq] at found
    obtain ⟨_, _, read, _, rfl⟩ := found
    have := ih read
    simp only [List.length_cons]
    omega
  | case4 c rest valid _ ih =>
    simp only [Option.map_eq_some_iff, Prod.exists, Prod.mk.injEq] at found
    obtain ⟨_, _, read, _, rfl⟩ := found
    have := ih read
    simp only [List.length_cons]
    omega
  | case7 c rest _ _ _ valid ih =>
    simp only [Option.map_eq_some_iff, Prod.exists, Prod.mk.injEq] at found
    obtain ⟨_, _, read, _, rfl⟩ := found
    have := ih read
    simp only [List.length_cons]
    omega
  | _ => simp at found

theorem length_of_readWhole? {text whole later : Text}
    (found : readWhole? text = some (whole, later)) : later.length < text.length := by
  unfold readWhole? at found
  split at found
  · simp_all
  · next c rest _ =>
    split at found
    · simp only [Option.some.injEq, Prod.mk.injEq] at found
      have := congrArg List.length (Text.append_spanDigits rest)
      rw [found.2] at this
      simp only [List.length_append, List.length_cons] at this ⊢
      omega
    · simp at found
  · simp at found

theorem length_of_readFraction? {text fraction later : Text}
    (found : readFraction? text = some (fraction, later)) : later.length ≤ text.length := by
  unfold readFraction? at found
  split at found
  · next rest =>
    simp only at found
    split at found
    · simp at found
    · simp only [Option.some.injEq, Prod.mk.injEq] at found
      have := congrArg List.length (Text.append_spanDigits rest)
      rw [found.2] at this
      simp only [List.length_append, List.length_cons] at this ⊢
      omega
  · simp_all

theorem length_spanSign (text : Text) : (spanSign text).2.length ≤ text.length := by
  unfold spanSign
  split <;> simp

theorem length_of_readExponent? {text exponent later : Text}
    (found : readExponent? text = some (exponent, later)) : later.length ≤ text.length := by
  unfold readExponent? at found
  split at found
  · simp_all
  · next mark rest =>
    split at found
    · simp only at found
      split at found
      · simp at found
      · simp only [Option.some.injEq, Prod.mk.injEq] at found
        have whole := congrArg List.length (Text.append_spanDigits (spanSign rest).2)
        have unsigned := length_spanSign rest
        rw [found.2] at whole
        simp only [List.length_append, List.length_cons] at whole ⊢
        omega
    · simp_all

theorem length_of_readNumber? {text literal later : Text}
    (found : readNumber? text = some (literal, later)) : later.length < text.length := by
  unfold readNumber? at found
  simp only [bind, Option.bind_eq_some_iff, pure, Prod.exists, Option.some.injEq,
    Prod.mk.injEq] at found
  obtain ⟨_, _, whole, _, _, fraction, _, _, exponent, _, rfl⟩ := found
  have first := length_of_readWhole? whole
  have second := length_of_readFraction? fraction
  have third := length_of_readExponent? exponent
  split at first <;> simp only [List.length_cons] at * <;> omega

theorem length_of_after? {start text later : Text}
    (found : Text.after? start text = some later) : later.length ≤ text.length := by
  fun_induction Text.after? start text with
  | case1 => simp_all
  | case3 start d text ih =>
    have := ih found
    simp only [List.length_cons]
    omega
  | _ => simp at found

theorem length_of_readToken? {c : Char} {rest later : Text} {token : Token}
    (found : readToken? c rest = some (token, later)) : later.length ≤ rest.length := by
  unfold readToken? at found
  split at found
  case h_7 =>
    simp only [Option.map_eq_some_iff, Prod.exists, Prod.mk.injEq] at found
    obtain ⟨_, _, read, _, rfl⟩ := found
    exact Nat.le_of_lt (length_of_readString? read)
  case h_8 | h_9 | h_10 =>
    simp only [Option.map_eq_some_iff, Prod.mk.injEq] at found
    obtain ⟨_, read, _, rfl⟩ := found
    exact length_of_after? read
  case h_11 =>
    simp only [Option.map_eq_some_iff, Prod.exists, Prod.mk.injEq] at found
    obtain ⟨_, _, read, _, rfl⟩ := found
    exact Nat.le_of_lt_succ (length_of_readNumber? read)
  all_goals simp_all

/-- The tokens of a text, if it consists of tokens and gaps. -/
def tokens? : Text → Option (List Token)
  | [] => some []
  | c :: rest =>
    if isGap c then tokens? rest
    else
      match _read : readToken? c rest with
      | none => none
      | some (token, later) => (tokens? later).map (token :: ·)
termination_by text => text.length
decreasing_by
  · simp
  · exact Nat.lt_succ_of_le (length_of_readToken? ‹_›)

end RootedGlob.Json
