import RootedGlob.Text

/-!
# Pattern lists

A pattern list is the text a user types into a search panel: patterns separated by commas. A comma
separates only outside parentheses, brackets and braces, which three independent counters track;
a closer without an opener is ordinary text, and a backslash guards the character after it. Tokens
are the trimmed pieces between separating commas, the blank ones left out.

A cursor reads the tokens one at a time. It holds nothing but the text still to be read, because
every separator stands where all counters are zero.
-/

namespace RootedGlob.PatternList

/-- What a scan of a pattern list has to remember of the text before it. -/
structure Scan where
  parens : Nat := 0
  brackets : Nat := 0
  braces : Nat := 0
  escaped : Bool := false
deriving DecidableEq, Repr

namespace Scan

/-- Reads one character. Counters stop at zero. -/
def pass (scan : Scan) (c : Char) : Scan :=
  if scan.escaped then { scan with escaped := false }
  else
    match c with
    | '\\' => { scan with escaped := true }
    | '(' => { scan with parens := scan.parens + 1 }
    | '[' => { scan with brackets := scan.brackets + 1 }
    | '{' => { scan with braces := scan.braces + 1 }
    | ')' => { scan with parens := scan.parens - 1 }
    | ']' => { scan with brackets := scan.brackets - 1 }
    | '}' => { scan with braces := scan.braces - 1 }
    | _ => scan

/-- Outside every group, and not behind a backslash. -/
def atTop (scan : Scan) : Bool :=
  scan.parens == 0 && scan.brackets == 0 && scan.braces == 0 && !scan.escaped

/-- Whether a character read in this state separates two patterns. -/
def separates (scan : Scan) (c : Char) : Bool := c == ',' && scan.atTop

end Scan

/-- Cuts a text at the first separating comma: the piece before it, and the text after it unless
no comma separates. -/
def cut (scan : Scan) : Text → Text × Option Text
  | [] => ([], none)
  | c :: rest =>
    if scan.separates c then ([], some rest)
    else
      let (piece, later) := cut (scan.pass c) rest
      (c :: piece, later)

theorem length_of_cut {scan : Scan} {text piece rest : Text}
    (found : cut scan text = (piece, some rest)) : rest.length < text.length := by
  induction text generalizing scan piece with
  | nil => simp [cut] at found
  | cons c text ih =>
    simp only [cut] at found
    split at found
    · simp only [Prod.mk.injEq, Option.some.injEq] at found
      simp [← found.2]
    · have inner : cut (scan.pass c) text = ((cut (scan.pass c) text).1, some rest) :=
        Prod.ext rfl (Prod.mk.inj found).2
      have := ih inner
      simp only [List.length_cons]
      omega

/-- The first token of a text, and the text after the comma that ends it. -/
def firstToken? (text : Text) : Option (Text × Option Text) :=
  match _found : cut {} text with
  | (piece, later) =>
    if Text.isBlankText piece then
      match later with
      | none => none
      | some rest => firstToken? rest
    else some (piece.trim, later)
termination_by text.length
decreasing_by exact length_of_cut ‹_›

/-- A position between two tokens of a pattern list. -/
structure Cursor where
  /-- The text still to be read; none once its end was reached. -/
  rest : Option Text
deriving DecidableEq, Repr

namespace Cursor

def start (text : Text) : Cursor := ⟨some text⟩

/-- How much a cursor can still read. -/
def size (cursor : Cursor) : Nat :=
  match cursor.rest with
  | none => 0
  | some text => text.length + 1

/-- The next token and the position after it. -/
def next? (cursor : Cursor) : Option (Text × Cursor) :=
  cursor.rest.bind fun text => (firstToken? text).map fun (token, later) => (token, ⟨later⟩)

end Cursor

theorem length_of_firstToken? {text token rest : Text}
    (found : firstToken? text = some (token, some rest)) : rest.length < text.length := by
  fun_induction firstToken? text with
  | case1 => simp at found
  | case2 _ _ _ _ cutAt _ ih => exact Nat.lt_trans (ih found) (length_of_cut cutAt)
  | case3 _ _ _ cutAt =>
    simp only [Option.some.injEq, Prod.mk.injEq] at found
    exact length_of_cut (found.2 ▸ cutAt)

namespace Cursor

theorem size_of_next? {cursor later : Cursor} {token : Text}
    (found : cursor.next? = some (token, later)) : later.size < cursor.size := by
  obtain ⟨_ | text⟩ := cursor
  · simp [next?] at found
  · simp only [next?, Option.bind_some, Option.map_eq_some_iff, Prod.exists] at found
    obtain ⟨_, rest, first, same⟩ := found
    obtain ⟨rfl, rfl⟩ := Prod.mk.inj same
    cases rest with
    | none => simp [size]
    | some rest => simpa [size] using length_of_firstToken? first

/-- All tokens from a position on. -/
def tokens (cursor : Cursor) : List Text :=
  match _found : cursor.next? with
  | none => []
  | some (token, later) => token :: later.tokens
termination_by cursor.size
decreasing_by exact size_of_next? ‹_›

end Cursor

/-- The tokens of a pattern list, in order. -/
def tokens (text : Text) : List Text := (Cursor.start text).tokens

end RootedGlob.PatternList
