import RootedGlob.Yaml.Scalar

/-!
# YAML tokens

A scanner turns a text into tokens in which indentation has become explicit: a block opens where the
text moves to the right of the block around it, and ends where it moves back to the left. A scalar
with its colon behind it, on the same line and where a key may stand, is one key token. Aliases,
anchors, tags, block scalars, directives and keys introduced by a question mark are not part of the
format that is read here.
-/

namespace RootedGlob.Yaml

inductive Token where
  | documentStart
  | documentEnd
  | mapStart
  | sequenceStart
  | blockEnd
  /-- The dash before an item. -/
  | item
  | key (value : Value)
  | scalar (value : Value)
  | openSequence
  | closeSequence
  | openMap
  | closeMap
  | comma

structure Scanner where
  rest : Text
  /-- How many characters of the current line were read. -/
  column : Nat := 0
  /-- The columns of the open blocks, the innermost first. -/
  indents : List Nat := []
  /-- How many brackets are open. -/
  flow : Nat := 0
  /-- Whether a key or a dash may stand here. -/
  keyAllowed : Bool := true

namespace Scanner

/-- The column behind some text that starts in a given column. -/
def columnBehind (column : Nat) (text : Text) : Nat :=
  text.foldl (fun column c => if isBreak c then 0 else column + 1) column

/-- Moves on to a later place of the text. -/
def moveTo (scanner : Scanner) (later : Text) : Scanner :=
  let passed := scanner.rest.take (scanner.rest.length - later.length)
  { scanner with rest := later, column := columnBehind scanner.column passed }

/-- Moves on by some characters. -/
def skip (scanner : Scanner) (count : Nat) : Scanner := scanner.moveTo (scanner.rest.drop count)

def startsWithGap (text : Text) : Bool := text.head?.all isGap

def isFlowMark (c : Char) : Bool := c == ',' || c == '[' || c == ']' || c == '{' || c == '}'

/-- Whether three given characters with a gap behind them start a line here. -/
def atMarker (marker : Text) (column : Nat) (text : Text) : Bool :=
  column == 0 && (Text.after? marker text).any startsWithGap

def documentMarker : Text := "---".toList

def endMarker : Text := "...".toList

/-- Passes over gaps and comments; a tab stands where no key may stand, or inside brackets. -/
def passGaps (scanner : Scanner) : Nat → Scanner
  | 0 => scanner
  | fuel + 1 =>
    match scanner.rest with
    | '\n' :: _ =>
      let next := scanner.skip 1
      passGaps { next with keyAllowed := next.keyAllowed || next.flow == 0 } fuel
    | ' ' :: _ => passGaps (scanner.skip 1) fuel
    | '\t' :: _ =>
      if 0 < scanner.flow ∨ ¬ scanner.keyAllowed then passGaps (scanner.skip 1) fuel else scanner
    | '#' :: _ => passGaps (scanner.moveTo (scanner.rest.dropWhile (!isBreak ·))) fuel
    | _ => scanner

/-- The blocks that a column lies to the left of are closed. -/
def closeBlocks (column : Nat) : List Nat → List Token × List Nat
  | [] => ([], [])
  | indent :: indents =>
    if column < indent then
      let (closed, remaining) := closeBlocks column indents
      (.blockEnd :: closed, remaining)
    else ([], indent :: indents)

/-- Opens a block at a column, unless the innermost one starts there. -/
def openBlock (start : Token) (column : Nat) (scanner : Scanner) : List Token × Scanner :=
  if scanner.flow = 0 ∧ scanner.indents.head?.all (· < column) then
    ([start], { scanner with indents := column :: scanner.indents })
  else ([], scanner)

/-- Whether a colon stands here that ends a key. -/
def atColon (flow adjacent : Bool) : Text → Bool
  | ':' :: rest => startsWithGap rest || flow && (rest.head?.any isFlowMark || adjacent)
  | _ => false

/-- The characters of a plain scalar up to the next gap or mark, and the text behind them. -/
def plainRun (flow : Bool) : Text → Text × Text
  | [] => ([], [])
  | c :: rest =>
    if isGap c || atColon flow false (c :: rest) || flow && isFlowMark c then ([], c :: rest)
    else
      let (run, later) := plainRun flow rest
      (c :: run, later)

/-- Reads a plain scalar: its pieces and the place behind it. A scalar goes on behind a gap unless
the text there moves to the left, or starts a comment, a marker or the value of a key. -/
def readPlain? (scanner : Scanner) : Nat → Option (List Piece × Scanner)
  | 0 => some ([], scanner)
  | fuel + 1 =>
    let flow := 0 < scanner.flow
    let least := (scanner.indents.head?.map (· + 1)).getD 0
    let (run, later) := plainRun flow scanner.rest
    let gap := later.takeWhile isGap
    let pieces := run.map Piece.fixed
    let next := scanner.moveTo (later.dropWhile isGap)
    let lastLine := (gap.reverse.takeWhile (!isBreak ·)).reverse
    if gap = [] then some (pieces, next)
    else
      let broken := gap.any isBreak
      let ended := { next with keyAllowed := broken }
      if broken ∧ lastLine.take least ≠ [] ∧ (lastLine.take least).contains '\t' then none
      else if next.rest = [] ∨ next.rest.head? = some '#' ∨ atColon flow false next.rest ∨
          flow ∧ next.rest.head?.any isFlowMark ∨ ¬ flow ∧ next.column < least ∨
          atMarker documentMarker next.column next.rest ∨ atMarker endMarker next.column next.rest
      then some (pieces, ended)
      else
        (readPlain? next fuel).map fun (more, behind) =>
          (pieces ++ gap.map Piece.gap ++ more, behind)

/-- A scalar that was read from one place to another, as a key or as a value. -/
def emitScalar (start behind : Scanner) (quoted : Bool) (value : Value) : List Token × Scanner :=
  let passed := start.rest.take (start.rest.length - behind.rest.length)
  let colon := behind.rest.dropWhile isSpace
  let adjacent := quoted && behind.rest.head? == some ':'
  if start.keyAllowed ∧ ¬ passed.any isBreak ∧ atColon (0 < start.flow) adjacent colon then
    let (opened, scanner) := openBlock .mapStart start.column (behind.moveTo (colon.drop 1))
    (opened ++ [.key value], { scanner with keyAllowed := false })
  else ([.scalar value], behind)

/-- Reads one token or two, given the characters that come next. -/
def next? (scanner : Scanner) : Option (List Token × Scanner) :=
  match scanner.rest with
  | [] => none
  | c :: rest =>
    let blank := startsWithGap rest
    let flow := 0 < scanner.flow
    let enter := fun token =>
      some ([token], { scanner.skip 1 with flow := scanner.flow + 1, keyAllowed := true })
    let leave := fun token =>
      some ([token], { scanner.skip 1 with flow := scanner.flow - 1, keyAllowed := false })
    let plain := fun (_ : Unit) =>
      (readPlain? { scanner with keyAllowed := false } scanner.rest.length).map
        fun (pieces, behind) => emitScalar scanner behind false (plainValue (fold pieces))
    if c = '[' then enter .openSequence
    else if c = '{' then enter .openMap
    else if c = ']' then leave .closeSequence
    else if c = '}' then leave .closeMap
    else if c = ',' then some ([.comma], { scanner.skip 1 with keyAllowed := true })
    else if c = '-' ∧ blank then
      if flow ∨ ¬ scanner.keyAllowed then none
      else
        let (opened, inside) := openBlock .sequenceStart scanner.column scanner
        some (opened ++ [.item], { inside.skip 1 with keyAllowed := true })
    else if c = '?' ∧ (flow ∨ blank) then none
    else if atColon flow false scanner.rest then
      if flow then some ([.key .null], { scanner.skip 1 with keyAllowed := false })
      else if scanner.keyAllowed then
        let (opened, inside) := openBlock .mapStart scanner.column scanner
        some (opened ++ [.key .null], { inside.skip 1 with keyAllowed := true })
      else none
    else if c = '"' then
      (readDouble? 0 rest).map fun (pieces, later) =>
        emitScalar scanner { scanner.moveTo later with keyAllowed := false } true
          (.text (fold pieces))
    else if c = '\'' then
      (readSingle? rest).map fun (pieces, later) =>
        emitScalar scanner { scanner.moveTo later with keyAllowed := false } true
          (.text (fold pieces))
    else if "*&!%@\x60\t".toList.contains c then none
    else if (c = '|' ∨ c = '>') ∧ ¬ flow then none
    else plain ()

/-- All tokens from a place on. -/
def tokens? (scanner : Scanner) : Nat → Option (List Token)
  | 0 => none
  | fuel + 1 =>
    let here := scanner.passGaps (scanner.rest.length + 1)
    let marker :=
      if atMarker documentMarker here.column here.rest then some Token.documentStart
      else if atMarker endMarker here.column here.rest then some .documentEnd
      else none
    if here.rest = [] then some (here.indents.map fun _ => .blockEnd)
    else
      match marker with
      | some token =>
        let closed := here.indents.map fun _ => Token.blockEnd
        (tokens? { here.skip 3 with indents := [], keyAllowed := false } fuel).map
          fun later => closed ++ token :: later
      | none =>
        let (closed, indents) :=
          if 0 < here.flow then ([], here.indents) else closeBlocks here.column here.indents
        (next? { here with indents }).bind fun (tokens, behind) =>
          (tokens? behind fuel).map fun later => closed ++ tokens ++ later

end Scanner

/-- The tokens of a text. -/
def tokens? (text : Text) : Option (List Token) :=
  let text := unifyBreaks text
  Scanner.tokens? { rest := text } (text.length + 1)

end RootedGlob.Yaml
