import RootedGlob.Text

/-!
# Decimal numbers

Reading a decimal number gives the nearest binary number of 64 bits. Writing one gives the fewest
digits that are read back as the same number, the nearest such digits if there are several, and
always in positional form.
-/

namespace RootedGlob.Decimal

/-- The value of a text of decimal digits. -/
def natural (digits : Text) : Nat :=
  digits.foldl (fun value c => value * 10 + (c.toNat - '0'.toNat)) 0

/-- The binary number nearest to `mantissa * 10 ^ exponent`. Numbers far outside the range are
settled by their size alone. -/
def nearest (mantissa : Nat) (exponent : Int) : Float :=
  let size := (Text.ofNat mantissa).length + exponent
  if mantissa = 0 ∨ size < -330 then 0
  else if 310 < size then 1 / 0
  else if exponent < 0 then Float.ofScientific mantissa true exponent.natAbs
  else Float.ofScientific mantissa false exponent.natAbs

def lower (text : Text) : Text := text.map Char.toLower

/-- Cuts a sign off a text; says whether it was a minus. -/
def spanSign : Text → Bool × Text
  | '-' :: rest => (true, rest)
  | '+' :: rest => (false, rest)
  | rest => (false, rest)

/-- Reads the exponent of a number; none if the text is no exponent. -/
def readExponent? : Text → Option Int
  | [] => some 0
  | mark :: rest =>
    let (negative, digits) := spanSign rest
    if (mark = 'e' ∨ mark = 'E') ∧ digits ≠ [] ∧ digits.all Char.isDigit then
      -- The clamp keeps sizes in reach; both sides of it are infinite or zero anyway.
      let size := if 6 < (digits.dropWhile (· == '0')).length then 1000000 else natural digits
      some (if negative then -size else size)
    else none

/-- Reads an unsigned number: digits with a point anywhere among them, and an exponent. -/
def readUnsigned? (text : Text) : Option Float :=
  let (whole, behind) := Text.spanDigits text
  let (fraction, later) :=
    match behind with
    | '.' :: rest => Text.spanDigits rest
    | _ => ([], behind)
  if whole = [] ∧ fraction = [] then none
  else
    (readExponent? later).map fun exponent =>
      nearest (natural (whole ++ fraction)) (exponent - fraction.length)

/-- Reads a number with an optional sign. The names of infinity and of no number are read in any
case. -/
def read? (text : Text) : Option Float :=
  let (negative, unsigned) := spanSign text
  let name := lower unsigned
  let size :=
    if name = "inf".toList ∨ name = "infinity".toList then some (1 / 0)
    else if name = "nan".toList then some (0 / 0)
    else readUnsigned? unsigned
  size.map fun size => if negative then -size else size

/-- A positive fraction. -/
structure Fraction where
  numerator : Nat
  denominator : Nat

/-- The exact value of a positive finite number. -/
def exact (x : Float) : Fraction :=
  let field := ((x.toBits >>> 52) &&& 0x7FF).toNat
  let fraction := (x.toBits &&& 0xFFFFFFFFFFFFF).toNat
  let mantissa := if field = 0 then fraction else fraction + (1 <<< 52)
  let shift := max field 1
  if 1075 ≤ shift then ⟨mantissa <<< (shift - 1075), 1⟩ else ⟨mantissa, 1 <<< (1075 - shift)⟩

/-- The exponent of the first digit of a positive fraction. -/
def firstExponent (value : Fraction) : Int :=
  if value.denominator ≤ value.numerator then
    (Text.ofNat (value.numerator / value.denominator)).length - 1
  else
    let reaches (zeros : Nat) : Bool := value.denominator ≤ value.numerator * Nat.pow 10 zeros
    Int.negOfNat (((List.range 400).find? reaches).getD 0)

/-- Divides a fraction by a power of ten. -/
def scale (value : Fraction) (exponent : Int) : Fraction :=
  if exponent < 0 then ⟨value.numerator * Nat.pow 10 exponent.natAbs, value.denominator⟩
  else ⟨value.numerator, value.denominator * Nat.pow 10 exponent.natAbs⟩

/-- Digits at a given exponent that are read back as `x`, the nearest ones. -/
def digitsAt? (x : Float) (value : Fraction) (exponent : Int) : Option (Nat × Int) :=
  let scaled := scale value exponent
  let below := scaled.numerator / scaled.denominator
  let rest := scaled.numerator % scaled.denominator
  let candidates := if scaled.denominator < 2 * rest then [below + 1, below] else [below, below + 1]
  (candidates.find? fun digits => nearest digits exponent == x).map (·, exponent)

/-- The fewest digits that are read back as a positive finite number, and their exponent. -/
def fewestDigits (x : Float) : Nat × Int :=
  let value := exact x
  let first := firstExponent value
  ((List.range 17).findSome? fun n : Nat => digitsAt? x value (first - n)).getD (0, 0)

/-- Writes digits with an exponent in positional form. -/
def positional (digits : Nat) (exponent : Int) : Text :=
  let written := Text.ofNat digits
  if 0 ≤ exponent then written ++ List.replicate exponent.natAbs '0'
  else
    let places := exponent.natAbs
    let padded := List.replicate (places + 1 - written.length) '0' ++ written
    let whole := padded.take (padded.length - places)
    let fraction := (padded.drop (padded.length - places)).reverse.dropWhile (· == '0')
    if fraction = [] then whole else whole ++ '.' :: fraction.reverse

/-- Writes a number with the fewest digits. -/
def shortest (x : Float) : Text :=
  if x.isNaN then "NaN".toList
  else
    let size := x.abs
    let written :=
      if size.isInf then "inf".toList
      else if size == 0 then ['0']
      else positional (fewestDigits size).1 (fewestDigits size).2
    if x.toBits >>> 63 = 0 then written else '-' :: written

end RootedGlob.Decimal
