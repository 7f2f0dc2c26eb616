import RootedGlob.Yaml.Scalar

/-!
# TOML documents

A document is a list of lines, each of which gives a key a value or opens a table for the keys that
follow. A key may be given once, and a table opened once. Values are strings of four kinds, numbers,
booleans, dates, which are kept as texts, arrays and inline tables.
-/

namespace RootedGlob.Toml

def isSpace (c : Char) : Bool := c == ' ' || c == '\t'

def dropSpaces (text : Text) : Text := text.dropWhile isSpace

/-- Drops spaces, line breaks and comments. -/
def dropGaps (fuel : Nat) (text : Text) : Text :=
  match fuel with
  | 0 => text
  | fuel + 1 =>
    match dropSpaces text with
    | '\n' :: rest => dropGaps fuel rest
    | '#' :: rest => dropGaps fuel (rest.dropWhile (· != '\n'))
    | rest => rest

def isBareKey (c : Char) : Bool := c.isAlphanum || c == '_' || c == '-'

/-- Puts a character in front of what was read. -/
def prepend (c : Char) (found : Option (Text × Text)) : Option (Text × Text) :=
  found.map fun (text, later) => (c :: text, later)

/-- The character that an escape names, and the text behind it. -/
def readEscape? : Text → Option (Char × Text)
  | 'b' :: rest => some ('\x08', rest)
  | 't' :: rest => some ('\t', rest)
  | 'n' :: rest => some ('\n', rest)
  | 'f' :: rest => some ('\x0c', rest)
  | 'r' :: rest => some ('\r', rest)
  | '"' :: rest => some ('"', rest)
  | '\\' :: rest => some ('\\', rest)
  | 'u' :: rest =>
    if rest.length < 4 then none
    else (Yaml.codePoint? (rest.take 4)).map fun c => (c, rest.drop 4)
  | 'U' :: rest =>
    if rest.length < 8 then none
    else (Yaml.codePoint? (rest.take 8)).map fun c => (c, rest.drop 8)
  | _ => none

/-- Whether a character may stand in a string as it is. -/
def isPlain (c : Char) : Bool := c == '\t' || (0x20 ≤ c.toNat && c.toNat != 0x7F)

/-- Reads a string with escapes on one line, from behind its opening quote. -/
def readBasic? (fuel : Nat) (text : Text) : Option (Text × Text) :=
  match fuel, text with
  | _ + 1, '"' :: rest => some ([], rest)
  | fuel + 1, '\\' :: rest =>
    (readEscape? rest).bind fun (c, later) => prepend c (readBasic? fuel later)
  | fuel + 1, c :: rest => if isPlain c then prepend c (readBasic? fuel rest) else none
  | _, _ => none

/-- Reads a string with escapes on several lines. A backslash at the end of a line joins it with the
next text. -/
def readLongBasic? (fuel : Nat) (text : Text) : Option (Text × Text) :=
  match fuel, text with
  | _ + 1, '"' :: '"' :: '"' :: rest => some ([], rest)
  | fuel + 1, '\\' :: rest =>
    match dropSpaces rest with
    | '\n' :: later => readLongBasic? fuel (later.dropWhile fun c => isSpace c || c == '\n')
    | _ => (readEscape? rest).bind fun (c, later) => prepend c (readLongBasic? fuel later)
  | fuel + 1, c :: rest =>
    if c = '\n' ∨ isPlain c then prepend c (readLongBasic? fuel rest) else none
  | _, _ => none

/-- Reads a string without escapes, up to a closing quote. -/
def readLiteral? : Text → Option (Text × Text)
  | [] => none
  | c :: rest =>
    if c = '\'' then some ([], rest) else if isPlain c then prepend c (readLiteral? rest) else none

/-- Reads a string without escapes on several lines. -/
def readLongLiteral? : Text → Option (Text × Text)
  | [] => none
  | '\'' :: '\'' :: '\'' :: rest => some ([], rest)
  | c :: rest => if c = '\n' ∨ isPlain c then prepend c (readLongLiteral? rest) else none

def dropBreak : Text → Text
  | '\n' :: rest => rest
  | rest => rest

/-- Reads a string of any kind. -/
def readString? : Text → Option (Text × Text)
  | '"' :: '"' :: '"' :: rest => readLongBasic? (rest.length + 1) (dropBreak rest)
  | '"' :: rest => readBasic? (rest.length + 1) rest
  | '\'' :: '\'' :: '\'' :: rest => readLongLiteral? (dropBreak rest)
  | '\'' :: rest => readLiteral? rest
  | _ => none

/-- Reads one part of a key. -/
def readKeyPart? (text : Text) : Option (Text × Text) :=
  match text with
  | '"' :: rest => readBasic? (rest.length + 1) rest
  | '\'' :: rest => readLiteral? rest
  | _ =>
    let name := text.takeWhile isBareKey
    if name = [] then none else some (name, text.dropWhile isBareKey)

/-- Reads a key: parts with dots between them. -/
def readKey? (fuel : Nat) (text : Text) : Option (List Text × Text) :=
  match fuel with
  | 0 => none
  | fuel + 1 => do
    let (part, rest) ← readKeyPart? (dropSpaces text)
    match dropSpaces rest with
    | '.' :: later =>
      let (parts, behind) ← readKey? fuel later
      return (part :: parts, behind)
    | later => return ([part], later)

/-- Removes the underscores that stand between two digits; none if one stands elsewhere. -/
def dropUnderscores? : Text → Option Text
  | [] => some []
  | [c] => if c = '_' then none else some [c]
  | c :: '_' :: d :: rest =>
    if c.isAlphanum ∧ d.isAlphanum then (dropUnderscores? (d :: rest)).map (c :: ·) else none
  | c :: rest => if c = '_' then none else (dropUnderscores? rest).map (c :: ·)

/-- Whether digits start with a zero that has digits behind it. -/
def hasLeadingZero (digits : Text) : Bool := digits.head? == some '0' && digits.length != 1

def readWhole? (text : Text) : Option Int :=
  if hasLeadingZero (Decimal.spanSign text).2 then none else Yaml.integer? text

/-- Reads the digits of a number in another base, which has no sign. -/
def inBase? (base : Nat) (digits : Text) : Option Int :=
  if digits.all Char.isAlphanum then Yaml.inBase? base digits else none

/-- Reads a number with a fraction or an exponent. -/
def readDecimal? (text : Text) : Option Float :=
  let unsigned := (Decimal.spanSign text).2
  let (whole, behind) := Text.spanDigits unsigned
  let pointed : Bool :=
    match behind with
    | '.' :: rest => rest.head?.any Char.isDigit
    | _ => true
  if unsigned = "inf".toList ∨ unsigned = "nan".toList then Decimal.read? text
  else if whole = [] ∨ behind = [] ∨ hasLeadingZero whole ∨ ¬ pointed then none
  else Decimal.read? text

/-- Whether a text has the shape of a date or a time. -/
def isDate (text : Text) : Bool :=
  let digits := text.takeWhile Char.isDigit
  match text.dropWhile Char.isDigit with
  | '-' :: _ => digits.length == 4
  | ':' :: _ => digits.length == 2
  | _ => false

/-- The value of a word that is no string. -/
def wordValue? (word : Text) : Option Value :=
  if word = "true".toList then some (.bool true)
  else if word = "false".toList then some (.bool false)
  else if isDate word then some (.text word)
  else do
    let plain ← dropUnderscores? word
    match plain with
    | '0' :: 'x' :: digits => (inBase? 16 digits).map .integer
    | '0' :: 'o' :: digits => (inBase? 8 digits).map .integer
    | '0' :: 'b' :: digits => (inBase? 2 digits).map .integer
    | _ =>
      match readWhole? plain with
      | some value => some (.integer value)
      | none => (readDecimal? plain).map .decimal

def isWord (c : Char) : Bool := isBareKey c || c == '+' || c == '.' || c == ':'

/-- Changes the table under a name, which is made if it is missing. Inside an array of tables the
last one is meant. -/
def within? (name : Text) (table : Table) (change? : Table → Option Table) : Option Table :=
  match (table.lookup name).getD (.table []) with
  | .table inner => (change? inner).map fun inner => Table.set name (.table inner) table
  | .sequence items =>
    match items.getLast? with
    | some (.table inner) =>
      (change? inner).map fun inner =>
        Table.set name (.sequence (items.dropLast ++ [.table inner])) table
    | _ => none
  | _ => none

/-- Gives a key a value. A key that has a value already is a fault. -/
def assign? (value : Value) (table : Table) : List Text → Option Table
  | [] => none
  | [name] => if (table.lookup name).isSome then none else some (Table.set name value table)
  | name :: rest => within? name table fun inner => assign? value inner rest

/-- Makes sure that a table is there. -/
def openTable? (table : Table) : List Text → Option Table
  | [] => some table
  | name :: rest => within? name table fun inner => openTable? inner rest

/-- Adds a table to an array of tables. -/
def addTable? (table : Table) : List Text → Option Table
  | [] => none
  | [name] =>
    match table.lookup name with
    | none => some (Table.set name (.sequence [.table []]) table)
    | some (.sequence items) => some (Table.set name (.sequence (items ++ [.table []])) table)
    | _ => none
  | name :: rest => within? name table fun inner => addTable? inner rest

mutual

def readValue? (fuel : Nat) (text : Text) : Option (Value × Text) :=
  match fuel with
  | 0 => none
  | fuel + 1 =>
    match text with
    | '[' :: rest => (readItems? fuel rest).map fun (items, later) => (.sequence items, later)
    | '{' :: rest =>
      match dropSpaces rest with
      | '}' :: later => some (.table [], later)
      | rest => (readMembers? fuel [] rest).map fun (members, later) => (.table members, later)
    | _ =>
      if text.head? = some '"' ∨ text.head? = some '\'' then
        (readString? text).map fun (value, later) => (.text value, later)
      else
        (wordValue? (text.takeWhile isWord)).map fun value => (value, text.dropWhile isWord)

/-- Reads the items of an array, which may go over several lines. -/
def readItems? (fuel : Nat) (text : Text) : Option (List Value × Text) :=
  match fuel with
  | 0 => none
  | fuel + 1 =>
    match dropGaps text.length text with
    | ']' :: later => some ([], later)
    | start => do
      let (item, rest) ← readValue? fuel start
      match dropGaps rest.length rest with
      | ',' :: later =>
        let (items, behind) ← readItems? fuel later
        return (item :: items, behind)
      | ']' :: later => return ([item], later)
      | _ => none

/-- Reads the members of an inline table. -/
def readMembers? (fuel : Nat) (table : Table) (text : Text) : Option (Table × Text) :=
  match fuel with
  | 0 => none
  | fuel + 1 => do
    let (key, rest) ← readKey? (text.length + 1) text
    match rest with
    | '=' :: rest =>
      let (value, rest) ← readValue? fuel (dropSpaces rest)
      let table ← assign? value table key
      match dropSpaces rest with
      | ',' :: later => readMembers? fuel table later
      | '}' :: later => return (table, later)
      | _ => none
    | _ => none

end

/-- Whether nothing but a comment stands on the rest of a line. -/
def lineEnds (text : Text) : Bool :=
  match dropSpaces text with
  | [] => true
  | '\n' :: _ => true
  | '#' :: _ => true
  | _ => false

/-- What the lines of a document have given so far. -/
structure Document where
  table : Table := []
  /-- The path of the open table. -/
  path : List Text := []
  /-- The paths of tables that no later line may open. -/
  closed : List (List Text) := []

namespace Document

/-- Opens a table. It must not have been opened before, nor given as a value. -/
def enter? (document : Document) (key : List Text) : Option Document :=
  if document.closed.any (· == key) then none
  else
    (openTable? document.table key).map fun table =>
      { table, path := key, closed := key :: document.closed }

/-- Opens a new table of an array of tables. Tables inside the one before may be opened again. -/
def append? (document : Document) (key : List Text) : Option Document :=
  (addTable? document.table key).map fun table =>
    { table, path := key, closed := key :: document.closed.filter (!key.isPrefixOf ·) }

/-- Gives a key of the open table a value. -/
def give? (document : Document) (key : List Text) (value : Value) : Option Document :=
  (Toml.assign? value document.table (document.path ++ key)).map fun table =>
    let paths := (List.range key.length).map fun n => document.path ++ key.take (n + 1)
    { document with table, closed := paths ++ document.closed }

end Document

/-- Reads the lines of a document. -/
def readLines? (fuel : Nat) (document : Document) (text : Text) : Option Table :=
  match fuel with
  | 0 => none
  | fuel + 1 =>
    match dropGaps text.length text with
    | [] => some document.table
    | '[' :: '[' :: rest => do
      let (key, rest) ← readKey? (rest.length + 1) rest
      match rest with
      | ']' :: ']' :: later =>
        if lineEnds later then readLines? fuel (← document.append? key) later else none
      | _ => none
    | '[' :: rest => do
      let (key, rest) ← readKey? (rest.length + 1) rest
      match rest with
      | ']' :: later =>
        if lineEnds later then readLines? fuel (← document.enter? key) later else none
      | _ => none
    | start => do
      let (key, rest) ← readKey? (start.length + 1) start
      match rest with
      | '=' :: rest =>
        let (value, later) ← readValue? (rest.length + 1) (dropSpaces rest)
        if lineEnds later then readLines? fuel (← document.give? key value) later else none
      | _ => none

/-- Reads a document. -/
def parse? (text : Text) : Option Table :=
  let text := Yaml.unifyBreaks text
  readLines? (text.length + 1) {} text

end RootedGlob.Toml
