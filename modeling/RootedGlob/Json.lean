import RootedGlob.Json.Token

/-!
# JSON values

A JSON value keeps numbers and strings as they were written, members in their order, and members of
one name apart. Reading goes through the tokens one at a time; the containers that are still open
form a stack of frames.
-/

namespace RootedGlob

inductive Json where
  | null
  | bool (value : Bool)
  /-- A number as it was written. -/
  | number (literal : Text)
  /-- A string as it was written, without its quotes. -/
  | string (raw : Text)
  | array (items : List Json)
  | object (members : List (Text × Json))
deriving Repr, Inhabited

namespace Json

/-- An open container: its items or members, the last one first, and for an object the name whose
value is being read. -/
inductive Frame where
  | array (items : List Json)
  | object (members : List (Text × Json)) (name : Text)

/-- What may come next. -/
inductive Expectation where
  | value
  | itemOrEnd
  | nameOrEnd
  | name (members : List (Text × Json))
  | colon (members : List (Text × Json)) (name : Text)
  /-- A value was read; a comma or the end of its container comes next. -/
  | behind (value : Json)

structure Reader where
  frames : List Frame := []
  expected : Expectation := .value

namespace Reader

/-- Reads the first token of a value. -/
def begin? (frames : List Frame) (token : Token) : Option Reader :=
  match token with
  | .openArray => some ⟨.array [] :: frames, .itemOrEnd⟩
  | .openObject => some ⟨frames, .nameOrEnd⟩
  | .null => some ⟨frames, .behind .null⟩
  | .bool value => some ⟨frames, .behind (.bool value)⟩
  | .number literal => some ⟨frames, .behind (.number literal)⟩
  | .string raw => some ⟨frames, .behind (.string raw)⟩
  | _ => none

/-- Reads one token. -/
def read? (reader : Reader) (token : Token) : Option Reader :=
  match reader.frames, reader.expected, token with
  | frames, .value, token => begin? frames token
  | .array [] :: frames, .itemOrEnd, .closeArray => some ⟨frames, .behind (.array [])⟩
  | frames, .itemOrEnd, token => begin? frames token
  | frames, .nameOrEnd, .closeObject => some ⟨frames, .behind (.object [])⟩
  | frames, .nameOrEnd, .string name => some ⟨frames, .colon [] name⟩
  | frames, .name members, .string name => some ⟨frames, .colon members name⟩
  | frames, .colon members name, .colon => some ⟨.object members name :: frames, .value⟩
  | .array items :: frames, .behind value, .comma =>
    some ⟨.array (value :: items) :: frames, .value⟩
  | .array items :: frames, .behind value, .closeArray =>
    some ⟨frames, .behind (.array (value :: items).reverse)⟩
  | .object members name :: frames, .behind value, .comma =>
    some ⟨frames, .name ((name, value) :: members)⟩
  | .object members name :: frames, .behind value, .closeObject =>
    some ⟨frames, .behind (.object ((name, value) :: members).reverse)⟩
  | _, _, _ => none

end Reader

/-- The value that a list of tokens writes. -/
def ofTokens? (tokens : List Token) : Option Json :=
  match tokens.foldlM Reader.read? {} with
  | some ⟨[], .behind value⟩ => some value
  | _ => none

/-- The value that a text writes. -/
def parse? (text : Text) : Option Json := (tokens? text).bind ofTokens?

mutual

/-- The tokens that write a value. -/
def tokens : Json → List Token
  | .null => [.null]
  | .bool value => [.bool value]
  | .number literal => [.number literal]
  | .string raw => [.string raw]
  | .array items => .openArray :: tokensOfItems items ++ [.closeArray]
  | .object members => .openObject :: tokensOfMembers members ++ [.closeObject]

def tokensOfItems : List Json → List Token
  | [] => []
  | [item] => item.tokens
  | item :: items => item.tokens ++ .comma :: tokensOfItems items

def tokensOfMembers : List (Text × Json) → List Token
  | [] => []
  | [(name, value)] => .string name :: .colon :: value.tokens
  | (name, value) :: members =>
    .string name :: .colon :: value.tokens ++ .comma :: tokensOfMembers members

end

end Json

end RootedGlob
