import RootedGlob.Json.Quoted

/-!
# Writing JSON

A value is written either without gaps or over several lines. Over several lines every item and
every member has a line of its own, indented by two spaces for each open container, and an empty
container stays on one line.
-/

namespace RootedGlob.Json

mutual

/-- Writes a value without gaps. -/
def compact : Json → Text
  | .null => "null".toList
  | .bool value => (if value then "true" else "false").toList
  | .number literal => literal
  | .string raw => '"' :: raw ++ ['"']
  | .array items => '[' :: compactItems items ++ [']']
  | .object members => '{' :: compactMembers members ++ ['}']

def compactItems : List Json → Text
  | [] => []
  | [item] => item.compact
  | item :: items => item.compact ++ ',' :: compactItems items

def compactMembers : List (Text × Json) → Text
  | [] => []
  | [(name, value)] => '"' :: name ++ '"' :: ':' :: value.compact
  | (name, value) :: members =>
    '"' :: name ++ '"' :: ':' :: value.compact ++ ',' :: compactMembers members

end

/-- The start of a line inside `depth` containers. -/
def newLine (depth : Nat) : Text := '\n' :: List.replicate (2 * depth) ' '

mutual

/-- Writes a value over several lines. -/
def pretty (depth : Nat) : Json → Text
  | .null => "null".toList
  | .bool value => (if value then "true" else "false").toList
  | .number literal => literal
  | .string raw => '"' :: raw ++ ['"']
  | .array [] => ['[', ']']
  | .array items =>
    '[' :: newLine (depth + 1) ++ prettyItems (depth + 1) items ++ newLine depth ++ [']']
  | .object [] => ['{', '}']
  | .object members =>
    '{' :: newLine (depth + 1) ++ prettyMembers (depth + 1) members ++ newLine depth ++ ['}']

def prettyItems (depth : Nat) : List Json → Text
  | [] => []
  | [item] => item.pretty depth
  | item :: items => item.pretty depth ++ ',' :: newLine depth ++ prettyItems depth items

def prettyMembers (depth : Nat) : List (Text × Json) → Text
  | [] => []
  | [(name, value)] => '"' :: name ++ '"' :: ':' :: ' ' :: value.pretty depth
  | (name, value) :: members =>
    '"' :: name ++ '"' :: ':' :: ' ' :: value.pretty depth
      ++ ',' :: newLine depth ++ prettyMembers depth members

end

end RootedGlob.Json
