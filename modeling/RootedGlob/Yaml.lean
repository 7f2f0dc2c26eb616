import RootedGlob.Yaml.Token

/-!
# YAML documents

The tokens of a document are read into a value. A key or a dash with nothing behind it has the null
value, of a key given twice the last one counts, and members whose key is no text are left out. A
file holds at most one document; an empty one reads as the null value.
-/

namespace RootedGlob.Yaml

/-- The members whose keys are texts. -/
def tableOf (members : List (Value × Value)) : Value :=
  .table (Table.ofMembers (members.filterMap fun (key, value) =>
    match key with
    | .text name => some (name, value)
    | _ => none))

/-- Whether a token ends the place where a value may stand. -/
def endsValue : List Token → Bool
  | [] => true
  | .key _ :: _ => true
  | .blockEnd :: _ => true
  | .item :: _ => true
  | .comma :: _ => true
  | .closeSequence :: _ => true
  | .closeMap :: _ => true
  | .documentStart :: _ => true
  | .documentEnd :: _ => true
  | _ => false

mutual

/-- Reads a value that has to be there. -/
def node? (fuel : Nat) (tokens : List Token) : Option (Value × List Token) :=
  match fuel, tokens with
  | _ + 1, .scalar value :: rest => some (value, rest)
  | fuel + 1, .mapStart :: rest =>
    (members? fuel rest).map fun (members, rest) => (tableOf members, rest)
  | fuel + 1, .sequenceStart :: rest =>
    (items? fuel true rest).map fun (items, rest) => (.sequence items, rest)
  | fuel + 1, .openSequence :: rest =>
    (flowItems? fuel rest).map fun (items, rest) => (.sequence items, rest)
  | fuel + 1, .openMap :: rest =>
    (flowMembers? fuel rest).map fun (members, rest) => (tableOf members, rest)
  | _, _ => none

/-- Reads a value, or the null value where none stands. -/
def optional? (fuel : Nat) (tokens : List Token) : Option (Value × List Token) :=
  match fuel with
  | 0 => none
  | fuel + 1 => if endsValue tokens then some (.null, tokens) else node? fuel tokens

/-- Reads the members of a block up to its end. -/
def members? (fuel : Nat) (tokens : List Token) : Option (List (Value × Value) × List Token) :=
  match fuel, tokens with
  | _ + 1, .blockEnd :: rest => some ([], rest)
  | fuel + 1, .key key :: .item :: rest => do
    let (items, rest) ← items? fuel false (.item :: rest)
    let (members, rest) ← members? fuel rest
    return ((key, .sequence items) :: members, rest)
  | fuel + 1, .key key :: rest => do
    let (value, rest) ← optional? fuel rest
    let (members, rest) ← members? fuel rest
    return ((key, value) :: members, rest)
  | _, _ => none

/-- Reads the items of a sequence, up to the end of its block if it has one of its own. -/
def items? (fuel : Nat) (block : Bool) (tokens : List Token) : Option (List Value × List Token) :=
  match fuel, tokens with
  | 0, _ => none
  | fuel + 1, .item :: rest => do
    let (value, rest) ← optional? fuel rest
    let (items, rest) ← items? fuel block rest
    return (value :: items, rest)
  | _ + 1, tokens =>
    if block then
      match tokens with
      | .blockEnd :: rest => some ([], rest)
      | _ => none
    else some ([], tokens)

/-- Reads the items between brackets. A key among them makes a table of one member. -/
def flowItems? (fuel : Nat) (tokens : List Token) : Option (List Value × List Token) :=
  match fuel, tokens with
  | _ + 1, .closeSequence :: rest => some ([], rest)
  | fuel + 1, tokens => do
    let (value, rest) ←
      match tokens with
      | .key key :: rest =>
        (optional? fuel rest).map fun (value, rest) => (tableOf [(key, value)], rest)
      | tokens => node? fuel tokens
    match rest with
    | .comma :: rest =>
      let (items, rest) ← flowItems? fuel rest
      return (value :: items, rest)
    | .closeSequence :: rest => return ([value], rest)
    | _ => none
  | _, _ => none

/-- Reads the members between braces. A value among them is a key with the null value. -/
def flowMembers? (fuel : Nat) (tokens : List Token) :
    Option (List (Value × Value) × List Token) :=
  match fuel, tokens with
  | _ + 1, .closeMap :: rest => some ([], rest)
  | fuel + 1, tokens => do
    let (member, rest) ←
      match tokens with
      | .key key :: rest => (optional? fuel rest).map fun (value, rest) => ((key, value), rest)
      | tokens => (node? fuel tokens).map fun (key, rest) => ((key, Value.null), rest)
    match rest with
    | .comma :: rest =>
      let (members, rest) ← flowMembers? fuel rest
      return (member :: members, rest)
    | .closeMap :: rest => return ([member], rest)
    | _ => none
  | _, _ => none

end

/-- Reads a document without its markers. -/
def document? (fuel : Nat) (tokens : List Token) : Option Value :=
  match tokens with
  | [] => some .null
  | tokens =>
    match node? fuel tokens with
    | some (value, rest) =>
      if rest.all (fun token => token matches .documentEnd) then some value else none
    | none => none

/-- Reads the only document of a text. -/
def parse? (text : Text) : Option Value := do
  let tokens ← tokens? text
  let fuel := 4 * tokens.length + 4
  match tokens.dropWhile (fun token => token matches .documentEnd) with
  | .documentStart :: rest =>
    if rest.all (fun token => token matches .documentEnd) then some .null else document? fuel rest
  | tokens => document? fuel tokens

end RootedGlob.Yaml
