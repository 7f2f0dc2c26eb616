import RootedGlob.Settings.Strict
import RootedGlob.Value

/-!
# Settings from values

Settings are read from the values of configuration files by converting them: a flag may be written
as a word or a number, a text as a number or a flag, a number of threads as a text, a flag or a
decimal number. A field that is left out has its default, an optional field may be null, and an
unknown name is passed over.
-/

namespace RootedGlob.Settings

namespace Reading

def isYes (word : Text) : Bool := ["true", "on", "yes"].any fun yes => word == yes.toList

def isNo (word : Text) : Bool := ["false", "off", "no"].any fun no => word == no.toList

def flag? : Value → Option Bool
  | .bool value => some value
  | .integer value => some (value != 0)
  | .decimal value => some (value != 0)
  | .text word =>
    let word := Decimal.lower word
    if isYes word ∨ word = ['1'] then some true
    else if isNo word ∨ word = ['0'] then some false
    else none
  | _ => none

def text? : Value → Option Text
  | .text text => some text
  | .bool value => some (if value then "true" else "false").toList
  | .integer value => some (toString value).toList
  | .decimal value => some (Decimal.shortest value)
  | _ => none

/-- Reads an optional field. -/
def optional? {α : Type} (read? : Value → Option α) : Option Value → Option (Option α)
  | none => some none
  | some .null => some none
  | some value => (read? value).map some

/-- The number that a text writes, with an optional plus. -/
def countOfText? (text : Text) : Option Nat :=
  let word := Decimal.lower text
  if isYes word then some 1
  else if isNo word then some 0
  else
    match text with
    | '+' :: digits => Strict.natural? digits
    | digits => Strict.natural? digits

/-- The whole number next to a decimal one, between zero and the largest count. -/
def countOfDecimal (value : Float) : Nat := value.round.toUInt64.toNat

def threads? (value : Value) : Option Nat :=
  let count :=
    match value with
    | .integer value => if value < 0 then none else some value.toNat
    | .text text => countOfText? text
    | .bool value => some (if value then 1 else 0)
    | .decimal value => some (countOfDecimal value)
    | _ => none
  count.filter fun count => 0 < count && count < threadLimit

def folders? : Option Value → Option (List Text)
  | none => some []
  | some (.sequence items) => items.mapM text?
  | some _ => none

def flagOr? (fallback : Bool) : Option Value → Option Bool
  | none => some fallback
  | some value => flag? value

end Reading

/-- Reads settings from a table. -/
def ofTable? (table : Table) : Option Settings := do
  let field (name : String) := table.lookup name.toList
  return {
    folders := ← Reading.folders? (field "folders")
    workspaceFile := ← Reading.optional? Reading.text? (field "workspace_file")
    included := ← Reading.optional? Reading.text? (field "include")
    excluded := ← Reading.optional? Reading.text? (field "exclude")
    hidden := ← Reading.flagOr? false (field "hidden")
    ignoreFiles := ← Reading.flagOr? true (field "git_ignore")
    threads := ← Reading.optional? Reading.threads? (field "thread_count")
    logLevel := ← Reading.optional? Reading.text? (field "log_level") }

end RootedGlob.Settings
