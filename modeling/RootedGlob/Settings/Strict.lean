import RootedGlob.Json.Quoted
import RootedGlob.Settings

/-!
# Settings written in JSON

Settings can be written as an object, or as an array that gives the fields by position. No value is
converted: texts have to be strings, flags booleans, and the number of threads a positive integer
below two to the power of 64. A field that is left out has its default, an unknown one is passed
over, and of a name given twice the last one counts.
-/

namespace RootedGlob.Settings

/-- The names of the fields, in the order in which an array gives them. -/
def fieldNames : List Text :=
  ["folders", "workspace_file", "include", "exclude", "hidden", "git_ignore", "thread_count",
    "log_level"].map String.toList

/-- One more than the largest number of threads. -/
def threadLimit : Nat := UInt64.size

namespace Strict

def folders? : Option Json → Option (List Text)
  | none => some []
  | some (.array items) => items.mapM Json.text?
  | some _ => none

def text? : Option Json → Option (Option Text)
  | none => some none
  | some .null => some none
  | some value => value.text?.map some

def flag? (fallback : Bool) : Option Json → Option Bool
  | none => some fallback
  | some (.bool value) => some value
  | some _ => none

/-- The natural number that a text of digits writes. -/
def natural? (literal : Text) : Option Nat :=
  if literal ≠ [] ∧ literal.all Char.isDigit then (String.ofList literal).toNat? else none

def threads? : Option Json → Option (Option Nat)
  | none => some none
  | some .null => some none
  | some (.number literal) =>
    (natural? literal).bind fun count =>
      if 0 < count ∧ count < threadLimit then some (some count) else none
  | some _ => none

/-- Settings from fields by position. -/
def ofFields? (field : Nat → Option Json) : Option Settings := do
  return {
    folders := ← folders? (field 0)
    workspaceFile := ← text? (field 1)
    included := ← text? (field 2)
    excluded := ← text? (field 3)
    hidden := ← flag? false (field 4)
    ignoreFiles := ← flag? true (field 5)
    threads := ← threads? (field 6)
    logLevel := ← text? (field 7) }

end Strict

/-- Reads settings from a JSON value. -/
def ofJson? : Json → Option Settings
  | .object members => do
    let members ← Json.decodeNames? members
    Strict.ofFields? fun i => fieldNames[i]?.bind fun name => members.reverse.lookup name
  | .array items =>
    if fieldNames.length < items.length then none else Strict.ofFields? fun i => items[i]?
  | _ => none

end RootedGlob.Settings
