import RootedGlob.Environment
import RootedGlob.Error
import RootedGlob.Settings.Reading
import RootedGlob.Toml
import RootedGlob.Yaml

/-!
# Configuration files

Settings come from up to three files: a global one, one in the current directory, and one that is
named explicitly, which has to exist. The format of a file follows from its extension; a name
without a file is tried with each known extension behind it. Every file is read before any value is
converted, later files are layered over earlier ones name by name, and only what is left then has to
be valid.
-/

namespace RootedGlob.Settings

inductive Format where
  | toml
  | json
  | yaml
deriving DecidableEq, Repr

/-- The known extensions, in the order in which they are tried. -/
def extensions : List (Text × Format) :=
  [("toml".toList, .toml), ("json".toList, .json), ("yaml".toList, .yaml), ("yml".toList, .yaml)]

/-- How deep containers may be nested in a JSON file. -/
def maxDepth : Nat := 127

/-- The value of a number in a JSON file. -/
def numberValue? (literal : Text) : Option Value :=
  match if literal = "-0".toList then none else Yaml.integer? literal with
  | some value => some (.integer value)
  | none => (Decimal.read? literal).bind fun value =>
      if value.isInf then none else some (.decimal value)

mutual

/-- The value of a JSON file. -/
def valueOfJson? (depth : Nat) : Json → Option Value
  | .null => some .null
  | .bool value => some (.bool value)
  | .number literal => numberValue? literal
  | .string raw => (Json.decode? raw).map .text
  | .array items => if depth = 0 then none else (valuesOfItems? (depth - 1) items).map .sequence
  | .object members =>
    if depth = 0 then none
    else (valuesOfMembers? (depth - 1) members).map fun members => .table (Table.ofMembers members)

def valuesOfItems? (depth : Nat) : List Json → Option (List Value)
  | [] => some []
  | item :: items => do
    let value ← valueOfJson? depth item
    let values ← valuesOfItems? depth items
    return value :: values

def valuesOfMembers? (depth : Nat) : List (Text × Json) → Option (List (Text × Value))
  | [] => some []
  | (name, value) :: members => do
    let name ← Json.decode? name
    let value ← valueOfJson? depth value
    let values ← valuesOfMembers? depth members
    return (name, value) :: values

end

/-- The members of a value; anything but a table has none. -/
def members : Value → Table
  | .table members => members
  | _ => []

/-- Reads the text of a configuration file. -/
def parse? (format : Format) (text : Text) : Option Table :=
  match format with
  | .toml => Toml.parse? text
  | .json => ((Json.parse? text).bind (valueOfJson? maxDepth)).map members
  | .yaml => (Yaml.parse? text).map members

/-- The format that the extension of a path names. -/
def formatOf? (path : Text) : Option Format :=
  ((Path.fileName? path).bind Path.extension?).bind fun extension => extensions.lookup extension

/-- A path with a further extension. -/
def withExtension (path extension : Text) : Text :=
  (Path.trimBackwards path.reverse).reverse ++ '.' :: extension

/-- Finds a configuration file and its format. -/
def findFile (disk : Disk) (name : Text) : Except ConfigurationFault (Text × Format) :=
  let path := Path.under disk.currentPath name
  if disk.isFile path then
    match formatOf? path with
    | some format => .ok (path, format)
    | none => .error (.unknownFormat path)
  else
    let candidates :=
      if (Path.fileName? path).isSome then
        extensions.map fun (extension, format) => (withExtension path extension, format)
      else []
    match candidates.find? fun (path, _) => disk.isFile path with
    | some found => .ok found
    | none => .error (.missing name)

/-- Reads a configuration file. -/
def readFile (disk : Disk) (name : Text) : Except ConfigurationFault Table := do
  let (path, format) ← findFile disk name
  let text ← (disk.readText path).mapError fun _ => .malformed
  match parse? format text with
  | some table => .ok table
  | none => .error .malformed

/-- The global configuration file, as a path below the directory of configuration files. -/
def globalFile : Text := "wsglob/config.yaml".toList

/-- The configuration file of the current directory. -/
def localFile : Text := ".wsglob.yaml".toList

/-- The configuration files in the order of layering. -/
def sources (env : Environment) (explicit : Option Text) : List Text :=
  let global := env.configDirectory?.map fun directory => Path.under directory globalFile
  (global.toList ++ [localFile]).filter env.disk.exists? ++ explicit.toList

/-- The settings that some files give together. -/
def ofTables (tables : List Table) : Except ConfigurationFault Settings :=
  match ofTable? (tables.foldl Table.overlay []) with
  | some settings => .ok settings
  | none => .error .malformed

/-- Loads the settings of all configuration files. -/
def load (env : Environment) (explicit : Option Text) : Except Error Settings :=
  (do
    let tables ← (sources env explicit).mapM (readFile env.disk)
    ofTables tables : Except ConfigurationFault Settings).mapError .configuration

end RootedGlob.Settings
