import RootedGlob.Decimal

/-!
# Values of configuration files

Configuration files of every format are read into the same values. A later table is layered over an
earlier one name by name. A table under a name is merged into what stands there, so an empty one
changes nothing; any other value replaces what stands there, the null value and sequences included.
-/

namespace RootedGlob

inductive Value where
  | null
  | bool (value : Bool)
  | integer (value : Int)
  | decimal (value : Float)
  | text (value : Text)
  | sequence (items : List Value)
  | table (members : List (Text × Value))
deriving Inhabited

/-- The members of a table; every name occurs once. -/
abbrev Table := List (Text × Value)

namespace Table

/-- Replaces the value of a name; a new name comes last. -/
def set (name : Text) (value : Value) : Table → Table
  | [] => [(name, value)]
  | (other, old) :: rest =>
    if other = name then (name, value) :: rest else (other, old) :: set name value rest

/-- The table of some members, of which the last one of each name counts. -/
def ofMembers (members : List (Text × Value)) : Table :=
  members.foldl (fun table (name, value) => set name value table) []

mutual

/-- Layers one member over a table. -/
def put (table : Table) (name : Text) : Value → Table
  | .table members =>
    let old := (table.lookup name).getD (.table [])
    match old with
    | .table inner => set name (.table (overlay inner members)) table
    | old => set name (if members.isEmpty then old else .table (overlay [] members)) table
  | value => set name value table

/-- Layers members over a table, one after the other. -/
def overlay (table : Table) : List (Text × Value) → Table
  | [] => table
  | (name, value) :: rest => overlay (put table name value) rest

end

end Table

end RootedGlob
