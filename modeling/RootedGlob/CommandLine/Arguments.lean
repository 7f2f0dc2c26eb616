import RootedGlob.Settings.Strict

/-!
# Command line arguments

A command line names one command; options stand before or behind its name, those that only some
commands know behind it. A value follows its option as the next argument, behind an equals sign, or,
for an option of one letter, directly. An argument that starts with a hyphen is never a value of its
own. Two hyphens end the options. An option may be given once on each side of the command, except
the folders, which add up.
-/

namespace RootedGlob.CommandLine

inductive Flag where
  | config
  | json
  | logLevel
  | folder
  | workspace
  | find
  | includes
  | excludes
  | hidden
  | noIgnore
  | threads
  | stats
deriving DecidableEq, Repr

namespace Flag

def long : Flag → Text
  | config => "config".toList
  | json => "json".toList
  | logLevel => "log-level".toList
  | folder => "folder".toList
  | workspace => "workspace".toList
  | find => "find".toList
  | includes => "include".toList
  | excludes => "exclude".toList
  | hidden => "hidden".toList
  | noIgnore => "no-ignore".toList
  | threads => "threads".toList
  | stats => "stats".toList

def short? : Flag → Option Char
  | folder => some 'f'
  | workspace => some 'w'
  | includes => some 'i'
  | excludes => some 'e'
  | threads => some 'j'
  | stats => some 's'
  | _ => none

def takesValue : Flag → Bool
  | json => false
  | hidden => false
  | noIgnore => false
  | stats => false
  | _ => true

/-- The flags that every command knows. -/
def common : List Flag := [config, json, logLevel]

def ofFolders : List Flag := [folder, workspace]

end Flag

/-- Which folders a command works on. -/
structure FolderChoice where
  folders : List Text := []
  workspaceFile : Option Text := none
deriving DecidableEq, Repr

inductive Command where
  | split (pattern : Text)
  | convert (pattern : Text) (choice : FolderChoice)
  | scope (find included excluded : Option Text) (choice : FolderChoice)
  | files (included excluded : Option Text) (hidden noIgnore : Bool) (threads : Option Nat)
      (stats : Bool) (choice : FolderChoice)
deriving DecidableEq, Repr

structure Arguments where
  config : Option Text := none
  json : Bool := false
  logLevel : Option Text := none
  command : Command
deriving DecidableEq, Repr

/-- Options with their values; a flag has an empty one. -/
abbrev Given := List (Flag × Text)

/-- Reads an argument of letters: the options in it, and the one whose value is still to come. -/
def readLetters? (known : List Flag) : Text → Option (Given × Option Flag)
  | [] => some ([], none)
  | letter :: rest =>
    (known.find? fun flag => flag.short? == some letter).bind fun flag =>
      if flag.takesValue then
        match rest with
        | [] => some ([], some flag)
        | '=' :: value => some ([(flag, value)], none)
        | value => some ([(flag, value)], none)
      else
        (readLetters? known rest).map fun (given, pending) => ((flag, []) :: given, pending)

/-- Reads an argument that starts with two hyphens. -/
def readWord? (known : List Flag) (word : Text) : Option (Given × Option Flag) :=
  let name := word.takeWhile (· != '=')
  let value := (Text.cutAt? '=' word).map (·.2)
  (known.find? fun flag => flag.long == name).bind fun flag =>
    match flag.takesValue, value with
    | true, some value => some ([(flag, value)], none)
    | true, none => some ([], some flag)
    | false, none => some ([(flag, [])], none)
    | false, some _ => none

/-- Whether an argument can be a value of its own. -/
def isValue (argument : Text) : Bool := argument.head? != some '-' || argument == ['-']

/-- What one side of the command holds: options, other arguments, and for the side before the
command all arguments from its name on. -/
structure Side where
  given : Given := []
  values : List Text := []
  behind : List Text := []
deriving DecidableEq, Repr

/-- Reads one side. `named` says that the first argument that is no option is the name of the
command, and `pending` is the option whose value comes next. -/
def readSide? (known : List Flag) (named : Bool) (pending : Option Flag) :
    List Text → Option Side
  | [] => if pending.isSome then none else some {}
  | argument :: rest =>
    match pending with
    | some flag =>
      if isValue argument then
        (readSide? known named none rest).map fun side =>
          { side with given := (flag, argument) :: side.given }
      else none
    | none =>
      let add (found : Option (Given × Option Flag)) : Option Side :=
        found.bind fun (given, pending) =>
          (readSide? known named pending rest).map fun side =>
            { side with given := given ++ side.given }
      match argument with
      | ['-', '-'] => if named then none else some { values := rest }
      | '-' :: '-' :: word => add (readWord? known word)
      | ['-'] =>
        if named then some { behind := argument :: rest }
        else
          (readSide? known named none rest).map fun side =>
            { side with values := argument :: side.values }
      | '-' :: letters => add (readLetters? known letters)
      | argument =>
        if named then some { behind := argument :: rest }
        else
          (readSide? known named none rest).map fun side =>
            { side with values := argument :: side.values }

namespace Given

def valuesOf (given : Given) (flag : Flag) : List Text :=
  given.filterMap fun (other, value) => if other = flag then some value else none

def last? (given : Given) (flag : Flag) : Option Text := (valuesOf given flag).getLast?

def has (given : Given) (flag : Flag) : Bool := (last? given flag).isSome

/-- Whether no option is given twice, except folders. -/
def isSingle (given : Given) : Bool :=
  List.all given fun (flag, _) => flag == .folder || (valuesOf given flag).length == 1

/-- Whether options that name a file have a value. -/
def namesFiles (given : Given) : Bool :=
  List.all given fun (flag, value) => !(flag == .config || flag == .workspace) || !value.isEmpty

end Given

def choiceOf (given : Given) : FolderChoice where
  folders := Given.valuesOf given .folder
  workspaceFile := Given.last? given .workspace

/-- The number of threads; a failure if it is given and no positive number. -/
def threadsOf? (given : Given) : Option (Option Nat) :=
  match Given.last? given .threads with
  | none => some none
  | some text =>
    let digits :=
      match text with
      | '+' :: digits => digits
      | digits => digits
    (Settings.Strict.natural? digits).bind fun count =>
      if 0 < count ∧ count < Settings.threadLimit then some (some count) else none

/-- Reads the side behind the name of a command. -/
def readCommand? (name : Text) (arguments : List Text) : Option (Command × Given) := do
  let side (known : List Flag) : Option Side :=
    (readSide? (Flag.common ++ known) false none arguments).filter fun side =>
      Given.isSingle side.given && Given.namesFiles side.given
  match String.ofList name with
  | "split" =>
    let side ← side []
    match side.values with
    | [pattern] => some (.split pattern, side.given)
    | _ => none
  | "convert" =>
    let side ← side Flag.ofFolders
    match side.values with
    | [pattern] => some (.convert pattern (choiceOf side.given), side.given)
    | _ => none
  | "scope" =>
    let side ← side ([.find, .includes, .excludes] ++ Flag.ofFolders)
    let value := Given.last? side.given
    if side.values.isEmpty then
      some (.scope (value .find) (value .includes) (value .excludes) (choiceOf side.given),
        side.given)
    else none
  | "files" =>
    let side ← side
      ([.includes, .excludes, .hidden, .noIgnore, .threads, .stats] ++ Flag.ofFolders)
    let value := Given.last? side.given
    let has := Given.has side.given
    let threads ← threadsOf? side.given
    if side.values.isEmpty then
      some (.files (value .includes) (value .excludes) (has .hidden) (has .noIgnore) threads
        (has .stats) (choiceOf side.given), side.given)
    else none
  | _ => none

/-- Reads a command line; none if it cannot be understood. -/
def Arguments.ofList? (arguments : List Text) : Option Arguments := do
  let before ← readSide? Flag.common true none arguments
  if !(Given.isSingle before.given && Given.namesFiles before.given) then none
  match before.behind with
  | [] => none
  | name :: rest =>
    let (command, behind) ← readCommand? name rest
    let value (flag : Flag) : Option Text :=
      (Given.last? behind flag).or (Given.last? before.given flag)
    return {
      config := value .config
      json := (value .json).isSome
      logLevel := value .logLevel
      command }

end RootedGlob.CommandLine
