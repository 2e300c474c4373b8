/-!
Contract: the arguments of the program.

Owns: the switches and valued options with their spellings, the reading of an
argument list, and the texts that describe the program.

Does not own: what the program does with its arguments (`CommandLine/Run.lean`).

Arguments are read from left to right, and the first one that is not in order, or
that asks for a description, decides. A value may stand in the same argument
(`--with=x`, `-wx`, `-w=x`) or in the next one, where it must not look like an
option. Switches and options that are not lists must not be repeated.
-/

set_option autoImplicit false

namespace EagerLoad.CommandLine

/-- What the program was asked to do. -/
structure Arguments where
  fixture : String
  entity : String
  withPaths : List String := []
  withAll : Bool := false
  withAllRecursive : Bool := false
  withRecursive : List String := []
  depth : Option Nat := none
  find : Option String := none
  first : Bool := false
  fillUnloaded : Bool := false
  idField : Option String := none
  compact : Bool := false
  deriving DecidableEq, Repr

inductive Switch where
  | withAll
  | withAllRecursive
  | first
  | fillUnloaded
  | compact
  deriving DecidableEq, Repr

inductive Setting where
  | fixture
  | entity
  | withPath
  | withRecursive
  | depth
  | find
  | idField
  deriving DecidableEq, Repr

/-- Texts that the program prints about itself. -/
inductive Description where
  | version
  | help
  deriving DecidableEq, Repr

/-- What a spelling of an option stands for. -/
inductive OptionKind where
  | switch (switch : Switch)
  | setting (setting : Setting)
  | description (description : Description)
  deriving DecidableEq, Repr

def longOption? : String → Option OptionKind
  | "fixture" => some (.setting .fixture)
  | "entity" => some (.setting .entity)
  | "with" => some (.setting .withPath)
  | "with-all" => some (.switch .withAll)
  | "with-all-recursive" => some (.switch .withAllRecursive)
  | "with-recursive" => some (.setting .withRecursive)
  | "depth" => some (.setting .depth)
  | "find" => some (.setting .find)
  | "first" => some (.switch .first)
  | "fill-unloaded" => some (.switch .fillUnloaded)
  | "id-field" => some (.setting .idField)
  | "compact" => some (.switch .compact)
  | "version" => some (.description .version)
  | "help" => some (.description .help)
  | _ => none

def shortOption? : Char → Option OptionKind
  | 'f' => some (.setting .fixture)
  | 'e' => some (.setting .entity)
  | 'w' => some (.setting .withPath)
  | 'V' => some (.description .version)
  | 'h' => some (.description .help)
  | _ => none

/-- Why an argument list is not a request to run. -/
inductive Stop where
  | notInOrder
  | describe (description : Description)
  deriving DecidableEq, Repr

structure Draft where
  fixture : Option String := none
  entity : Option String := none
  withPaths : List String := []
  withRecursive : List String := []
  depth : Option Nat := none
  find : Option String := none
  idField : Option String := none
  switches : List Switch := []

/-- One past the greatest number that an option takes. -/
def numberLimit : Nat := Nat.pow 2 64

/-- The number that digits spell, with a plus sign or without. -/
def number? (text : String) : Option Nat :=
  let digits := match text.toList with
    | '+' :: rest => rest
    | chars => chars
  let value := digits.foldl (fun value digit => 10 * value + (digit.toNat - '0'.toNat)) 0
  if !digits.isEmpty && digits.all Char.isDigit && value < numberLimit then some value else none

namespace Draft

def once {α : Type} (present : Option α) (set : Draft) : Except Stop Draft :=
  match present with
  | none => .ok set
  | some _ => .error .notInOrder

/-- Sets a valued option. A path of a file must not be empty, and a depth must be a
number. -/
def setValue (draft : Draft) (setting : Setting) (value : String) : Except Stop Draft :=
  match setting with
  | .fixture =>
      if value.isEmpty then .error .notInOrder
      else once draft.fixture { draft with fixture := some value }
  | .entity => once draft.entity { draft with entity := some value }
  | .withPath => .ok { draft with withPaths := draft.withPaths ++ [value] }
  | .withRecursive => .ok { draft with withRecursive := draft.withRecursive ++ [value] }
  | .depth =>
      match number? value with
      | some depth => once draft.depth { draft with depth := some depth }
      | none => .error .notInOrder
  | .find => once draft.find { draft with find := some value }
  | .idField => once draft.idField { draft with idField := some value }

def setSwitch (draft : Draft) (switch : Switch) : Except Stop Draft :=
  if draft.switches.contains switch then .error .notInOrder
  else .ok { draft with switches := switch :: draft.switches }

/-- The arguments, when everything needed is there and nothing excludes another. -/
def finish (draft : Draft) : Except Stop Arguments :=
  match draft.fixture, draft.entity with
  | some fixture, some entity =>
      if draft.find.isSome && draft.switches.contains .first then .error .notInOrder
      else
        .ok
          { fixture, entity
            withPaths := draft.withPaths
            withAll := draft.switches.contains .withAll
            withAllRecursive := draft.switches.contains .withAllRecursive
            withRecursive := draft.withRecursive
            depth := draft.depth
            find := draft.find
            first := draft.switches.contains .first
            fillUnloaded := draft.switches.contains .fillUnloaded
            idField := draft.idField
            compact := draft.switches.contains .compact }
  | _, _ => .error .notInOrder

end Draft

/-- The options read so far, and the one whose value must come next. -/
structure Progress where
  draft : Draft := {}
  awaiting : Option Setting := none

/-- Reads an argument behind `--`: a name and perhaps a value behind the first
equals sign. -/
def readLong (draft : Draft) (chars : List Char) : Except Stop Progress :=
  let name := chars.takeWhile (· != '=')
  match longOption? (String.ofList name), chars.dropWhile (· != '=') with
  | some (.switch switch), [] => (draft.setSwitch switch).map fun draft => { draft }
  | some (.description description), [] => .error (.describe description)
  | some (.setting setting), [] => .ok { draft, awaiting := some setting }
  | some (.setting setting), _ :: value =>
      (draft.setValue setting (String.ofList value)).map fun draft => { draft }
  | _, _ => .error .notInOrder

/-- Reads an argument behind a single `-`: a letter, and perhaps a value behind it. -/
def readShort (draft : Draft) : List Char → Except Stop Progress
  | [] => .error .notInOrder
  | letter :: rest =>
      match shortOption? letter with
      | some (.setting setting) =>
          match rest with
          | [] => .ok { draft, awaiting := some setting }
          | '=' :: value =>
              (draft.setValue setting (String.ofList value)).map fun draft => { draft }
          | value => (draft.setValue setting (String.ofList value)).map fun draft => { draft }
      | some (.description description) => .error (.describe description)
      | some (.switch _) | none => .error .notInOrder

/-- Reads an argument: an option, or the value of the option before it. -/
def readArgument (progress : Progress) (argument : String) : Except Stop Progress :=
  match argument.toList, progress.awaiting with
  | '-' :: '-' :: chars, none => readLong progress.draft chars
  | '-' :: letter :: chars, none => readShort progress.draft (letter :: chars)
  | '-' :: _ :: _, some _ => .error .notInOrder
  | _, some setting => (progress.draft.setValue setting argument).map fun draft => { draft }
  | _, none => .error .notInOrder

/-- Reads the remaining arguments. Behind `--` there may be no more. -/
def readAll (progress : Progress) : List String → Except Stop Arguments
  | [] =>
      match progress.awaiting with
      | some _ => .error .notInOrder
      | none => progress.draft.finish
  | "--" :: rest =>
      if progress.awaiting.isSome || !rest.isEmpty then .error .notInOrder
      else progress.draft.finish
  | argument :: rest =>
      match readArgument progress argument with
      | .ok progress => readAll progress rest
      | .error stop => .error stop

def Arguments.ofList (arguments : List String) : Except Stop Arguments :=
  readAll {} arguments

def programName : String := "relgraph"

def programVersion : String := "0.1.0"

def helpLines : List String :=
  ["Eager-load related records from a JSON fixture",
   "",
   "Usage: " ++ programName ++ " [OPTIONS] --fixture <FIXTURE> --entity <ENTITY>",
   "",
   "Options:",
   "  -f, --fixture <FIXTURE>      Fixture file with `schema`, `data` and an optional `config`",
   "  -e, --entity <ENTITY>        Root entity type",
   "  -w, --with <PATH>            Relation path to load, e.g. `posts.comments|likes` (repeatable)",
   "      --with-all               Load every relation of the root type",
   "      --with-all-recursive     Load every relation at every level",
   "      --with-recursive <NAME>  Relation to follow at every level (repeatable)",
   "      --depth <DEPTH>          Depth limit for recursive loads (unbounded when omitted)",
   "      --find <ID>              Only the record with this identity",
   "      --first                  Only the first record",
   "      --fill-unloaded          Materialize relations that were not requested as null / []",
   "      --id-field <FIELD>       Name of the injected identity key",
   "      --compact                Print compact JSON",
   "  -h, --help                   Print help",
   "  -V, --version                Print version"]

def Description.text : Description → String
  | .version => programName ++ " " ++ programVersion ++ "\n"
  | .help => "\n".intercalate helpLines ++ "\n"

end EagerLoad.CommandLine
