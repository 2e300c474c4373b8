import EagerLoad.Json.Document
import EagerLoad.Text.Quoted

/-!
Contract: reading a JSON document as data of a declared form.

Owns: the two kinds of failure (text that is not JSON, and JSON of another form),
the wording of the second kind, the readers of plain values, and the reading of
records from objects and from arrays of their fields.

Does not own: any particular record. Each record declares its slots beside its
own type.

Every reader walks its document from left to right and reports the first fault
in that order, so a wrong form early in a text is reported although the text
breaks off later.
-/

set_option autoImplicit false

namespace EagerLoad.Json

inductive Found where
  | null
  | bool (flag : Bool)
  | number (content : Number)
  | string (content : String)
  | sequence
  | map

def Found.text : Found → String
  | .null => "null"
  | .bool true => "boolean `true`"
  | .bool false => "boolean `false`"
  | .number (.integer value) => "integer `" ++ Number.integerText value ++ "`"
  | .number (.float value) => "floating point `" ++ Number.floatText value ++ "`"
  | .string content => "string " ++ Text.quoted content
  | .sequence => "sequence"
  | .map => "map"

/-- How a document of sound JSON differs from the declared form. -/
inductive Mismatch where
  | wrongType (found : Found) (expected : String)
  | negativeCount (value : Int)
  | missingField (name : String)
  | duplicateField (name : String)
  | unknownVariant (name : String) (known : List String)
  | wrongLength (length : Nat) (expected : String)

def Mismatch.message : Mismatch → String
  | .wrongType found expected => "invalid type: " ++ found.text ++ ", expected " ++ expected
  | .negativeCount value =>
      "invalid value: integer `" ++ Number.integerText value ++ "`, expected usize"
  | .missingField name => "missing field `" ++ name ++ "`"
  | .duplicateField name => "duplicate field `" ++ name ++ "`"
  | .unknownVariant name known =>
      "unknown variant `" ++ name ++ "`, expected one of "
        ++ ", ".intercalate (known.map fun variant => "`" ++ variant ++ "`")
  | .wrongLength length expected =>
      "invalid length " ++ Nat.repr length ++ ", expected " ++ expected

inductive ReadError where
  | malformed
  | mismatch (cause : Mismatch)

abbrev Reading (α : Type) := Except ReadError α

namespace Reading

def refuse {α : Type} (cause : Mismatch) : Reading α := .error (.mismatch cause)

def malformed {α : Type} : Reading α := .error .malformed

/-- Fails because a document is not of the expected type, unless it is no sound
document in the first place. Arrays and objects are told by their first bracket. -/
def wrongType {α : Type} (document : Document) (expected : String) : Reading α :=
  match document with
  | .null => refuse (.wrongType .null expected)
  | .bool flag => refuse (.wrongType (.bool flag) expected)
  | .number (some content) => refuse (.wrongType (.number content) expected)
  | .string (some content) => refuse (.wrongType (.string content) expected)
  | .array _ _ => refuse (.wrongType .sequence expected)
  | .object _ _ => refuse (.wrongType .map expected)
  | .unreadable | .number none | .string none => malformed

/-! ## Plain values -/

def text : Document → Reading String
  | .string (some content) => .ok content
  | document => wrongType document "a string"

def flag : Document → Reading Bool
  | .bool flag => .ok flag
  | document => wrongType document "a boolean"

def count : Document → Reading Nat
  | .number (some (.integer value)) =>
      if value < 0 then refuse (.negativeCount value) else .ok value.toNat
  | document => wrongType document "usize"

def optional {α : Type} (read : Document → Reading α) : Document → Reading (Option α)
  | .null => .ok none
  | document => (read document).map some

def members (room : Nat) : Document → Reading Members
  | .object entries closed =>
      match Document.value? room (.object entries closed) with
      | some (.object members) => .ok members
      | _ => malformed
  | document => wrongType document "a map"

/-- The items of an array, each read in the room that is left inside it. -/
def listOf {α : Type} (read : Nat → Document → Reading α) (room : Nat) :
    Document → Reading (List α)
  | .array items closed =>
      match room with
      | 0 => malformed
      | inner + 1 => do
          let values ← items.mapM (read inner)
          if closed then .ok values else malformed
  | document => wrongType document "a sequence"

/-! ## Records -/

/-- One field of a record that is being read: whether it is already there, and how
a document fills it. -/
structure Slot (σ : Type) where
  name : String
  isFilled : σ → Bool
  fill : Nat → Document → σ → Reading σ

namespace Slot

/-- The slot for one component of a record: how to see it, set it and read it. -/
def component {σ β : Type} (name : String) (get : σ → Option β) (set : σ → β → σ)
    (read : Nat → Document → Reading β) : Slot σ where
  name := name
  isFilled record := (get record).isSome
  fill room document record := do
    let content ← read room document
    .ok (set record content)

end Slot

def required {β : Type} (position : Nat) (name : String) :
    Option β → Except (Nat × String) β
  | some content => .ok content
  | none => .error (position, name)

/-- The form of a record: its slots in order of declaration, the record before any
field is read, and the record when all are read. A required field that is still
missing is named by its position and its name. -/
structure RecordForm (σ α : Type) where
  typeName : String
  slots : List (Slot σ)
  blank : σ
  finish : σ → Except (Nat × String) α

namespace RecordForm

variable {σ α : Type}

/-- Fills slots by the members of an object. Members of other names are skipped; a
second member of one name is refused before its value is read. -/
def fillMembers (form : RecordForm σ α) (room : Nat) (record : σ) :
    List (Option String × Document) → Reading σ
  | [] => .ok record
  | (none, _) :: _ => malformed
  | (some name, document) :: rest =>
      match form.slots.find? (fun slot => slot.name == name) with
      | none => if document.isReadable then form.fillMembers room record rest else malformed
      | some slot =>
          if slot.isFilled record then refuse (.duplicateField name)
          else do
            let record ← slot.fill room document record
            form.fillMembers room record rest

/-- Fills slots in order of declaration by the items of an array, and gives back
the items that are left. -/
def fillItems (room : Nat) (record : σ) :
    List (Slot σ) → List Document → Reading (σ × List Document)
  | [], items => .ok (record, items)
  | _ :: _, [] => .ok (record, [])
  | slot :: slots, item :: items => do
      let record ← slot.fill room item record
      fillItems room record slots items

/-- The expectation that an array of fields does not meet when it is too short. -/
def arity (form : RecordForm σ α) : String :=
  "struct " ++ form.typeName ++ " with " ++ Nat.repr form.slots.length ++ " elements"

/-- Reads a record from an object, or from an array of its fields in order of
declaration, whose last ones may be absent when they are not required. -/
def read (form : RecordForm σ α) (room : Nat) : Document → Reading α
  | .object entries closed =>
      match room with
      | 0 => malformed
      | inner + 1 => do
          let record ← form.fillMembers inner form.blank entries
          if !closed then malformed
          else match form.finish record with
            | .ok value => .ok value
            | .error (_, name) => refuse (.missingField name)
  | .array items closed =>
      match room with
      | 0 => malformed
      | inner + 1 => do
          let (record, left) ← fillItems inner form.blank form.slots items
          if items.length < form.slots.length && !closed then malformed
          else match form.finish record with
            | .error (position, _) => refuse (.wrongLength position form.arity)
            | .ok value => if left.isEmpty && closed then .ok value else malformed
  | document => wrongType document ("struct " ++ form.typeName)

end RecordForm

def ofText {α : Type} (read : Nat → Document → Reading α) (text : String) : Reading α :=
  match Document.ofText text with
  | (document, complete) => do
      let value ← read Document.nestingLimit document
      if complete then .ok value else malformed

/-- Reads a value that is already in memory, however deep it nests. -/
def ofValue {α : Type} (read : Nat → Document → Reading α) (value : Value) : Reading α :=
  read value.nesting (Document.ofValue value)

end Reading

end EagerLoad.Json
