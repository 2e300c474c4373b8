import EagerLoad.Json.Reading
import EagerLoad.Schema.Basic

/-!
Contract: the JSON form of schemas.

Owns: the readers and writers of entity types, relation kinds, relations and
schemas.

Does not own: the mechanics of reading records (`Json/Reading.lean`).

What a writer leaves out, its reader supplies: an absent `local_key` or
`owner_key` is one that is not set.
-/

set_option autoImplicit false

namespace EagerLoad

open Json
open Json.Reading (Slot RecordForm required refuse malformed text optional listOf)

/-! ## Entity types -/

namespace Entity

structure Draft where
  name : Option String := none
  identityField : Option String := none

/-- The form of an entity type. Only its name is required. -/
def form : RecordForm Draft Entity where
  typeName := "EntityDef"
  slots :=
    [.component "name" (·.name) (fun draft content => { draft with name := some content })
      (fun _ => text),
     .component "identity_field" (·.identityField)
      (fun draft content => { draft with identityField := some content }) (fun _ => text)]
  blank := {}
  finish draft := do
    let name ← required 0 "name" draft.name
    .ok { name, identityField := draft.identityField.getD defaultIdentityField }

def read (room : Nat) : Document → Reading Entity := form.read room

def toValue (entity : Entity) : Value :=
  .object [("identity_field", .string entity.identityField), ("name", .string entity.name)]

end Entity

/-! ## Relation kinds -/

namespace RelationKind

def name : RelationKind → String
  | .oneToOne => "one_to_one"
  | .oneToMany => "one_to_many"
  | .belongsTo => "belongs_to"

def all : List RelationKind := [.oneToOne, .oneToMany, .belongsTo]

def ofName (name : String) : Reading RelationKind :=
  match all.find? fun kind => kind.name == name with
  | some kind => .ok kind
  | none => refuse (.unknownVariant name (all.map RelationKind.name))

/-- Reads the `null` beside the name of a kind. -/
def readUnit : Document → Reading Unit
  | .null => .ok ()
  | document => Reading.wrongType document "unit"

/-- Reads a kind: its name, or an object with the name as its only key and `null`
as the value. Anything else is refused as a fault of the text. -/
def read (room : Nat) : Document → Reading RelationKind
  | .string (some name) => ofName name
  | .object ((some name, content) :: rest) closed =>
      match room with
      | 0 => malformed
      | _ + 1 => do
          let kind ← ofName name
          readUnit content
          if rest.isEmpty && closed then .ok kind else malformed
  | _ => malformed

def toValue (kind : RelationKind) : Value := .string kind.name

end RelationKind

/-! ## Relations -/

namespace Relation

structure Draft where
  name : Option String := none
  source : Option String := none
  target : Option String := none
  kind : Option RelationKind := none
  foreignKey : Option String := none
  localKey : Option (Option String) := none
  ownerKey : Option (Option String) := none

/-- The form of a relation. The two keys that may be left out may also be `null`. -/
def form : RecordForm Draft Relation where
  typeName := "RelationDef"
  slots :=
    [.component "name" (·.name) (fun draft content => { draft with name := some content })
      (fun _ => text),
     .component "from_entity" (·.source)
      (fun draft content => { draft with source := some content }) (fun _ => text),
     .component "to_entity" (·.target)
      (fun draft content => { draft with target := some content }) (fun _ => text),
     .component "kind" (·.kind) (fun draft content => { draft with kind := some content })
      RelationKind.read,
     .component "foreign_key" (·.foreignKey)
      (fun draft content => { draft with foreignKey := some content }) (fun _ => text),
     .component "local_key" (·.localKey)
      (fun draft content => { draft with localKey := some content }) (fun _ => optional text),
     .component "owner_key" (·.ownerKey)
      (fun draft content => { draft with ownerKey := some content }) (fun _ => optional text)]
  blank := {}
  finish draft := do
    let name ← required 0 "name" draft.name
    let source ← required 1 "from_entity" draft.source
    let target ← required 2 "to_entity" draft.target
    let kind ← required 3 "kind" draft.kind
    let foreignKey ← required 4 "foreign_key" draft.foreignKey
    .ok
      { name, source, target, kind, foreignKey
        localKey := draft.localKey.getD none
        ownerKey := draft.ownerKey.getD none }

def read (room : Nat) : Document → Reading Relation := form.read room

def optionalMember (name : String) : Option String → List (String × Value)
  | some content => [(name, .string content)]
  | none => []

def toValue (relation : Relation) : Value :=
  .object
    ([("foreign_key", .string relation.foreignKey), ("from_entity", .string relation.source),
      ("kind", relation.kind.toValue)]
      ++ optionalMember "local_key" relation.localKey
      ++ [("name", .string relation.name)]
      ++ optionalMember "owner_key" relation.ownerKey
      ++ [("to_entity", .string relation.target)])

end Relation

/-! ## Schemas -/

namespace Schema

structure Draft where
  entities : Option (List Entity) := none
  relations : Option (List Relation) := none

/-- The form of a schema. Both lists may be left out. -/
def form : RecordForm Draft Schema where
  typeName := "Schema"
  slots :=
    [.component "entities" (·.entities)
      (fun draft content => { draft with entities := some content }) (listOf Entity.read),
     .component "relations" (·.relations)
      (fun draft content => { draft with relations := some content }) (listOf Relation.read)]
  blank := {}
  finish draft :=
    .ok { entities := draft.entities.getD [], relations := draft.relations.getD [] }

def read (room : Nat) : Document → Reading Schema := form.read room

def toValue (schema : Schema) : Value :=
  .object
    [("entities", .array (schema.entities.map Entity.toValue)),
     ("relations", .array (schema.relations.map Relation.toValue))]

end Schema

end EagerLoad
