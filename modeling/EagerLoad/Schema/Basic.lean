import EagerLoad.Json.Value

/-!
Contract: what record types exist and how they are related.

Owns: entity types with their identity fields, relations between them with the
fields that they join on, and schemas with first-match look-up.

Does not own: the JSON form of schemas (`Schema/Format.lean`) or the records
themselves.

A schema may declare one name more than once, since it may come from a document.
Look-ups answer with the first declaration. The operations here never add a
second declaration of a name.
-/

set_option autoImplicit false

namespace EagerLoad

/-- The identity field of a type that does not name one. -/
def defaultIdentityField : String := "id"

/-- An entity type: the field of its records that identifies them. -/
structure Entity where
  name : String
  identityField : String := defaultIdentityField
  deriving DecidableEq, Repr

inductive RelationKind where
  | oneToOne
  | oneToMany
  | belongsTo
  deriving DecidableEq, Repr

namespace RelationKind

/-- Whether a relation of this kind has a list of records as its value. -/
def isPlural : RelationKind → Bool
  | .oneToMany => true
  | .oneToOne | .belongsTo => false

/-- The value of a relation that no record takes part in. -/
def emptyValue (kind : RelationKind) : Json.Value :=
  if kind.isPlural then .array [] else .null

end RelationKind

/-- A relation from the records of one type to those of another.

`belongsTo`: the foreign key is a field of the source, and holds the owner's
identity or its `ownerKey`. The other kinds: the foreign key is a field of the
target, and holds the source's identity or its `localKey`. -/
structure Relation where
  name : String
  source : String
  target : String
  kind : RelationKind
  foreignKey : String
  localKey : Option String := none
  ownerKey : Option String := none
  deriving DecidableEq, Repr

structure Schema where
  entities : List Entity := []
  relations : List Relation := []
  deriving DecidableEq, Repr

namespace Schema

def entity? (schema : Schema) (name : String) : Option Entity :=
  schema.entities.find? fun entity => entity.name == name

/-- The relations declared on a type, in order of declaration. -/
def relationsFrom (schema : Schema) (entity : String) : List Relation :=
  schema.relations.filter fun relation => relation.source == entity

/-- The first relation of a name declared on a type. -/
def relation? (schema : Schema) (entity name : String) : Option Relation :=
  (schema.relationsFrom entity).find? fun relation => relation.name == name

/-- The identity field of a type, declared or not. -/
def identityField (schema : Schema) (entity : String) : String :=
  match schema.entity? entity with
  | some declared => declared.identityField
  | none => defaultIdentityField

/-- Declares a type, in place of every earlier declaration of its name. -/
def withEntity (schema : Schema) (entity : Entity) : Schema :=
  { schema with
    entities := schema.entities.filter (fun other => other.name != entity.name) ++ [entity] }

/-- A list of relations with `relation` in place of the first one of its source
and name, or at the end. -/
def putRelation (relation : Relation) : List Relation → List Relation
  | [] => [relation]
  | other :: rest =>
      if other.source = relation.source ∧ other.name = relation.name then relation :: rest
      else other :: putRelation relation rest

/-- Declares a relation, in place of the first earlier declaration of its name on
its source type. -/
def withRelation (schema : Schema) (relation : Relation) : Schema :=
  { schema with relations := putRelation relation schema.relations }

end Schema

end EagerLoad
