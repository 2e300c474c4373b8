import EagerLoad.Schema.Basic
import EagerLoad.Store.Basic

/-!
Contract: the records that a relation yields from a record.

Owns: which field of which side is joined on, for every kind of relation.

Does not own: how matching records are found. That is a parameter, so that
searching tables and using indexes are two instances of one definition.
-/

set_option autoImplicit false

namespace EagerLoad

/-- A way to find the records of a type whose field gives a key. -/
abbrev Matching (m : Type → Type) := String → String → RecordKey → m (List Record)

namespace Relation

variable {m : Type → Type} [Monad m]

/-- The record that owns `record` by a `belongsTo` relation. The owner is looked up
by its identity, unless the relation names another field of the owner. -/
def owner? (schema : Schema) (view : RecordView) (matching : Matching m) (relation : Relation)
    (record : Record) : m (Option Record) :=
  match record.keyOf relation.foreignKey with
  | none => pure none
  | some key =>
      match relation.ownerKey with
      | none => pure (view.get? relation.target key)
      | some ownerKey =>
          if ownerKey = schema.identityField relation.target then
            pure (view.get? relation.target key)
          else do
            let owners ← matching relation.target ownerKey key
            pure owners.head?

/-- The key that the targets of a forward relation hold in their foreign key. -/
def forwardKey? (relation : Relation) (record : Record) : Option RecordKey :=
  match relation.localKey with
  | some localKey => record.keyOf localKey
  | none => some record.key

/-- The records that hold the key of `record` in their foreign key. -/
def dependents (matching : Matching m) (relation : Relation) (record : Record) :
    m (List Record) :=
  match relation.forwardKey? record with
  | some key => matching relation.target relation.foreignKey key
  | none => pure []

/-- The records that a relation yields from a record, at most one unless the
relation is plural. -/
def related (schema : Schema) (view : RecordView) (matching : Matching m) (relation : Relation)
    (record : Record) : m (List Record) :=
  match relation.kind with
  | .belongsTo => do
      let owner ← relation.owner? schema view matching record
      pure owner.toList
  | .oneToOne => do
      let dependents ← relation.dependents matching record
      pure (dependents.take 1)
  | .oneToMany => relation.dependents matching record

end Relation

end EagerLoad
