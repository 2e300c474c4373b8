import EagerLoad.Store.Record
import EagerLoad.Schema.Basic

/-!
Contract: records with their related records attached.

Owns: the value attached for one relation, and hydrated records.

Does not own: which records are attached (`Hydration/Resolve.lean`) and how they
are shown (`Materialize.lean`).
-/

set_option autoImplicit false

namespace EagerLoad

/-- The value attached for a relation: at most one record, or a list of them. -/
inductive Attached (α : Type) where
  | one (value : Option α)
  | many (values : List α)
  deriving DecidableEq, Repr

namespace Attached

variable {α : Type}

def toList : Attached α → List α
  | .one value => value.toList
  | .many values => values

/-- The value that records have for a relation of some kind: all of them when it is
plural, else the first. -/
def ofList (kind : RelationKind) (records : List α) : Attached α :=
  if kind.isPlural then .many records else .one records.head?

/-- The value of a relation that no record takes part in. -/
def empty (kind : RelationKind) : Attached α := ofList kind []

end Attached

/-- A record with the values of its loaded relations, in order of attachment. -/
inductive Hydrated where
  | mk (entity : String) (record : Record) (relations : List (String × Attached Hydrated))

namespace Hydrated

def entity : Hydrated → String
  | .mk entity _ _ => entity

def record : Hydrated → Record
  | .mk _ record _ => record

def relations : Hydrated → List (String × Attached Hydrated)
  | .mk _ _ relations => relations

def relation? (hydrated : Hydrated) (name : String) : Option (Attached Hydrated) :=
  hydrated.relations.lookup name

def attach (hydrated : Hydrated) (more : List (String × Attached Hydrated)) : Hydrated :=
  .mk hydrated.entity hydrated.record (hydrated.relations ++ more)

end Hydrated

end EagerLoad
