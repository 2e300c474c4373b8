import EagerLoad.Hydration.Basic
import EagerLoad.Settings

/-!
Contract: hydrated records as JSON objects.

Owns: which of a record's fields, loaded relations, unloaded relations and
identity shows under a key.

Does not own: what is loaded (`Hydration/Resolve.lean`).

Of several claims to one key the identity wins over a loaded relation, that over
an unloaded relation, and that over a field of the record.
-/

set_option autoImplicit false

namespace EagerLoad

open Json

namespace Hydrated

def setAll (members : Members) (entries : List (String × Value)) : Members :=
  entries.foldl (fun members entry => members.insert entry.1 entry.2) members

/-- The empty values of the relations declared on a type, when the settings ask for
them. -/
def unloaded (schema : Schema) (settings : Settings) (entity : String) :
    List (String × Value) :=
  if settings.fillUnloadedRelations then
    (schema.relationsFrom entity).map fun relation => (relation.name, relation.kind.emptyValue)
  else
    []

/-- The members under which a record shows, given the values of its loaded
relations. -/
def shown (schema : Schema) (settings : Settings) (entity : String) (record : Record)
    (loaded : List (String × Value)) : Members :=
  (setAll (setAll record.fields (unloaded schema settings entity)) loaded).insert
    settings.syntheticIdField record.identity

mutual

def toValue (schema : Schema) (settings : Settings) : Hydrated → Value
  | .mk entity record relations =>
      .object (shown schema settings entity record (relationValues schema settings relations))

/-- The values of loaded relations: an object or `null`, or an array of objects. -/
def relationValues (schema : Schema) (settings : Settings) :
    List (String × Attached Hydrated) → List (String × Value)
  | [] => []
  | (name, .one none) :: rest => (name, .null) :: relationValues schema settings rest
  | (name, .one (some hydrated)) :: rest =>
      (name, toValue schema settings hydrated) :: relationValues schema settings rest
  | (name, .many records) :: rest =>
      (name, .array (toValues schema settings records)) :: relationValues schema settings rest

def toValues (schema : Schema) (settings : Settings) : List Hydrated → List Value
  | [] => []
  | hydrated :: rest => toValue schema settings hydrated :: toValues schema settings rest

end

end Hydrated

end EagerLoad
