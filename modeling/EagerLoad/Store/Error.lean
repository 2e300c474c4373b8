import EagerLoad.Json.Text

/-!
Contract: why data is not taken into a store.

Owns: the causes and their wording.

Does not own: when a cause arises (`Store/Basic.lean`, `Graph.lean`).
-/

set_option autoImplicit false

namespace EagerLoad

inductive DataError where
  | unknownEntity (entity : String)
  | missingIdentity (entity identityField : String)
  | recordNotObject (entity : String) (value : Json.Value)
  | tableNotArray (entity : String)
  | dataNotObject

namespace DataError

def message : DataError → String
  | .unknownEntity entity => "unknown entity type '" ++ entity ++ "'"
  | .missingIdentity entity identityField =>
      "record of type '" ++ entity ++ "' has no usable identity field '" ++ identityField ++ "'"
  | .recordNotObject entity value =>
      "invalid data: record of type '" ++ entity ++ "' must be a JSON object, got "
        ++ value.compact
  | .tableNotArray entity =>
      "invalid data: table '" ++ entity ++ "' must be an array of records"
  | .dataNotObject => "invalid data: data must be an object of entity tables"

end DataError

end EagerLoad
