import EagerLoad.Json.Value

/-!
Contract: records and the keys that identify them.

Owns: the canonical key of a JSON value, records with the identity they were
stored under, and the key that any field of a record gives.

Does not own: tables of records (`Store/Basic.lean`).

Identities and foreign keys are written as numbers or strings by different
writers. The canonical key is a text that equal identities share: `1`, `1.0` and
`"1"` are one key.
-/

set_option autoImplicit false

namespace EagerLoad

open Json

structure RecordKey where
  text : String
  deriving DecidableEq, Repr, Hashable

/-- The magnitude from which on not every integer is a binary64 value. -/
def exactIntegerLimit : Nat := Nat.pow 2 53

/-- The key text of a number. An integral float below `2 ^ 53` has the numeral of
its integer, so that it is the same key as that integer. -/
def Json.Number.keyText : Number → String
  | .integer value => Number.integerText value
  | .float value =>
      match value.integer? with
      | some whole =>
          if whole.natAbs < exactIntegerLimit then Number.integerText whole
          else Number.floatText value
      | none => Number.floatText value

namespace RecordKey

/-- The key that a value gives; `null`, arrays and objects give none. -/
def ofValue? : Value → Option RecordKey
  | .string text => some ⟨text⟩
  | .bool true => some ⟨"true"⟩
  | .bool false => some ⟨"false"⟩
  | .number content => some ⟨content.keyText⟩
  | .null | .array _ | .object _ => none

end RecordKey

/-- A stored record: its key, the value that gave the key, and all its fields. -/
structure Record where
  key : RecordKey
  identity : Value
  fields : Members

namespace Record

/-- The record with these fields, when the identity field is there and gives a key. -/
def keyedBy? (identityField : String) (fields : Members) : Option Record := do
  let identity ← fields.get? identityField
  let key ← RecordKey.ofValue? identity
  some { key, identity, fields }

def keyOf (record : Record) (field : String) : Option RecordKey :=
  (record.fields.get? field).bind RecordKey.ofValue?

end Record

end EagerLoad
