import EagerLoad.Json.Reading

/-!
Contract: the settings of loading and their JSON form.

Owns: the settings with their defaults, their reader and their writer.

Does not own: what the settings do (`Hydration/Resolve.lean`,
`Materialize.lean`).
-/

set_option autoImplicit false

namespace EagerLoad

open Json
open Json.Reading (Slot RecordForm text flag count optional)

/-- How related records are loaded and shown. -/
structure Settings where
  /-- The key under which an object shows the identity of its record. -/
  syntheticIdField : String := "$id"
  /-- Whether relations that were not requested show as `null` or `[]`. -/
  fillUnloadedRelations : Bool := false
  /-- How many records a branch may hold before recursion stops; unlimited when absent. -/
  maxRecursionDepth : Option Nat := none
  /-- The greatest table size that is searched without an index. -/
  hashJoinThreshold : Nat := 64
  deriving DecidableEq, Repr

namespace Settings

structure Draft where
  syntheticIdField : Option String := none
  fillUnloadedRelations : Option Bool := none
  maxRecursionDepth : Option (Option Nat) := none
  hashJoinThreshold : Option Nat := none

/-- The settings with defaults for the fields that were not read. -/
def ofDraft (draft : Draft) : Settings :=
  let defaults : Settings := {}
  { syntheticIdField := draft.syntheticIdField.getD defaults.syntheticIdField
    fillUnloadedRelations := draft.fillUnloadedRelations.getD defaults.fillUnloadedRelations
    maxRecursionDepth := draft.maxRecursionDepth.getD defaults.maxRecursionDepth
    hashJoinThreshold := draft.hashJoinThreshold.getD defaults.hashJoinThreshold }

/-- The form of settings. Every field may be left out. -/
def form : RecordForm Draft Settings where
  typeName := "LoaderConfig"
  slots :=
    [.component "synthetic_id_field" (·.syntheticIdField)
      (fun draft content => { draft with syntheticIdField := some content }) (fun _ => text),
     .component "fill_unloaded_relations" (·.fillUnloadedRelations)
      (fun draft content => { draft with fillUnloadedRelations := some content }) (fun _ => flag),
     .component "max_recursion_depth" (·.maxRecursionDepth)
      (fun draft content => { draft with maxRecursionDepth := some content })
      (fun _ => optional count),
     .component "hash_join_threshold" (·.hashJoinThreshold)
      (fun draft content => { draft with hashJoinThreshold := some content }) (fun _ => count)]
  blank := {}
  finish draft := .ok (ofDraft draft)

def read (room : Nat) : Document → Reading Settings := form.read room

def countValue (value : Nat) : Value := .number (.integer value)

def toValue (settings : Settings) : Value :=
  .object
    [("fill_unloaded_relations", .bool settings.fillUnloadedRelations),
     ("hash_join_threshold", countValue settings.hashJoinThreshold),
     ("max_recursion_depth",
      match settings.maxRecursionDepth with
      | some depth => countValue depth
      | none => .null),
     ("synthetic_id_field", .string settings.syntheticIdField)]

end Settings

end EagerLoad
