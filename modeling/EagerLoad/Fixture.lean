import EagerLoad.Graph
import EagerLoad.Schema.Format

/-!
Contract: documents that declare schema, data and settings together.

Owns: fixtures with their reader and writer, and the graph of a fixture.

Does not own: where the text of a fixture comes from.
-/

set_option autoImplicit false

namespace EagerLoad

open Json
open Json.Reading (Slot RecordForm optional)

/-- A schema with tables of records, and perhaps settings. -/
structure Fixture where
  schema : Schema := {}
  data : Members := []
  settings : Option Settings := none

namespace Fixture

structure Draft where
  schema : Option Schema := none
  data : Option Members := none
  settings : Option (Option Settings) := none

/-- The form of a fixture. Every field may be left out. -/
def form : RecordForm Draft Fixture where
  typeName := "Fixture"
  slots :=
    [.component "schema" (·.schema) (fun draft content => { draft with schema := some content })
      Schema.read,
     .component "data" (·.data) (fun draft content => { draft with data := some content })
      Reading.members,
     .component "config" (·.settings)
      (fun draft content => { draft with settings := some content })
      (fun room => optional (Settings.read room))]
  blank := {}
  finish draft :=
    .ok
      { schema := draft.schema.getD {}
        data := draft.data.getD []
        settings := draft.settings.getD none }

def read (room : Nat) : Document → Reading Fixture := form.read room

def ofText (text : String) : Reading Fixture := Reading.ofText read text

def toValue (fixture : Fixture) : Value :=
  .object
    [("config",
      match fixture.settings with
      | some settings => settings.toValue
      | none => .null),
     ("data", .object fixture.data),
     ("schema", fixture.schema.toValue)]

/-- The graph of a fixture, with all its records stored. -/
def toGraph (fixture : Fixture) : Except DataError Graph :=
  let graph : Graph :=
    { schema := fixture.schema, settings := fixture.settings.getD {} }
  match graph.load (.object fixture.data) with
  | (graph, .ok _) => .ok graph
  | (_, .error refusal) => .error refusal

end Fixture

end EagerLoad
