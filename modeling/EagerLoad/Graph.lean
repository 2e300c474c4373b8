import EagerLoad.Query

/-!
Contract: a schema with its records.

Owns: insertion of records of declared types, alone, in order, and from a whole
document of tables.

Does not own: the document that declares schema, data and settings together
(`Fixture.lean`).

Every insertion hands back the graph that it leaves behind, refused or not. Insertion in
order stops at the first refusal. What was stored before it stays.
-/

set_option autoImplicit false

namespace EagerLoad

open Json

/-- A schema, the records of its types, and the settings of queries. -/
structure Graph where
  schema : Schema
  store : Store := {}
  settings : Settings := {}

namespace Graph

def insert (graph : Graph) (entity : String) (value : Value) :
    Graph × Except DataError RecordKey :=
  match graph.schema.entity? entity with
  | none => (graph, .error (.unknownEntity entity))
  | some declared =>
      let (store, result) := graph.store.insert entity declared.identityField value
      ({ graph with store }, result)

def insertInOrder (graph : Graph) (entity : String) :
    List Value → Graph × Except DataError (List RecordKey)
  | [] => (graph, .ok [])
  | value :: rest =>
      match graph.insert entity value with
      | (graph, .error refusal) => (graph, .error refusal)
      | (graph, .ok key) =>
          let (graph, result) := insertInOrder graph entity rest
          (graph, result.map fun keys => key :: keys)

/-- Stores several values as records of a type, which must be declared even when
there are no values. -/
def insertMany (graph : Graph) (entity : String) (values : List Value) :
    Graph × Except DataError (List RecordKey) :=
  match graph.schema.entity? entity with
  | none => (graph, .error (.unknownEntity entity))
  | some _ => graph.insertInOrder entity values

/-- Stores tables in order, and counts their records. -/
def loadTables (graph : Graph) : Members → Graph × Except DataError Nat
  | [] => (graph, .ok 0)
  | (entity, .array values) :: rest =>
      match graph.insertMany entity values with
      | (graph, .error refusal) => (graph, .error refusal)
      | (graph, .ok keys) =>
          let (graph, result) := loadTables graph rest
          (graph, result.map fun total => keys.length + total)
  | (entity, _) :: _ => (graph, .error (.tableNotArray entity))

/-- Stores the tables of an object, in ascending order of their names. -/
def load (graph : Graph) : Value → Graph × Except DataError Nat
  | .object tables => graph.loadTables tables
  | _ => (graph, .error .dataNotObject)

def query (graph : Graph) (entity : String) : Query where
  view := graph.store.view
  schema := graph.schema
  settings := graph.settings
  entity := entity

end Graph

end EagerLoad
