import EagerLoad.Hydration.Resolve
import EagerLoad.Materialize
import EagerLoad.Path.Expression

/-!
Contract: queries for records with their related records.

Owns: the description of a query, and its three ends: all records, the first one,
the one of an identity.

Does not own: where the records come from (`Graph.lean`).
-/

set_option autoImplicit false

namespace EagerLoad

open Json

/-- Which records of the queried type a query starts from. -/
inductive RootFilter where
  | all
  | key (key : RecordKey)
  | nothing
  deriving DecidableEq, Repr

namespace RootFilter

/-- The filter for the record of an identity; a value that gives no key selects
nothing. -/
def ofValue (value : Value) : RootFilter :=
  match RecordKey.ofValue? value with
  | some wanted => .key wanted
  | none => .nothing

def select (view : RecordView) (entity : String) : RootFilter → List Record
  | .all => view.records entity
  | .key wanted => (view.get? entity wanted).toList
  | .nothing => []

end RootFilter

structure Query where
  view : RecordView
  schema : Schema
  settings : Settings
  entity : String
  loads : List Load := []
  roots : RootFilter := .all

namespace Query

def load (query : Query) (request : Load) : Query :=
  { query with loads := query.loads ++ [request] }

/-- Requests the paths of an expression; one without paths requests nothing. -/
def withPaths (query : Query) (expression : Path.Expression) : Query :=
  match expression.paths with
  | [] => query
  | paths => query.load (.paths paths)

def whereKey (query : Query) (identity : Value) : Query :=
  { query with roots := RootFilter.ofValue identity }

def withSettings (query : Query) (settings : Settings) : Query := { query with settings }

def inclusionTree (query : Query) : InclusionTree :=
  InclusionTree.build query.schema query.entity query.loads

/-- The objects of some records with everything that was requested of them. -/
def run (query : Query) (roots : List Record) : List Value :=
  let resolver := Resolver.start query.view query.schema query.settings
  let (hydrated, _) := resolver.resolve query.entity roots query.inclusionTree
  Hydrated.toValues query.schema query.settings hydrated

/-- The objects of all selected records, in table order. -/
def get (query : Query) : List Value :=
  query.run (query.roots.select query.view query.entity)

def first (query : Query) : Option Value :=
  (query.run ((query.roots.select query.view query.entity).take 1)).head?

/-- The object of the record of an identity, selected or not. -/
def find (query : Query) (identity : Value) : Option Value :=
  (query.run ((RootFilter.ofValue identity).select query.view query.entity)).head?

end Query

end EagerLoad
