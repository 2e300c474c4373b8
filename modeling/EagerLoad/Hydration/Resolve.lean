import EagerLoad.Hydration.Basic
import EagerLoad.Hydration.Lookup
import EagerLoad.Inclusion.Build
import EagerLoad.Join.Cache
import EagerLoad.Settings

/-!
Contract: loading related records along an inclusion tree.

Owns: the descent from record to related record, the three reasons for which a
recursive descent stops, the empty values that a stopped record gets, and the
resolver that keeps its indexes from one request to the next.

Does not own: which records a relation yields (`Hydration/Lookup.lean`).

A recursive node is expanded one level at a time, from the relations declared on
the type that was reached. Descent stops where the request has no level left,
where the record already is on the branch, and where the branch is as long as the
settings allow. A stopped record is attached all the same. What was requested of
it by name is loaded, and every other relation in scope is empty.

`hydrate` counts down the levels that a branch may still have. The resolver starts
it with more levels than any branch can reach: an expansion adds a record to the
branch that was not on it, and every other step goes down in the given tree.
-/

set_option autoImplicit false

namespace EagerLoad

/-- A record on the branch from the root to the present record. -/
structure Ancestor where
  entity : String
  key : RecordKey
  deriving DecidableEq, Repr

namespace Hydration

/-- What a descent works on: the records, the schema, and the longest branch that
recursion may extend. -/
structure Context where
  view : RecordView
  schema : Schema
  maxDepth : Option Nat

/-- How a descent goes on at a related record: along a tree, or along a tree with
the other relations of a scope empty. -/
inductive Step where
  | follow (tree : InclusionTree)
  | cut (tree : InclusionTree) (scope : Scope)

namespace Context

/-- Whether a recursive request stops at a record below the given branch. -/
def stops (context : Context) (branch : List Ancestor) (rule : Recursion) (reached : Ancestor) :
    Bool :=
  rule.remaining.isExhausted || branch.contains reached
    || match context.maxDepth with
      | some limit => decide (limit ≤ branch.length)
      | none => false

/-- How the descent goes on at a record that a node attaches below a branch. -/
def step (context : Context) (branch : List Ancestor) (node : IncludeNode) (record : Record) :
    Step :=
  match node.recursion with
  | none => .follow node.children
  | some rule =>
      if context.stops branch rule ⟨node.relation.target, record.key⟩ then
        .cut node.children rule.scope
      else
        .follow (InclusionTree.merge node.children
          (InclusionTree.recursiveLevel context.schema node.relation.target rule.next))

end Context

/-- The empty values of those relations in scope that are not among the loaded
ones; each name gets one. -/
def emptyValues (scope : Scope) (loaded : List String) :
    List Relation → List (String × Attached Hydrated)
  | [] => []
  | relation :: rest =>
      if scope.admits relation.name && !loaded.contains relation.name then
        (relation.name, Attached.empty relation.kind)
          :: emptyValues scope (relation.name :: loaded) rest
      else
        emptyValues scope loaded rest

/-- A record with an empty value for every relation in scope that is not loaded. -/
def withEmptyValues (schema : Schema) (scope : Scope) (hydrated : Hydrated) : Hydrated :=
  hydrated.attach
    (emptyValues scope (hydrated.relations.map fun entry => entry.1)
      (schema.relationsFrom hydrated.entity))

variable {m : Type → Type} [Monad m]

/-- Loads the relations that a tree requests of a record, and so on below it, at
most `levels` levels of records in all. Nodes of another type are passed over. -/
def hydrate (context : Context) (matching : Matching m) :
    (levels : Nat) → (entity : String) → Record → InclusionTree → List Ancestor → m Hydrated
  | 0, entity, record, _, _ => pure (.mk entity record [])
  | levels + 1, entity, record, tree, chain => do
      let branch : List Ancestor := ⟨entity, record.key⟩ :: chain
      let requested := tree.filter fun node => node.relation.source == entity
      let relations ← requested.mapM fun node => do
        let records ← node.relation.related context.schema context.view matching record
        let attached ← records.mapM fun related =>
          match context.step branch node related with
          | .follow tree => hydrate context matching levels node.relation.target related tree branch
          | .cut tree scope => do
              let hydrated ←
                hydrate context matching levels node.relation.target related tree branch
              pure (withEmptyValues context.schema scope hydrated)
        pure (node.name, Attached.ofList node.relation.kind attached)
      pure (.mk entity record relations)

/-- More levels than any branch along a tree can have: one for every level of the
tree, and one for every record that an expansion can reach. -/
def levelBound (context : Context) (tree : InclusionTree) : Nat :=
  let reachable :=
    InclusionTree.targets tree ++ context.schema.relations.map fun relation => relation.target
  InclusionTree.depth tree
    + reachable.foldr (fun entity total => context.view.count entity + total) 0 + 1

end Hydration

/-- A resolver: what it works on, and the indexes it has built so far. -/
structure Resolver where
  context : Hydration.Context
  joins : JoinCache

namespace Resolver

/-- A resolver that has built no index yet. -/
def start (view : RecordView) (schema : Schema) (settings : Settings) : Resolver where
  context := { view, schema, maxDepth := settings.maxRecursionDepth }
  joins := JoinCache.empty settings.hashJoinThreshold

/-- Finds matching records through a cache of indexes. -/
def cachedMatching (view : RecordView) : Matching (StateM JoinCache) :=
  fun entity field key cache => cache.matching view entity field key

/-- Loads what a tree requests of some records of a type, and keeps the indexes. -/
def resolve (resolver : Resolver) (entity : String) (roots : List Record)
    (tree : InclusionTree) : List Hydrated × Resolver :=
  let levels := Hydration.levelBound resolver.context tree
  let matching := cachedMatching resolver.context.view
  let (hydrated, joins) :=
    (roots.mapM fun root =>
      Hydration.hydrate resolver.context matching levels entity root tree []).run resolver.joins
  (hydrated, { resolver with joins })

end Resolver

end EagerLoad
