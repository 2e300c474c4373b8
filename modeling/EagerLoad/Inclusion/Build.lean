import EagerLoad.Inclusion.Tree
import EagerLoad.Path.Grammar

/-!
Contract: from requests to one inclusion tree.

Owns: the kinds of requests, the insertion of a path along the relations of a
schema, one level of a recursive request, and the union of all requests.

Does not own: the loading of records along a tree (`Hydration/Resolve.lean`).

A name that is not declared where it stands drops the rest of its path and
nothing else.
-/

set_option autoImplicit false

namespace EagerLoad

inductive Load where
  | paths (paths : List Path.RelationPath)
  | all
  | allRecursive (depth : Depth)
  | recursive (names : List String) (depth : Depth)
  deriving DecidableEq, Repr

namespace InclusionTree

/-- The relations of a type that a segment stands for. -/
def relationsOf (schema : Schema) (entity : String) : Path.Segment → List Relation
  | .wildcard => schema.relationsFrom entity
  | .relation name => (schema.relation? entity name).toList

/-- Requests a path of relations, starting at a type. -/
def insertPath (schema : Schema) (tree : InclusionTree) (entity : String) :
    List Path.Segment → InclusionTree
  | [] => tree
  | segment :: rest =>
      (relationsOf schema entity segment).foldl
        (fun tree relation =>
          let extend (node : IncludeNode) : IncludeNode :=
            node.withChildren (insertPath schema node.children relation.target rest)
          update relation.name extend (extend (.plain relation)) tree)
        tree

/-- One level of a recursive request: every relation of a type that the request
follows, each with the request as its rule. -/
def recursiveLevel (schema : Schema) (entity : String) (rule : Recursion) : InclusionTree :=
  ((schema.relationsFrom entity).filter fun relation => rule.scope.admits relation.name).foldl
    (fun tree relation => insert tree (.mk relation [] (some rule))) []

def addLoad (schema : Schema) (entity : String) (tree : InclusionTree) : Load → InclusionTree
  | .paths paths =>
      paths.foldl (fun tree path => insertPath schema tree entity path.segments) tree
  | .all => insertPath schema tree entity [.wildcard]
  | .allRecursive depth => merge tree (recursiveLevel schema entity ⟨.all, depth⟩)
  | .recursive names depth => merge tree (recursiveLevel schema entity ⟨.only names, depth⟩)

def build (schema : Schema) (entity : String) (loads : List Load) : InclusionTree :=
  loads.foldl (addLoad schema entity) []

end InclusionTree

end EagerLoad
