import EagerLoad.Proofs.Inclusion.Growth
import EagerLoad.Proofs.Path.Choices
import EagerLoad.Query

/-!
Contract: several expressions are one list of sources.

Owns: the tree of a query after one more expression, and that neither the repeats between
expressions nor those within one ever show in a tree.

Does not own: that a path which is there adds nothing (`Inclusion/Growth.lean`).

One expression loses the repeats among its own paths, but not those that it shares with
others. A repeat comes after its first occurrence, so that its path is there by then.
-/

set_option autoImplicit false

namespace EagerLoad

open EagerLoad.Path (Expression RelationPath firstOccurrences mem_firstOccurrences
  firstOccurrences_concat)

namespace InclusionTree

/-- A tree with some paths requested, one after the other. -/
def insertPaths (schema : Schema) (entity : String) (tree : InclusionTree)
    (paths : List RelationPath) : InclusionTree :=
  paths.foldl (fun tree path => insertPath schema tree entity path.segments) tree

variable {schema : Schema} {entity : String} {tree : InclusionTree}

theorem insertPaths_append (first second : List RelationPath) :
    insertPaths schema entity tree (first ++ second)
      = insertPaths schema entity (insertPaths schema entity tree first) second :=
  List.foldl_append

theorem grown_insertPaths (schema : Schema) (entity : String) (tree : InclusionTree)
    (paths : List RelationPath) : Grown tree (insertPaths schema entity tree paths) := by
  refine List.foldlRecOn (motive := Grown tree) _ _ (Grown.refl tree) ?_
  exact fun reached grown path _ => grown.trans (grown_insertPath schema reached entity _)

theorem hasPath_insertPaths {paths : List RelationPath} {path : RelationPath}
    (member : path ∈ paths) :
    HasPath schema (insertPaths schema entity tree paths) entity path.segments := by
  obtain ⟨before, after, rfl⟩ := List.append_of_mem member
  rw [insertPaths_append]
  exact (hasPath_insertPath schema _ entity path.segments).grown
    (grown_insertPaths schema entity _ after)

/-- Repeats among paths do not show in a tree. -/
theorem insertPaths_firstOccurrences (paths : List RelationPath) :
    insertPaths schema entity tree (firstOccurrences paths)
      = insertPaths schema entity tree paths := by
  induction paths using List.reverseRecOn with
  | nil => rfl
  | append_singleton before last inductionHypothesis =>
      rw [firstOccurrences_concat, insertPaths_append, ← inductionHypothesis]
      by_cases known : last ∈ firstOccurrences before
      · rw [if_pos known]
        exact (insertPath_eq_self (hasPath_insertPaths known)).symm
      · rw [if_neg known, insertPaths_append]

end InclusionTree

namespace Query

open InclusionTree (Edit insertPaths insertPath insertPaths_append insertPaths_firstOccurrences
  insertPath_edits)

theorem schema_withPaths (query : Query) (expression : Expression) :
    (query.withPaths expression).schema = query.schema := by
  unfold withPaths
  cases expression.paths <;> rfl

theorem entity_withPaths (query : Query) (expression : Expression) :
    (query.withPaths expression).entity = query.entity := by
  unfold withPaths
  cases expression.paths <;> rfl

/-- An expression adds the paths of all its sources that are accepted. -/
theorem inclusionTree_withPaths (query : Query) (expression : Expression) :
    (query.withPaths expression).inclusionTree
      = insertPaths query.schema query.entity query.inclusionTree
          (expression.sources.flatMap Expression.acceptedPaths) := by
  rw [← insertPaths_firstOccurrences]
  show _ = insertPaths query.schema query.entity query.inclusionTree expression.paths
  unfold withPaths
  cases expression.paths with
  | nil => rfl
  | cons path rest => exact List.foldl_append

theorem inclusionTree_foldl_withPaths (query : Query) (expressions : List Expression) :
    (expressions.foldl withPaths query).inclusionTree
      = insertPaths query.schema query.entity query.inclusionTree
          ((expressions.flatMap Expression.sources).flatMap Expression.acceptedPaths) := by
  induction expressions generalizing query with
  | nil => rfl
  | cons expression rest inductionHypothesis =>
      rw [List.foldl_cons, inductionHypothesis, inclusionTree_withPaths, schema_withPaths,
        entity_withPaths, List.flatMap_cons, List.flatMap_append, insertPaths_append]

/-- **A path is requested once and for all.** Whatever is added to a tree after a path was
requested, to request the path again changes nothing. Hence expressions, one after the other,
build the tree of one expression with all their sources. -/
theorem paths_requested_once :
    (∀ (schema : Schema) (tree : InclusionTree) (entity : String) (segments : List Path.Segment)
        (edits : List Edit),
      let grown := edits.foldl Edit.apply (insertPath schema tree entity segments)
      insertPath schema grown entity segments = grown)
    ∧ ∀ (query : Query) (expressions : List Expression),
        (expressions.foldl withPaths query).inclusionTree
          = (query.withPaths (.many (expressions.flatMap Expression.sources))).inclusionTree := by
  constructor
  · exact insertPath_edits
  · intro query expressions
    rw [inclusionTree_foldl_withPaths, inclusionTree_withPaths]
    rfl

end Query

end EagerLoad
