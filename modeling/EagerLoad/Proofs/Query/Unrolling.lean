import EagerLoad.Proofs.Hydration.Containment
import EagerLoad.Proofs.Inclusion.Unrolled
import EagerLoad.Proofs.Query.Shown

/-!
Contract: recursion on demand shows what explicit paths show.

Owns: roots from which no record is met twice, and that a recursive request shows the same for
them as the paths that it stands for, with unloaded relations filled in.

Does not own: the paths that a recursive request stands for (`Inclusion/Unrolled.lean`).

Both descents meet the same records. One expands a level of the schema at each of them, and
counts down; the other goes down in a tree that is as deep as the count. They differ where the
count ends: there one leaves an empty value for each relation in scope, and the other leaves
nothing. An empty value that was filled in shows no differently.
-/

set_option autoImplicit false

namespace EagerLoad

open Json (Value)

namespace Hydration

open InclusionTree (Fits Unrolled get? firstLevel)

/-! ## Walks that meet no record twice -/

/-- On no walk of so many steps along relations in scope is a record met that is on the branch,
or was met before. -/
def Unrepeated (schema : Schema) (view : RecordView) (scope : Scope) (levels : Nat)
    (branch : List Ancestor) (entity : String) (record : Record) : Prop :=
  ∀ walk lastEntity last, IsWalk schema view entity record walk lastEntity last →
    (∀ hop ∈ walk, scope.admits hop.relation.name = true) → walk.length ≤ levels →
    (walk.map Hop.reached ++ branch).Nodup

theorem Unrepeated.step {schema : Schema} {view : RecordView} {scope : Scope} {levels : Nat}
    {branch : List Ancestor} {entity : String} {record : Record}
    (unrepeated : Unrepeated schema view scope (levels + 1) branch entity record) (hop : Hop)
    (declared : hop.relation ∈ schema.relationsFrom entity)
    (admitted : scope.admits hop.relation.name = true)
    (yielded : hop.record ∈ hop.relation.yields schema view record) :
    hop.reached ∉ branch
      ∧ Unrepeated schema view scope levels (hop.reached :: branch) hop.relation.target
          hop.record := by
  constructor
  · have single := unrepeated [hop] _ _ (.cons declared yielded .nil)
      (fun other member => List.mem_singleton.1 member ▸ admitted)
      (Nat.succ_le_succ (Nat.zero_le levels))
    exact (List.nodup_cons.1 single).1
  · intro walk lastEntity last isWalk follows short
    have longer := unrepeated (hop :: walk) lastEntity last (.cons declared yielded isWalk)
      (List.forall_mem_cons.2 ⟨admitted, follows⟩) (Nat.succ_le_succ short)
    exact (List.perm_middle.nodup_iff).2 longer

/-! ## Records loaded along two trees -/

variable {context : Context} {settings : Settings} {branch chain otherChain : List Ancestor}
  {entity : String} {record : Record} {tree other : InclusionTree} {scope : Scope} {levels : Nat}

theorem same_ofList {schema : Schema} (kind : RelationKind) {left right : List Hydrated}
    (same : List.Forall₂ (fun first second =>
      Value.Same (first.toValue schema settings) (second.toValue schema settings)) left right) :
    Value.Same ((Attached.ofList kind left).toValue schema settings)
      ((Attached.ofList kind right).toValue schema settings) := by
  unfold Attached.ofList
  cases kind.isPlural with
  | true =>
      apply Value.Same.array
      rw [List.forall₂_map_left_iff, List.forall₂_map_right_iff]
      exact same
  | false =>
      cases same with
      | nil => exact .null
      | cons first rest => exact first

/-- A record shows the same along two trees with nodes of the same relations, as soon as the
records under these nodes do. -/
theorem same_load (fits : Fits context.schema entity tree)
    (otherFits : Fits context.schema entity other)
    (nodes : ∀ name, (get? tree name = none ∧ get? other name = none)
      ∨ ∃ node otherNode, get? tree name = some node ∧ get? other name = some otherNode
          ∧ otherNode.relation = node.relation
          ∧ ∀ related ∈ node.relation.yields context.schema context.view record,
              Value.Same
                ((loadStep context (⟨entity, record.key⟩ :: chain) node related).toValue
                  context.schema settings)
                ((loadStep context (⟨entity, record.key⟩ :: otherChain) otherNode related).toValue
                  context.schema settings)) :
    Value.Same ((load context entity record tree chain).toValue context.schema settings)
      ((load context entity record other otherChain).toValue context.schema settings) := by
  apply Hydrated.same_toValue
  · rw [record_load, record_load]
  · exact nodup_names_load fits.distinct
  · exact nodup_names_load otherFits.distinct
  · intro key
    have sameBlank : (load context entity record tree chain).blank context.schema settings
        = (load context entity record other otherChain).blank context.schema settings := by
      apply Hydrated.blank_congr
      · rw [entity_load, entity_load]
      · rw [record_load, record_load]
    unfold Hydrated.valueAt?
    rw [sameBlank, relation?_load fits, relation?_load otherFits]
    rcases nodes key with ⟨isNone, otherIsNone⟩ | ⟨node, otherNode, found, otherFound, same, below⟩
    · simp only [isNone, otherIsNone, Option.map_none, Option.none_or]
      exact Value.Same.refl? _
    · simp only [found, otherFound, Option.map_some, Option.some_or, same]
      apply Option.Rel.some
      apply same_ofList
      exact forall₂_map_iff.2 below

/-! ## One step -/

theorem loadStep_of_unruled {node : IncludeNode} (unruled : node.recursion = none)
    (related : Record) :
    loadStep context branch node related
      = load context node.relation.target related node.children branch := by
  have isStep : context.step branch node related = .follow node.children := by
    unfold Context.step
    rw [unruled]
  unfold loadStep
  rw [isStep]
  rfl

/-- Where the count has ended, every relation in scope is left empty. -/
theorem loadStep_of_zero (relation : Relation) (related : Record) :
    loadStep context branch (.mk relation [] (some ⟨scope, .limit 0⟩)) related
      = withEmptyValues context.schema scope (load context relation.target related [] branch) :=
  rfl

/-- Where the count goes on, the next level is expanded. -/
theorem loadStep_of_succ (unlimited : context.maxDepth = none) {relation : Relation}
    {related : Record} (fresh : (⟨relation.target, related.key⟩ : Ancestor) ∉ branch) :
    loadStep context branch (.mk relation [] (some ⟨scope, .limit (levels + 1)⟩)) related
      = load context relation.target related
          (firstLevel context.schema relation.target ⟨scope, .limit levels⟩)
          branch := by
  have goesOn : context.stops branch ⟨scope, .limit (levels + 1)⟩
      ⟨relation.target, related.key⟩ = false := by
    refine stops_eq_false_iff.2 ⟨rfl, fresh, ?_⟩
    intro most isLimit
    rw [unlimited] at isLimit
    cases isLimit
  have isStep : context.step branch (.mk relation [] (some ⟨scope, .limit (levels + 1)⟩)) related
      = .follow (firstLevel context.schema relation.target ⟨scope, .limit levels⟩) := by
    show (if context.stops branch ⟨scope, .limit (levels + 1)⟩
      ⟨relation.target, related.key⟩ then _ else _) = _
    rw [goesOn]
    rfl
  unfold loadStep
  rw [isStep]
  rfl

/-- Where the count has ended, the empty values of the relations in scope show as those that
are filled in. -/
theorem same_withEmptyValues (namesDistinct : context.schema.NamesDistinct)
    (fills : settings.fillUnloadedRelations = true) (fits : Fits context.schema entity tree)
    (isEmpty : ∀ name, get? tree name = none) :
    Value.Same
      ((withEmptyValues context.schema scope (load context entity record [] chain)).toValue
        context.schema settings)
      ((load context entity record tree otherChain).toValue context.schema settings) := by
  let stopped := (Step.cut [] scope).finish context.schema (load context entity record [] chain)
  let unloaded := load context entity record tree otherChain
  have sameEntity : stopped.entity = unloaded.entity := by
    rw [entity_finish, entity_load, entity_load]
  have sameRecord : stopped.record = unloaded.record := by
    rw [record_finish, record_load, record_load]
  have stoppedDistinct : stopped.names.Nodup :=
    nodup_names_finish (nodup_names_load InclusionTree.distinct_nil)
  show Value.Same (stopped.toValue context.schema settings)
    (unloaded.toValue context.schema settings)
  apply Hydrated.same_toValue sameRecord stoppedDistinct (nodup_names_load fits.distinct)
  intro key
  have nothing : unloaded.relation? key = none := by
    rw [relation?_load fits, isEmpty]
    rfl
  unfold Hydrated.valueAt?
  rw [Hydrated.blank_congr sameEntity sameRecord, nothing]
  cases found : stopped.relation? key with
  | none => exact Value.Same.refl? _
  | some value =>
      have member := (Hydrated.relation?_eq_some_iff stoppedDistinct).1 found
      rcases mem_relations_finish member with loaded | isEmptied
      · have isNamed := Hydrated.mem_names.2 ⟨value, loaded⟩
        rw [names_load] at isNamed
        cases isNamed
      · obtain ⟨relation, declared, _, isEntry⟩ := isEmptied
        obtain ⟨rfl, rfl⟩ := Prod.mk.inj isEntry
        rw [entity_load] at declared
        have ofType : relation ∈ context.schema.relationsFrom unloaded.entity := by
          rw [entity_load]
          exact declared
        rw [Hydrated.get?_blank namesDistinct fills ofType, Option.map_some, Option.some_or,
          Attached.toValue_empty]
        exact Value.Same.refl? _

/-! ## The whole count -/

/-- A record shows the same along a level of a count and along a tree of its depth, as soon as
the records one step further do. -/
theorem same_load_of_steps (namesDistinct : context.schema.NamesDistinct)
    (unrolled : Unrolled context.schema scope (levels + 1) entity tree)
    (steps : ∀ relation ∈ context.schema.relationsFrom entity,
      scope.admits relation.name = true →
      ∀ related ∈ relation.yields context.schema context.view record,
      ∀ below, Unrolled context.schema scope levels relation.target below →
        Value.Same
          ((loadStep context (⟨entity, record.key⟩ :: chain)
            (.mk relation [] (some ⟨scope, .limit levels⟩)) related).toValue
              context.schema settings)
          ((load context relation.target related below
            (⟨entity, record.key⟩ :: otherChain)).toValue context.schema settings)) :
    Value.Same
      ((load context entity record
        (firstLevel context.schema entity ⟨scope, .limit levels⟩) chain).toValue
          context.schema settings)
      ((load context entity record tree otherChain).toValue context.schema settings) := by
  apply same_load (InclusionTree.fits_firstLevel namesDistinct entity _) unrolled.fits
  intro name
  rcases unrolled.cases_firstLevel namesDistinct ⟨scope, .limit levels⟩ name with
    absent | ⟨relation, declared, follows, node, found, rfl, inLevel⟩
  · exact .inl absent
  · refine .inr ⟨_, node, inLevel, found, rfl, ?_⟩
    intro related yielded
    rw [loadStep_of_unruled (unrolled.unruled name [] node found)]
    exact steps node.relation declared follows related yielded node.children
      (unrolled.children namesDistinct found)

/-- **A count agrees with a tree of its depth**, if it meets no record twice. -/
theorem same_load_firstLevel (namesDistinct : context.schema.NamesDistinct)
    (fills : settings.fillUnloadedRelations = true) (unlimited : context.maxDepth = none)
    (unrolled : Unrolled context.schema scope (levels + 1) entity tree)
    (unrepeated : Unrepeated context.schema context.view scope levels
      (⟨entity, record.key⟩ :: chain) entity record) :
    Value.Same
      ((load context entity record
        (firstLevel context.schema entity ⟨scope, .limit levels⟩) chain).toValue
          context.schema settings)
      ((load context entity record tree otherChain).toValue context.schema settings) := by
  -- over the count; the tree that it is compared with gets one level less deep with each step
  induction levels generalizing entity record tree chain otherChain with
  | zero =>
      apply same_load_of_steps namesDistinct unrolled
      intro relation _ _ related _ below belowUnrolled
      rw [loadStep_of_zero]
      exact same_withEmptyValues namesDistinct fills belowUnrolled.fits
        belowUnrolled.get?_eq_none
  | succ levels inductionHypothesis =>
      apply same_load_of_steps namesDistinct unrolled
      intro relation declared follows related yielded below belowUnrolled
      obtain ⟨fresh, onward⟩ := unrepeated.step ⟨relation, related⟩ declared follows yielded
      rw [loadStep_of_succ unlimited fresh]
      exact inductionHypothesis belowUnrolled onward

theorem same_load_of_unrolls (context : Context) (namesDistinct : context.schema.NamesDistinct)
    (fills : settings.fillUnloadedRelations = true) (unlimited : context.maxDepth = none)
    {lazy explicit : Load} (unrolls : Load.Unrolls levels scope lazy explicit)
    (unrepeated : Unrepeated context.schema context.view scope levels [⟨entity, record.key⟩] entity
      record) :
    Value.Same
      ((load context entity record (InclusionTree.build context.schema entity [lazy]) []).toValue
        context.schema settings)
      ((load context entity record (InclusionTree.build context.schema entity [explicit])
        []).toValue context.schema settings) := by
  have isLevel : InclusionTree.build context.schema entity [lazy]
      = firstLevel context.schema entity ⟨scope, .limit levels⟩ := by
    cases unrolls with
    | recursive names all => rfl
    | allRecursive => rfl
  rw [isLevel]
  have unrolled := InclusionTree.unrolled_of_unrolls namesDistinct entity unrolls
  exact same_load_firstLevel namesDistinct fills unlimited unrolled unrepeated

end Hydration

namespace Resolver

open Hydration

/-- **Recursion on demand agrees with explicit paths.** A recursive request of some depth, loaded
without a limit, shows the same as the paths that it stands for, with unloaded relations filled
in, for roots from which its walks meet no record twice. -/
theorem resolve_recursive_shows_paths {schema : Schema} (namesDistinct : schema.NamesDistinct)
    (view : RecordView) {settings : Settings} (fills : settings.fillUnloadedRelations = true)
    (unlimited : settings.maxRecursionDepth = none) (earlier otherEarlier : List Call)
    (entity : String) {roots : List Record} {levels : Nat} {scope : Scope} {lazy explicit : Load}
    (unrolls : Load.Unrolls levels scope lazy explicit)
    (unrepeated : ∀ root ∈ roots,
      Unrepeated schema view scope levels [⟨entity, root.key⟩] entity root) :
    List.Forall₂ Value.Same
      (Hydrated.toValues schema settings
        (((start view schema settings).serve earlier).resolve entity roots
          (InclusionTree.build schema entity [lazy])).1)
      (Hydrated.toValues schema settings
        (((start view schema settings).serve otherEarlier).resolve entity roots
          (InclusionTree.build schema entity [explicit])).1) := by
  rw [resolve_serve, resolve_serve, Hydrated.toValues_eq, Hydrated.toValues_eq, List.map_map,
    List.map_map, forall₂_map_iff]
  intro root member
  exact same_load_of_unrolls (start view schema settings).context namesDistinct fills unlimited
    unrolls (unrepeated root member)

end Resolver

namespace Library

def filled : Settings := { fillUnloadedRelations := true }

/-- A writer is no book. -/
theorem unrepeated_writer :
    Hydration.Unrepeated schema store.view (.only ["books", "author"]) 1
      [⟨"author", writer.key⟩] "author" writer := by
  intro walk lastEntity last isWalk _ short
  cases isWalk with
  | nil => exact List.nodup_singleton _
  | @cons _ _ _ _ hop rest declared yielded onward =>
      have isNil : rest = [] := List.eq_nil_of_length_eq_zero (by simpa using short)
      subst isNil
      have isBooks : hop.relation = books := List.mem_singleton.1 declared
      have isReached : hop.reached = ⟨"book", hop.record.key⟩ := by
        unfold Hydration.Hop.reached
        rw [isBooks]
        rfl
      show [hop.reached, ⟨"author", writer.key⟩].Nodup
      rw [isReached]
      simp

end Library

/-- What is shown for a writer by a recursive request, of one level to expand, is what all paths
of two names show. -/
theorem Resolver.resolve_recursive_shows_paths_library :
    Library.schema.NamesDistinct
      ∧ Library.filled.fillUnloadedRelations = true
      ∧ Library.filled.maxRecursionDepth = none
      ∧ Load.Unrolls 1 (.only ["books", "author"]) (.recursive ["books", "author"] (.limit 1))
          (.paths ((Path.choices (List.replicate 2 (["books", "author"].map .relation))).map .mk))
      ∧ (∀ root ∈ [Library.writer],
          Hydration.Unrepeated Library.schema Library.store.view (.only ["books", "author"]) 1
            [⟨"author", root.key⟩] "author" root)
      ∧ List.Forall₂ Value.Same
          (Hydrated.toValues Library.schema Library.filled
            (((Resolver.start Library.store.view Library.schema Library.filled).serve []).resolve
              "author" [Library.writer] (InclusionTree.build Library.schema "author"
                [.recursive ["books", "author"] (.limit 1)])).1)
          (Hydrated.toValues Library.schema Library.filled
            (((Resolver.start Library.store.view Library.schema Library.filled).serve []).resolve
              "author" [Library.writer] (InclusionTree.build Library.schema "author"
                [.paths ((Path.choices (List.replicate 2
                  (["books", "author"].map .relation))).map .mk)])).1) := by
  have unrolls := Load.unrolls_choices ["books", "author"] 1
  have unrepeated : ∀ root ∈ [Library.writer],
      Hydration.Unrepeated Library.schema Library.store.view (.only ["books", "author"]) 1
        [⟨"author", root.key⟩] "author" root := by
    intro root member
    rw [List.mem_singleton.1 member]
    exact Library.unrepeated_writer
  exact ⟨by decide, rfl, rfl, unrolls, unrepeated,
    Resolver.resolve_recursive_shows_paths (by decide) _ rfl rfl _ _ _ unrolls unrepeated⟩

end EagerLoad
