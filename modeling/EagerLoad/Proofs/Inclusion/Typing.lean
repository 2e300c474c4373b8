import EagerLoad.Proofs.Inclusion.Declarations
import EagerLoad.Proofs.Inclusion.Growth

/-!
Contract: when the relations of a tree are declared on the types that they stand at.

Owns: trees whose relations are declared on the type at hand, and below each of them on its target;
what requests do to trees of first declarations; that trees of requests are well typed if and only
if first declarations lead along all names.

Does not own: what a growing tree keeps (`Growth.lean`), or which schemas have first declarations
that lead along all names (`Declarations.lean`).

A name that is declared on a type more than once stands for all of its declarations in a wildcard,
but has one node, and the node keeps the relation of the first of them. What is requested below the
later ones is looked up on their targets, and lands below the first. It is out of place there unless
the target of the first declares the same names, and so on along the path.
-/

set_option autoImplicit false

namespace EagerLoad

open EagerLoad.Path (Segment)

namespace InclusionTree

variable {schema : Schema} {declared weaker : String → Relation → Prop} {entity : String}
  {tree : InclusionTree}

/-! ## Typed trees -/

/-- The relation of each node is declared on the type at hand, and below it on its target.
`declared` says which relations of a type count as declared. -/
inductive Typed (declared : String → Relation → Prop) : String → InclusionTree → Prop
  | intro {entity : String} {tree : InclusionTree}
      (nodes : ∀ node ∈ tree, declared entity node.relation)
      (below : ∀ node ∈ tree, Typed declared node.relation.target node.children) :
      Typed declared entity tree

/-- Every relation of a tree is declared on the type that it stands at. -/
abbrev WellTyped (schema : Schema) : String → InclusionTree → Prop := Typed schema.Declares

namespace Typed

theorem node (typed : Typed declared entity tree) {node : IncludeNode} (member : node ∈ tree) :
    declared entity node.relation := by
  cases typed with
  | intro nodes below => exact nodes node member

theorem children (typed : Typed declared entity tree) {node : IncludeNode} (member : node ∈ tree) :
    Typed declared node.relation.target node.children := by
  cases typed with
  | intro nodes below => exact below node member

theorem imp (weaken : ∀ entity relation, declared entity relation → weaker entity relation)
    (typed : Typed declared entity tree) : Typed weaker entity tree := by
  induction typed with
  | intro nodes below inductionHypothesis =>
      exact .intro (fun node member => weaken _ _ (nodes node member)) inductionHypothesis

/-- What stands below a position is declared on the target of the relation there. -/
theorem of_nodeAt? (typed : Typed declared entity tree) {name next : String} {rest : List String}
    {node child : IncludeNode} (found : nodeAt? tree name rest = some node)
    (childFound : nodeAt? tree name (rest ++ [next]) = some child) :
    declared node.relation.target child.relation := by
  induction rest generalizing entity tree name with
  | nil =>
      have children := typed.children (List.mem_of_find?_eq_some found)
      rw [List.nil_append, nodeAt?_cons found] at childFound
      exact children.node (List.mem_of_find?_eq_some childFound)
  | cons following rest inductionHypothesis =>
      obtain ⟨first, isFirst, onward⟩ := Option.bind_eq_some_iff.1 found
      rw [List.cons_append, nodeAt?_cons isFirst] at childFound
      have children := typed.children (List.mem_of_find?_eq_some isFirst)
      exact inductionHypothesis children onward childFound

end Typed

theorem typed_nil (declared : String → Relation → Prop) (entity : String) :
    Typed declared entity [] :=
  .intro (fun _ member => nomatch member) (fun _ member => nomatch member)

theorem name_of_nodeAt? {name next : String} {rest : List String} {node : IncludeNode}
    (found : nodeAt? tree name (rest ++ [next]) = some node) : node.relation.name = next := by
  induction rest generalizing tree name with
  | nil =>
      obtain ⟨first, _, onward⟩ := Option.bind_eq_some_iff.1 found
      have isNamed := List.find?_some (show List.find? _ first.children = some node from onward)
      exact beq_iff_eq.1 isNamed
  | cons following rest inductionHypothesis =>
      obtain ⟨first, _, onward⟩ := Option.bind_eq_some_iff.1 found
      exact inductionHypothesis onward

theorem typed_update {name : String} {change : IncludeNode → IncludeNode} {fresh : IncludeNode}
    (typed : Typed declared entity tree)
    (keepsRelation : ∀ node, (change node).relation = node.relation)
    (changed : ∀ node ∈ tree, node.name = name →
      Typed declared node.relation.target (change node).children)
    (freshDeclared : declared entity fresh.relation)
    (freshTyped : Typed declared fresh.relation.target fresh.children) :
    Typed declared entity (update name change fresh tree) := by
  refine .intro ?_ ?_
  · intro node member
    rcases mem_update member with kept | rfl | ⟨old, oldMember, _, rfl⟩
    · exact typed.node kept
    · exact freshDeclared
    · rw [keepsRelation]
      exact typed.node oldMember
  · intro node member
    rcases mem_update member with kept | rfl | ⟨old, oldMember, sameName, rfl⟩
    · exact typed.children kept
    · exact freshTyped
    · rw [keepsRelation]
      exact changed old oldMember sameName

/-! ## Trees of first declarations -/

/-- Nodes of one name carry one relation where both carry the first of the name. -/
theorem relation_eq_of_name_eq {node other : IncludeNode}
    (isFirst : schema.DeclaresFirst entity node.relation)
    (otherFirst : schema.DeclaresFirst entity other.relation) (sameName : node.name = other.name) :
    node.relation = other.relation := by
  have found : schema.relation? entity node.name = some node.relation := isFirst
  rw [sameName] at found
  exact Option.some.inj (found.symm.trans otherFirst)

theorem typed_merge {other : InclusionTree} (typed : Typed schema.DeclaresFirst entity tree)
    (otherTyped : Typed schema.DeclaresFirst entity other) :
    Typed schema.DeclaresFirst entity (merge tree other) := by
  induction other using induction generalizing tree entity with
  | step other inductionHypothesis =>
      refine merge_induction (motive := Typed schema.DeclaresFirst entity) ?_ typed
      intro node member reached typed
      have isFirst := otherTyped.node member
      rw [insert_eq]
      refine typed_update typed (fun _ => rfl) ?_ isFirst (otherTyped.children member)
      intro old oldMember sameName
      have sameRelation := relation_eq_of_name_eq (typed.node oldMember) isFirst sameName
      have children := typed.children oldMember
      rw [sameRelation] at children ⊢
      exact inductionHypothesis node member children (otherTyped.children member)

/-- A fold over declarations comes to the first of a name before it comes to the others, so that
it has what the first asks for by then. -/
theorem foldl_declarations {step : InclusionTree → Relation → InclusionTree}
    {motive : InclusionTree → Prop} (has : InclusionTree → Relation → Prop)
    {relations : List Relation} (start : motive tree)
    (keeps : ∀ tree relation earlier, has tree earlier → has (step tree relation) earlier)
    (gains : ∀ tree relation, has (step tree relation) relation)
    (first : ∀ tree, ∀ relation ∈ relations,
      relations.find? (fun other => other.name == relation.name) = some relation →
      motive tree → motive (step tree relation))
    (later : ∀ tree, ∀ relation ∈ relations, ∀ earlier,
      relations.find? (fun other => other.name == relation.name) = some earlier →
      has tree earlier → motive tree → motive (step tree relation)) :
    motive (relations.foldl step tree) := by
  have fromThere : ∀ after before tree, relations = before ++ after →
      (∀ earlier ∈ before, has tree earlier) → motive tree → motive (after.foldl step tree) := by
    intro after
    induction after with
    | nil => exact fun _ _ _ _ holds => holds
    | cons relation rest inductionHypothesis =>
        intro before tree split known holds
        have member : relation ∈ relations := split ▸ List.mem_append_cons_self
        rw [List.foldl_cons]
        apply inductionHypothesis (before ++ [relation])
        · rw [split, List.append_assoc]
          rfl
        · intro earlier earlierMember
          rcases List.mem_append.1 earlierMember with isBefore | isThis
          · exact keeps tree relation earlier (known earlier isBefore)
          · rw [List.mem_singleton.1 isThis]
            exact gains tree relation
        · cases found : before.find? fun other => other.name == relation.name with
          | none =>
              refine first tree relation member ?_ holds
              rw [split, List.find?_append, found, Option.none_or]
              exact List.find?_cons_of_pos (beq_self_eq_true relation.name)
          | some earlier =>
              refine later tree relation member earlier ?_
                (known earlier (List.mem_of_find?_eq_some found)) holds
              rw [split, List.find?_append, found, Option.some_or]
  exact fromThere relations [] tree rfl (fun _ member => nomatch member) start

theorem declares_of_mem_relationsOf {segment : Segment} {relation : Relation}
    (member : relation ∈ relationsOf schema entity segment) :
    schema.Declares entity relation := by
  cases segment with
  | relation name => exact List.mem_of_find?_eq_some (Option.mem_toList.1 member)
  | wildcard => exact member

/-- A path that is there along first declarations is there along all others that these follow. -/
theorem HasPath.of_follows {other : String} {segments : List Segment}
    (follows : schema.Follows entity other) (present : HasPath schema tree entity segments) :
    HasPath schema tree other segments := by
  induction segments generalizing tree entity other with
  | nil => trivial
  | cons segment rest inductionHypothesis =>
      intro relation member
      obtain ⟨first, isFirst, onward⟩ := follows.step (declares_of_mem_relationsOf member)
      have firstMember : first ∈ relationsOf schema entity segment := by
        cases segment with
        | relation name =>
            rw [Schema.name_of_relation? (Option.mem_toList.1 member)] at isFirst
            exact Option.mem_toList.2 isFirst
        | wildcard => exact List.mem_of_find?_eq_some isFirst
      obtain ⟨node, found, below⟩ := present first firstMember
      rw [Schema.name_of_relation? isFirst] at found
      exact ⟨node, found, inductionHypothesis onward below⟩

/-- Below its first declaration a name has what a later declaration asks for. -/
theorem HasBelow.of_later {segments : List Segment} {first relation : Relation}
    (follows : schema.Follows entity entity) (declared : schema.Declares entity relation)
    (isFirst : schema.relation? entity relation.name = some first)
    (present : HasBelow schema segments tree first) : HasBelow schema segments tree relation := by
  obtain ⟨node, found, below⟩ := present
  obtain ⟨other, otherFirst, onward⟩ := follows.step declared
  have sameFirst : other = first := Option.some.inj (otherFirst.symm.trans isFirst)
  rw [sameFirst] at onward
  rw [Schema.name_of_relation? isFirst] at found
  exact ⟨node, found, below.of_follows onward⟩

/-- Below a first declaration a path goes on from the type that the node leads to. -/
theorem typed_extendAt {segments : List Segment} {relation : Relation}
    (isFirst : schema.DeclaresFirst entity relation)
    (onward : ∀ {tree}, Typed schema.DeclaresFirst relation.target tree →
      Typed schema.DeclaresFirst relation.target
        (insertPath schema tree relation.target segments))
    (typed : Typed schema.DeclaresFirst entity tree) :
    Typed schema.DeclaresFirst entity (extendAt schema segments tree relation) := by
  refine typed_update typed (fun _ => rfl) ?_ isFirst (onward (typed_nil _ _))
  intro node member sameName
  have plainFirst : schema.DeclaresFirst entity (IncludeNode.plain relation).relation := isFirst
  have sameRelation : node.relation = relation :=
    relation_eq_of_name_eq (typed.node member) plainFirst sameName
  have children := typed.children member
  rw [sameRelation] at children ⊢
  exact onward children

/-- **A path keeps the first declarations.** It adds to a tree along these only, since a later
declaration comes after the first and finds the path there already. -/
theorem typed_insertPath (follows : schema.Follows entity entity)
    (typed : Typed schema.DeclaresFirst entity tree) (segments : List Segment) :
    Typed schema.DeclaresFirst entity (insertPath schema tree entity segments) := by
  induction segments generalizing tree entity with
  | nil => exact typed
  | cons segment rest inductionHypothesis =>
      have alongFirst : ∀ (reached : InclusionTree) (relation : Relation),
          schema.DeclaresFirst entity relation → Typed schema.DeclaresFirst entity reached →
          Typed schema.DeclaresFirst entity (extendAt schema rest reached relation) :=
        fun reached relation isFirst typed =>
          typed_extendAt isFirst (inductionHypothesis (follows.target isFirst)) typed
      rw [insertPath_eq_extendEach]
      cases segment with
      | relation name =>
          show Typed _ entity (extendEach schema rest (schema.relation? entity name).toList tree)
          cases found : schema.relation? entity name with
          | none => exact typed
          | some relation =>
              exact alongFirst tree relation (Schema.declaresFirst_of_relation? found) typed
      | wildcard =>
          refine foldl_declarations (HasBelow schema rest) typed ?_ ?_ ?_ ?_
          · exact fun reached relation earlier present =>
              present.grown (grown_extendAt schema rest reached relation)
          · exact hasBelow_extendAt fun tree entity => hasPath_insertPath schema tree entity rest
          · exact fun reached relation _ isFirst typed => alongFirst reached relation isFirst typed
          · intro reached relation declared earlier isFirst present typed
            rw [extendAt_eq_self (fun _ _ => insertPath_eq_self)
              (present.of_later follows declared isFirst)]
            exact typed

/-! ## Levels of recursive requests -/

theorem typed_insert_childless (typed : Typed schema.DeclaresFirst entity tree)
    {relation : Relation} (isFirst : schema.DeclaresFirst entity relation)
    (rule : Option Recursion) :
    Typed schema.DeclaresFirst entity (insert tree (.mk relation [] rule)) := by
  have single : Typed schema.DeclaresFirst entity [.mk relation [] rule] := by
    refine .intro ?_ ?_
    · intro node member
      rw [List.mem_singleton.1 member]
      exact isFirst
    · intro node member
      rw [List.mem_singleton.1 member]
      exact typed_nil _ _
  have merged := typed_merge typed single
  rwa [merge_cons, merge_nil] at merged

/-- A scope goes by names, so the first admitted declaration of a name is the first of all. -/
theorem relation?_eq_of_find?_admitted {scope : Scope} {name : String} {relation : Relation}
    (admitted : scope.admits name = true)
    (found : ((schema.relationsFrom entity).filter fun other => scope.admits other.name).find?
      (fun other => other.name == name) = some relation) :
    schema.relation? entity name = some relation := by
  have sameTest : (fun other : Relation => decide (scope.admits other.name = true
        ∧ (other.name == name) = true)) = fun other => other.name == name := by
    funext other
    by_cases isNamed : other.name = name
    · rw [isNamed, admitted]
      simp
    · simp [isNamed]
  rw [List.find?_filter, sameTest] at found
  exact found

theorem typed_recursiveLevel (schema : Schema) (entity : String) (rule : Recursion) :
    Typed schema.DeclaresFirst entity (recursiveLevel schema entity rule) := by
  refine foldl_declarations (fun reached relation => ∃ node,
      get? reached relation.name = some node) (typed_nil _ _) ?_ ?_ ?_ ?_
  · intro reached relation earlier known
    obtain ⟨node, found⟩ := known
    obtain ⟨other, otherFound, _⟩ :=
      (grown_insert reached (.mk relation [] (some rule))).get? found
    exact ⟨other, otherFound⟩
  · intro reached relation
    have keepsName : ∀ old, (absorb old (.mk relation [] (some rule))).name = old.name :=
      fun _ => rfl
    rw [insert_eq]
    exact ⟨_, get?_update_self _ _ _ reached keepsName rfl⟩
  · intro reached relation member isFirst typed
    have admitted := (List.mem_filter.1 member).2
    exact typed_insert_childless typed (relation?_eq_of_find?_admitted admitted isFirst) _
  · intro reached relation member earlier isFirst known typed
    obtain ⟨node, found⟩ := known
    have admitted := (List.mem_filter.1 member).2
    have isDeclared := relation?_eq_of_find?_admitted admitted isFirst
    have sameName := Schema.name_of_relation? isDeclared
    -- the node of the name is there, and takes from either declaration the rule only
    have sameInsert : insert reached (.mk relation [] (some rule))
        = insert reached (.mk earlier [] (some rule)) := by
      rw [insert_eq, insert_eq]
      show update relation.name _ _ reached = update earlier.name _ _ reached
      rw [← sameName]
      exact update_eq_of_get? found
    rw [sameInsert]
    exact typed_insert_childless typed (Schema.declaresFirst_of_relation? isDeclared) _

/-! ## Trees of requests -/

/-- Where first declarations lead along all names, trees of requests carry these and no others. -/
theorem typed_build (follows : schema.Follows entity entity) (loads : List Load) :
    Typed schema.DeclaresFirst entity (build schema entity loads) := by
  rw [build_eq]
  refine List.foldlRecOn (motive := Typed schema.DeclaresFirst entity) _ _ (typed_nil _ _) ?_
  intro reached typed request _
  cases request with
  | path segments => exact typed_insertPath follows typed segments
  | recursive rule => exact typed_merge typed (typed_recursiveLevel schema entity rule)

/-- A name requests its first declaration. -/
theorem get?_insertPath_name {name : String} {rest : List Segment} {relation : Relation}
    (found : schema.relation? entity name = some relation) :
    get? (insertPath schema [] entity (.relation name :: rest)) name
      = some (.mk relation (insertPath schema [] relation.target rest) none) := by
  have onlyFirst : relationsOf schema entity (.relation name) = [relation] := by
    show (schema.relation? entity name).toList = _
    rw [found]
    rfl
  rw [insertPath_eq_extendEach, onlyFirst]
  exact get?_cons_of_name_eq (Schema.name_of_relation? found) []

/-- The path of some names carries the first declarations along them. -/
theorem exists_nodeAt?_insertPath {name : String} {rest : List String} {relation : Relation}
    (found : schema.relationAt? entity name rest = some relation) :
    ∃ node, nodeAt? (insertPath schema [] entity ((name :: rest).map Segment.relation)) name rest
        = some node
      ∧ node.relation = relation := by
  induction rest generalizing entity name with
  | nil =>
      have isAdded : get? (insertPath schema [] entity [.relation name]) name = _ :=
        get?_insertPath_name found
      exact ⟨_, isAdded, rfl⟩
  | cons next rest inductionHypothesis =>
      obtain ⟨first, isFirst, onward⟩ := Option.bind_eq_some_iff.1 found
      obtain ⟨node, nodeFound, carries⟩ := inductionHypothesis onward
      rw [List.map_cons, nodeAt?_cons (get?_insertPath_name isFirst)]
      exact ⟨node, nodeFound, carries⟩

/-- A path of wildcards has a node along whatever declarations. -/
theorem HasPath.exists_nodeAt? {first : Relation} {rest : List Relation}
    (present : HasPath schema tree entity ((first :: rest).map fun _ => Segment.wildcard))
    (isPath : schema.IsPath entity (first :: rest)) :
    ∃ node, nodeAt? tree first.name (rest.map Relation.name) = some node := by
  induction rest generalizing tree entity first with
  | nil =>
      obtain ⟨node, found, _⟩ := present first isPath.1
      exact ⟨node, found⟩
  | cons next rest inductionHypothesis =>
      obtain ⟨node, found, below⟩ := present first isPath.1
      rw [List.map_cons, nodeAt?_cons found]
      exact inductionHypothesis below isPath.2

/-- **Well typed trees need the first declarations.** Names that some declarations lead along are
requested twice: by name, which puts the first declarations there, and by wildcards, which put a
node behind them. -/
theorem follows_of_wellTyped
    (wellTyped : ∀ loads, WellTyped schema entity (build schema entity loads)) :
    schema.Follows entity entity := by
  intro first rest
  -- one name more at the end, from what the names before it lead to
  induction rest using List.reverseRecOn with
  | nil => exact fun isPath => Schema.exists_relation? isPath.1
  | append_singleton rest last inductionHypothesis =>
      intro isPath
      have isPathBefore : schema.IsPath entity (first :: rest) :=
        Schema.isPath_of_concat (show schema.IsPath entity ((first :: rest) ++ [last]) from isPath)
      obtain ⟨relation, isAt⟩ := inductionHypothesis isPathBefore
      let byName : List Segment :=
        (first.name :: rest.map Relation.name).map Segment.relation
      let byWildcard : List Segment := (first :: (rest ++ [last])).map fun _ => .wildcard
      let named := insertPath schema [] entity byName
      have typed : WellTyped schema entity (insertPath schema named entity byWildcard) :=
        wellTyped [.paths [⟨byName⟩, ⟨byWildcard⟩]]
      obtain ⟨node, found, carries⟩ := exists_nodeAt?_insertPath isAt
      obtain ⟨kept, keptFound, sameRelation⟩ :=
        grown_insertPath schema named entity byWildcard _ _ node found
      obtain ⟨child, childFound⟩ :=
        (hasPath_insertPath schema named entity byWildcard).exists_nodeAt? isPath
      rw [List.map_append, List.map_singleton] at childFound ⊢
      have declared := typed.of_nodeAt? keptFound childFound
      rw [sameRelation, carries] at declared
      rw [Schema.relationAt?_concat, isAt, Option.bind_some, ← name_of_nodeAt? childFound]
      exact Schema.exists_relation? declared

/-! ## The top of a tree -/

/-- The relations at the top of a tree are declared on a type. -/
def TopDeclared (schema : Schema) (entity : String) (tree : InclusionTree) : Prop :=
  ∀ node ∈ tree, schema.Declares entity node.relation

theorem topDeclared_update {name : String} {change : IncludeNode → IncludeNode}
    {fresh : IncludeNode} (top : TopDeclared schema entity tree)
    (keepsRelation : ∀ node, (change node).relation = node.relation)
    (freshDeclared : schema.Declares entity fresh.relation) :
    TopDeclared schema entity (update name change fresh tree) := by
  intro node member
  rcases mem_update member with kept | rfl | ⟨old, oldMember, _, rfl⟩
  · exact top node kept
  · exact freshDeclared
  · rw [keepsRelation]
    exact top old oldMember

theorem topDeclared_insertPath (top : TopDeclared schema entity tree) (segments : List Segment) :
    TopDeclared schema entity (insertPath schema tree entity segments) := by
  cases segments with
  | nil => exact top
  | cons segment rest =>
      rw [insertPath_eq_extendEach]
      refine List.foldlRecOn (motive := TopDeclared schema entity) _ _ top ?_
      intro reached top relation member
      exact topDeclared_update top (fun _ => rfl) (declares_of_mem_relationsOf member)

theorem topDeclared_merge_recursiveLevel (top : TopDeclared schema entity tree)
    (rule : Recursion) :
    TopDeclared schema entity (merge tree (recursiveLevel schema entity rule)) := by
  refine merge_induction (motive := TopDeclared schema entity) ?_ top
  intro node member reached top
  rw [insert_eq]
  exact topDeclared_update top (fun _ => rfl)
    (isFollowed_of_mem_recursiveLevel node member).declared

/-- At the top every relation is declared, whatever the schema repeats. -/
theorem topDeclared_build (schema : Schema) (entity : String) (loads : List Load) :
    TopDeclared schema entity (build schema entity loads) := by
  rw [build_eq]
  refine List.foldlRecOn (motive := TopDeclared schema entity) _ _
    (fun _ member => nomatch member) ?_
  intro reached top request _
  cases request with
  | path segments => exact topDeclared_insertPath top segments
  | recursive rule => exact topDeclared_merge_recursiveLevel top rule

/-- **When trees of requests are well typed.** At the top they always are. All trees for a type are
well typed on every level if and only if first declarations lead along whatever names declarations
lead along from the type. This holds where no type declares a name twice, and so of every schema
whose relations were declared one at a time. -/
theorem build_wellTyped_iff (schema : Schema) (entity : String) :
    (∀ loads, TopDeclared schema entity (build schema entity loads))
      ∧ ((∀ loads, WellTyped schema entity (build schema entity loads))
          ↔ schema.Follows entity entity)
      ∧ (schema.NamesDistinct → schema.Follows entity entity)
      ∧ ∀ (declarations : List Relation) (loads : List Load),
          let built := declarations.foldl Schema.withRelation { schema with relations := [] }
          WellTyped built entity (build built entity loads) := by
  have wellTyped : ∀ {schema : Schema}, schema.Follows entity entity →
      ∀ loads, WellTyped schema entity (build schema entity loads) :=
    fun follows loads => (typed_build follows loads).imp fun _ _ => Schema.DeclaresFirst.declares
  refine ⟨topDeclared_build schema entity, ⟨follows_of_wellTyped, wellTyped⟩,
    fun namesDistinct => namesDistinct.follows entity, ?_⟩
  intro declarations loads built
  have noneDeclared : { schema with relations := [] }.NamesDistinct := List.nodup_nil
  have namesDistinct := Schema.namesDistinct_foldl_withRelation noneDeclared declarations
  exact wellTyped (namesDistinct.follows entity) loads

end InclusionTree

namespace Library

/-- An author has works, which are books. -/
def works : Relation where
  name := "works"
  source := "author"
  target := "book"
  kind := .oneToMany
  foreignKey := "author"

/-- By a second declaration the works are essays. -/
def essays : Relation := { works with target := "essay" }

/-- An essay appeared in a journal. -/
def journal : Relation where
  name := "journal"
  source := "essay"
  target := "journal"
  kind := .belongsTo
  foreignKey := "journal"

/-- Two declarations of one name, of which the second leads further. -/
def essaySchema : Schema := { relations := [works, essays, journal] }

/-- Two declarations of one name, neither of which leads further. -/
def workSchema : Schema := { relations := [works, essays] }

theorem follows_workSchema : workSchema.Follows "author" "author" := by
  intro first rest isPath
  have isWork : first = works ∨ first = essays := by
    have declared : first ∈ [works, essays] := isPath.1
    simpa using declared
  cases rest with
  | nil => rcases isWork with rfl | rfl <;> exact ⟨works, by decide⟩
  | cons next rest =>
      have nothing : workSchema.relationsFrom first.target = [] := by
        rcases isWork with rfl | rfl <;> decide
      have declared := isPath.2.1
      rw [nothing] at declared
      cases declared

end Library

/-- The trees of requests for authors are well typed as long as no work leads further. -/
theorem InclusionTree.build_wellTyped_iff_library :
    ¬ Library.workSchema.NamesDistinct
      ∧ Library.workSchema.Follows "author" "author"
      ∧ InclusionTree.WellTyped Library.workSchema "author"
          (InclusionTree.build Library.workSchema "author"
            [.paths [⟨[.wildcard, .relation "journal"]⟩]]) :=
  ⟨by decide, Library.follows_workSchema,
    (InclusionTree.build_wellTyped_iff Library.workSchema "author").2.1.2
      Library.follows_workSchema _⟩

/-- The journals of works are requested of books, which have none: they were looked up on essays. -/
theorem InclusionTree.build_not_wellTyped_library :
    ¬ InclusionTree.WellTyped Library.essaySchema "author"
        (InclusionTree.build Library.essaySchema "author"
          [.paths [⟨[.wildcard, .relation "journal"]⟩]]) := by
  intro typed
  have isTree : InclusionTree.build Library.essaySchema "author"
        [.paths [⟨[.wildcard, .relation "journal"]⟩]]
      = [.mk Library.works [.plain Library.journal] none] := by decide
  rw [isTree] at typed
  have below := typed.children (List.mem_singleton_self _)
  have declared : Library.journal ∈ Library.essaySchema.relationsFrom "book" :=
    below.node (List.mem_singleton_self _)
  have nothing : Library.essaySchema.relationsFrom "book" = [] := by decide
  rw [nothing] at declared
  cases declared

end EagerLoad
