import EagerLoad.Proofs.Inclusion.Positions

/-!
Contract: what a tree keeps while more is requested.

Owns: trees that grew out of others; that unions and paths only let a tree grow; trees that have
a path; that a path is there once it was requested, that it stays there while the tree grows, and
that a request for it then changes nothing, whatever was added in between.

Does not own: where the relations of a tree are declared (`Typing.lean`).

Types may declare a name more than once here. The node of a name is then extended once for
each declaration, and keeps the relation that it was created with.
-/

set_option autoImplicit false

namespace EagerLoad.InclusionTree

open EagerLoad.Path (Segment)

variable {tree middle more : InclusionTree}

/-! ## Growth -/

/-- Every position of a tree is one of another tree, which carries the same relation there. -/
def Grown (tree more : InclusionTree) : Prop :=
  ∀ name rest node, nodeAt? tree name rest = some node →
    ∃ other, nodeAt? more name rest = some other ∧ other.relation = node.relation

theorem Grown.refl (tree : InclusionTree) : Grown tree tree :=
  fun _ _ node found => ⟨node, found, rfl⟩

theorem Grown.trans (grown : Grown tree middle) (further : Grown middle more) :
    Grown tree more := by
  intro name rest node found
  obtain ⟨other, otherFound, sameRelation⟩ := grown name rest node found
  obtain ⟨last, lastFound, keptRelation⟩ := further name rest other otherFound
  exact ⟨last, lastFound, keptRelation.trans sameRelation⟩

theorem Grown.get? (grown : Grown tree more) {name : String} {node : IncludeNode}
    (found : get? tree name = some node) :
    ∃ other, InclusionTree.get? more name = some other ∧ other.relation = node.relation
      ∧ Grown node.children other.children := by
  obtain ⟨other, otherFound, sameRelation⟩ := grown name [] node found
  refine ⟨other, otherFound, sameRelation, ?_⟩
  intro next rest child childFound
  rw [← nodeAt?_cons found] at childFound
  rw [← nodeAt?_cons otherFound]
  exact grown name (next :: rest) child childFound

theorem grown_of_get?
    (kept : ∀ name node, get? tree name = some node → ∃ other, get? more name = some other
      ∧ other.relation = node.relation ∧ Grown node.children other.children) : Grown tree more := by
  intro name rest node found
  cases rest with
  | nil =>
      obtain ⟨other, otherFound, sameRelation, _⟩ := kept name node found
      exact ⟨other, otherFound, sameRelation⟩
  | cons next rest =>
      obtain ⟨first, isFirst, onward⟩ := Option.bind_eq_some_iff.1 found
      obtain ⟨other, otherFound, _, below⟩ := kept name first isFirst
      rw [nodeAt?_cons otherFound]
      exact below next rest node onward

theorem grown_update {name : String} {change : IncludeNode → IncludeNode} {fresh : IncludeNode}
    (tree : InclusionTree) (keepsRelation : ∀ node, (change node).relation = node.relation)
    (freshName : fresh.name = name)
    (grows : ∀ node, Grown node.children (change node).children) :
    Grown tree (update name change fresh tree) := by
  have keepsName : ∀ node, (change node).name = node.name :=
    fun node => congrArg Relation.name (keepsRelation node)
  apply grown_of_get?
  intro other node found
  by_cases same : name = other
  · subst same
    rw [get?_update_self _ _ _ _ keepsName freshName, found]
    exact ⟨_, rfl, keepsRelation node, grows node⟩
  · rw [get?_update_of_ne _ _ _ keepsName freshName same]
    exact ⟨node, found, rfl, Grown.refl _⟩

theorem grown_merge (tree other : InclusionTree) : Grown tree (merge tree other) := by
  induction other using induction generalizing tree with
  | step other inductionHypothesis =>
      refine merge_induction (motive := Grown tree) ?_ (Grown.refl tree)
      intro node member reached grown
      rw [insert_eq]
      refine grown.trans (grown_update reached (fun _ => rfl) rfl ?_)
      exact fun old => inductionHypothesis node member old.children

theorem grown_insert (tree : InclusionTree) (node : IncludeNode) :
    Grown tree (insert tree node) := by
  have merged := grown_merge tree [node]
  rwa [merge_cons, merge_nil] at merged

/-! ## Paths -/

variable {schema : Schema} {entity : String} {segments rest : List Segment}
  {relations : List Relation} {relation : Relation}

/-- A tree with some segments requested below a relation. -/
def extendAt (schema : Schema) (segments : List Segment) (tree : InclusionTree)
    (relation : Relation) : InclusionTree :=
  update relation.name (extend schema segments relation)
    (extend schema segments relation (.plain relation)) tree

/-- A tree with some segments requested below each of some relations, one after the other. -/
def extendEach (schema : Schema) (segments : List Segment) (relations : List Relation)
    (tree : InclusionTree) : InclusionTree :=
  relations.foldl (extendAt schema segments) tree

theorem insertPath_eq_extendEach (schema : Schema) (tree : InclusionTree) (entity : String)
    (segment : Segment) (rest : List Segment) :
    insertPath schema tree entity (segment :: rest)
      = extendEach schema rest (relationsOf schema entity segment) tree :=
  insertPath_cons schema tree entity segment rest

theorem extendEach_cons (first : Relation) (relations : List Relation) (tree : InclusionTree) :
    extendEach schema segments (first :: relations) tree
      = extendEach schema segments relations (extendAt schema segments tree first) := rfl

theorem grown_extendEach
    (grows : ∀ tree entity, Grown tree (insertPath schema tree entity segments))
    (relations : List Relation) (tree : InclusionTree) :
    Grown tree (extendEach schema segments relations tree) := by
  refine List.foldlRecOn (motive := Grown tree) _ _ (Grown.refl tree) ?_
  intro reached grown relation _
  exact grown.trans (grown_update reached (fun _ => rfl) rfl fun _ => grows _ _)

theorem grown_insertPath (schema : Schema) (tree : InclusionTree) (entity : String)
    (segments : List Segment) : Grown tree (insertPath schema tree entity segments) := by
  induction segments generalizing tree entity with
  | nil => exact Grown.refl tree
  | cons segment rest inductionHypothesis =>
      rw [insertPath_eq_extendEach]
      exact grown_extendEach inductionHypothesis _ tree

theorem grown_extendAt (schema : Schema) (segments : List Segment) (tree : InclusionTree)
    (relation : Relation) : Grown tree (extendAt schema segments tree relation) :=
  grown_update tree (fun _ => rfl) rfl fun _ => grown_insertPath schema _ _ segments

/-- A tree has a node at every relation that a path comes to, also along the declarations of a
name that are not the first. -/
def HasPath (schema : Schema) : InclusionTree → String → List Segment → Prop
  | _, _, [] => True
  | tree, entity, segment :: rest =>
      ∀ relation ∈ relationsOf schema entity segment, ∃ node,
        get? tree relation.name = some node ∧ HasPath schema node.children relation.target rest

/-- What a tree has, it has after every growth. -/
theorem HasPath.grown (present : HasPath schema tree entity segments) (grown : Grown tree more) :
    HasPath schema more entity segments := by
  induction segments generalizing tree more entity with
  | nil => trivial
  | cons segment rest inductionHypothesis =>
      intro relation member
      obtain ⟨node, found, below⟩ := present relation member
      obtain ⟨other, otherFound, _, grownBelow⟩ := grown.get? found
      exact ⟨other, otherFound, inductionHypothesis below grownBelow⟩

theorem get?_extendAt (schema : Schema) (segments : List Segment) (tree : InclusionTree)
    (relation : Relation) :
    get? (extendAt schema segments tree relation) relation.name
      = some (extend schema segments relation
          ((get? tree relation.name).getD (.plain relation))) := by
  have keepsName : ∀ node, (extend schema segments relation node).name = node.name := fun _ => rfl
  have freshName : (extend schema segments relation (.plain relation)).name = relation.name := rfl
  unfold extendAt
  rw [get?_update_self _ _ _ _ keepsName freshName]
  cases get? tree relation.name <;> rfl

/-- A tree has the node of a relation, and below it a path from its target. -/
def HasBelow (schema : Schema) (segments : List Segment) (tree : InclusionTree)
    (relation : Relation) : Prop :=
  ∃ node, get? tree relation.name = some node
    ∧ HasPath schema node.children relation.target segments

theorem HasBelow.grown (present : HasBelow schema segments tree relation)
    (grown : Grown tree more) : HasBelow schema segments more relation := by
  obtain ⟨node, found, below⟩ := present
  obtain ⟨other, otherFound, _, grownBelow⟩ := grown.get? found
  exact ⟨other, otherFound, below.grown grownBelow⟩

theorem hasBelow_extendAt
    (added : ∀ tree entity, HasPath schema (insertPath schema tree entity segments) entity segments)
    (tree : InclusionTree) (relation : Relation) :
    HasBelow schema segments (extendAt schema segments tree relation) relation :=
  ⟨_, get?_extendAt schema segments tree relation, added _ _⟩

/-- Each relation has its segments below it after its own step, and keeps them. -/
theorem hasBelow_extendEach
    (added : ∀ tree entity, HasPath schema (insertPath schema tree entity segments) entity segments)
    (tree : InclusionTree) (member : relation ∈ relations) :
    HasBelow schema segments (extendEach schema segments relations tree) relation := by
  induction relations generalizing tree with
  | nil => cases member
  | cons first later inductionHypothesis =>
      rw [extendEach_cons]
      rcases List.mem_cons.1 member with rfl | isLater
      · have grown := grown_extendEach
          (fun tree entity => grown_insertPath schema tree entity segments) later
        exact (hasBelow_extendAt added tree relation).grown (grown _)
      · exact inductionHypothesis _ isLater

/-- A path is there once it was requested. -/
theorem hasPath_insertPath (schema : Schema) (tree : InclusionTree) (entity : String)
    (segments : List Segment) :
    HasPath schema (insertPath schema tree entity segments) entity segments := by
  induction segments generalizing tree entity with
  | nil => trivial
  | cons segment rest inductionHypothesis =>
      intro relation member
      rw [insertPath_eq_extendEach]
      exact hasBelow_extendEach inductionHypothesis tree member

theorem get?_cons_of_name_eq {name : String} {node : IncludeNode} (isNamed : node.name = name)
    (later : InclusionTree) : get? (node :: later) name = some node :=
  List.find?_cons_of_pos (beq_iff_eq.2 isNamed)

theorem get?_cons_of_name_ne {name : String} {node : IncludeNode} (differs : node.name ≠ name)
    (later : InclusionTree) : get? (node :: later) name = get? later name :=
  List.find?_cons_of_neg (mt beq_iff_eq.1 differs)

theorem update_eq_self {name : String} {change : IncludeNode → IncludeNode}
    {fresh node : IncludeNode} (found : get? tree name = some node) (same : change node = node) :
    update name change fresh tree = tree := by
  induction tree with
  | nil => cases found
  | cons first later inductionHypothesis =>
      rw [update]
      by_cases isNamed : first.name = name
      · rw [get?_cons_of_name_eq isNamed, Option.some.injEq] at found
        rw [if_pos isNamed, found, same]
      · rw [get?_cons_of_name_ne isNamed] at found
        rw [if_neg isNamed, inductionHypothesis found]

/-- Where there is a node of the name, it does not matter what a new one would be. -/
theorem update_eq_of_get? {name : String} {change : IncludeNode → IncludeNode}
    {fresh other node : IncludeNode} (found : get? tree name = some node) :
    update name change fresh tree = update name change other tree := by
  induction tree with
  | nil => cases found
  | cons first later inductionHypothesis =>
      rw [update, update]
      by_cases isNamed : first.name = name
      · rw [if_pos isNamed, if_pos isNamed]
      · rw [get?_cons_of_name_ne isNamed] at found
        rw [if_neg isNamed, if_neg isNamed, inductionHypothesis found]

/-- To request below a relation what is there already changes nothing. -/
theorem extendAt_eq_self
    (adds : ∀ tree entity, HasPath schema tree entity segments →
      insertPath schema tree entity segments = tree)
    (present : HasBelow schema segments tree relation) :
    extendAt schema segments tree relation = tree := by
  obtain ⟨node, found, below⟩ := present
  apply update_eq_self found
  unfold extend
  rw [adds _ _ below]
  cases node
  rfl

/-- **A path that is there adds nothing.** -/
theorem insertPath_eq_self (present : HasPath schema tree entity segments) :
    insertPath schema tree entity segments = tree := by
  induction segments generalizing tree entity with
  | nil => rfl
  | cons segment rest inductionHypothesis =>
      rw [insertPath_eq_extendEach]
      refine List.foldlRecOn (motive := fun reached => reached = tree) _ _ rfl ?_
      rintro reached rfl relation member
      exact extendAt_eq_self (fun _ _ => inductionHypothesis) (present relation member)

/-! ## One addition after the other -/

/-- An addition to a tree. Paths may follow whatever schema. -/
inductive Edit where
  | insert (node : IncludeNode)
  | merge (other : InclusionTree)
  | insertPath (schema : Schema) (entity : String) (segments : List Segment)

def Edit.apply (tree : InclusionTree) : Edit → InclusionTree
  | .insert node => tree.insert node
  | .merge other => tree.merge other
  | .insertPath schema entity segments => InclusionTree.insertPath schema tree entity segments

theorem Edit.grown_apply (tree : InclusionTree) (edit : Edit) : Grown tree (edit.apply tree) := by
  cases edit with
  | insert node => exact grown_insert tree node
  | merge other => exact grown_merge tree other
  | insertPath schema entity segments => exact grown_insertPath schema tree entity segments

theorem grown_edits (tree : InclusionTree) (edits : List Edit) :
    Grown tree (edits.foldl Edit.apply tree) := by
  refine List.foldlRecOn (motive := Grown tree) _ _ (Grown.refl tree) ?_
  exact fun reached grown edit _ => grown.trans (edit.grown_apply reached)

/-- A path that was requested once adds nothing after whatever other additions. -/
theorem insertPath_edits (schema : Schema) (tree : InclusionTree) (entity : String)
    (segments : List Segment) (edits : List Edit) :
    insertPath schema (edits.foldl Edit.apply (insertPath schema tree entity segments)) entity
        segments
      = edits.foldl Edit.apply (insertPath schema tree entity segments) :=
  insertPath_eq_self ((hasPath_insertPath schema tree entity segments).grown (grown_edits _ edits))

end EagerLoad.InclusionTree
