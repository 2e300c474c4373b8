import EagerLoad.Proofs.Inclusion.Lookup

/-!
Contract: which branches the tree of a list of requests has.

Owns: branches of a tree by name; the names that the segments of a path cover; paths of
declared relations; the branches, the rules and the shape that a tree has after a path
was inserted, after a level of a recursive request was added, and after all requests.

Does not own: what is loaded along a tree.

A tree of requests has rules at its top nodes only. Below them are the explicit paths,
and a recursive request adds nothing there: what it leads to is expanded while loading.
-/

set_option autoImplicit false

namespace EagerLoad

/-- Relations one after the other, each declared on the target of the one before. -/
def Schema.IsPath (schema : Schema) : String → List Relation → Prop
  | _, [] => True
  | entity, first :: rest =>
      first ∈ schema.relationsFrom entity ∧ schema.IsPath first.target rest

namespace Path.Segment

/-- A segment stands for its own name, a wildcard for all names. -/
def StandsFor : Segment → String → Prop
  | .relation own, name => own = name
  | .wildcard, _ => True

/-- The first segments stand for the names, one for one. -/
def Cover : List Segment → List String → Prop
  | _, [] => True
  | [], _ :: _ => False
  | segment :: segments, name :: names => segment.StandsFor name ∧ Cover segments names

theorem cover_nil (segments : List Segment) : Cover segments [] := by
  cases segments <;> trivial

theorem cover_cons_iff {segment : Segment} {segments : List Segment} {name : String}
    {names : List String} :
    Cover (segment :: segments) (name :: names) ↔ segment.StandsFor name ∧ Cover segments names :=
  Iff.rfl

end Path.Segment

namespace InclusionTree

open EagerLoad.Path (Segment)

/-- A tree has nodes of these names, one below the other. -/
def Branch : InclusionTree → List String → Prop
  | _, [] => True
  | tree, name :: rest => ∃ node, get? tree name = some node ∧ Branch node.children rest

theorem branch_nil_iff {names : List String} : Branch [] names ↔ names = [] := by
  cases names with
  | nil => exact ⟨fun _ => rfl, fun _ => trivial⟩
  | cons name rest =>
      constructor
      · intro holds
        rcases holds with ⟨node, found, _⟩
        cases found
      · intro impossible
        cases impossible

theorem branch_cons_iff {tree : InclusionTree} {name : String} {node : IncludeNode}
    {rest : List String} (found : get? tree name = some node) :
    Branch tree (name :: rest) ↔ Branch node.children rest := by
  constructor
  · intro holds
    rcases holds with ⟨other, otherFound, branch⟩
    rw [found] at otherFound
    cases otherFound
    exact branch
  · exact fun branch => ⟨node, found, branch⟩

theorem branch_below_iff {tree : InclusionTree} {name : String} {rest : List String} :
    Branch (below tree name) rest ↔ Branch tree (name :: rest) ∨ rest = [] := by
  unfold below
  cases found : get? tree name with
  | none =>
      show Branch [] rest ↔ _
      rw [branch_nil_iff]
      refine ⟨.inr, ?_⟩
      intro either
      rcases either with ⟨node, isFound, _⟩ | isNil
      · rw [found] at isFound
        cases isFound
      · exact isNil
  | some node =>
      rw [branch_cons_iff found]
      refine ⟨.inl, ?_⟩
      intro either
      rcases either with branch | rfl
      · exact branch
      · trivial

/-! ## One path -/

/-- A node of a relation with some segments requested below it. -/
def extend (schema : Schema) (segments : List Segment) (relation : Relation)
    (node : IncludeNode) : IncludeNode :=
  node.withChildren (insertPath schema node.children relation.target segments)

theorem insertPath_cons (schema : Schema) (tree : InclusionTree) (entity : String)
    (segment : Segment) (rest : List Segment) :
    insertPath schema tree entity (segment :: rest)
      = (relationsOf schema entity segment).foldl
          (fun tree relation => update relation.name (extend schema rest relation)
            (extend schema rest relation (.plain relation)) tree) tree := by
  rw [insertPath]
  rfl

variable {schema : Schema}

theorem mem_relationsOf (namesDistinct : schema.NamesDistinct) {entity : String}
    {segment : Segment} {relation : Relation} :
    relation ∈ relationsOf schema entity segment
      ↔ relation ∈ schema.relationsFrom entity ∧ segment.StandsFor relation.name := by
  cases segment with
  | relation name =>
      show relation ∈ (schema.relation? entity name).toList ↔ _ ∧ name = relation.name
      rw [Option.mem_toList, namesDistinct.relation?_eq_some_iff]
      exact and_congr_right fun _ => eq_comm
  | wildcard => exact ⟨fun declared => ⟨declared, trivial⟩, fun stands => stands.1⟩

theorem nodup_names_relationsOf (namesDistinct : schema.NamesDistinct) (entity : String)
    (segment : Segment) : ((relationsOf schema entity segment).map Relation.name).Nodup := by
  cases segment with
  | relation name =>
      show ((schema.relation? entity name).toList.map Relation.name).Nodup
      cases schema.relation? entity name <;> simp
  | wildcard => exact namesDistinct.nodup_names

theorem get?_insertPath_of_not_standsFor (namesDistinct : schema.NamesDistinct)
    {tree : InclusionTree} {entity name : String} {segment : Segment} {rest : List Segment}
    (other : ¬ segment.StandsFor name) :
    get? (insertPath schema tree entity (segment :: rest)) name = get? tree name := by
  rw [insertPath_cons]
  apply get?_foldl_update_of_not_mem Relation.name (extend schema rest)
    (fun relation => extend schema rest relation (.plain relation)) (fun _ _ => rfl) (fun _ => rfl)
  intro present
  obtain ⟨relation, member, sameName⟩ := List.mem_map.1 present
  rw [← sameName] at other
  exact other ((mem_relationsOf namesDistinct).1 member).2

/-- A path adds a node at each relation that its first segment stands for, with its rest
below it and no rule. -/
theorem exists_get?_insertPath (namesDistinct : schema.NamesDistinct) (tree : InclusionTree)
    {entity : String} {segment : Segment} (rest : List Segment) {relation : Relation}
    (declared : relation ∈ schema.relationsFrom entity) (stands : segment.StandsFor relation.name) :
    ∃ node, get? (insertPath schema tree entity (segment :: rest)) relation.name = some node
      ∧ node.children = insertPath schema (below tree relation.name) relation.target rest
      ∧ node.recursion = ruleAt tree relation.name := by
  have member := (mem_relationsOf namesDistinct).2 ⟨declared, stands⟩
  have found := get?_foldl_update_of_mem Relation.name (extend schema rest)
    (fun relation => extend schema rest relation (.plain relation)) tree
    (fun _ _ => rfl) (fun _ => rfl) (nodup_names_relationsOf namesDistinct entity segment) member
  rw [← insertPath_cons] at found
  refine ⟨_, found, ?_, ?_⟩
  · unfold below
    cases get? tree relation.name <;> rfl
  · unfold ruleAt
    cases get? tree relation.name <;> rfl

/-- **The branches that a path adds** are those whose names its segments cover. -/
theorem branch_insertPath (namesDistinct : schema.NamesDistinct) {segments : List Segment}
    {tree : InclusionTree} {entity : String} {relations : List Relation}
    (isPath : schema.IsPath entity relations) :
    Branch (insertPath schema tree entity segments) (relations.map Relation.name)
      ↔ Branch tree (relations.map Relation.name)
        ∨ Segment.Cover segments (relations.map Relation.name) := by
  induction segments generalizing tree entity relations with
  | nil =>
      cases relations with
      | nil => exact ⟨fun _ => .inl trivial, fun _ => trivial⟩
      | cons first rest => exact ⟨.inl, fun either => either.resolve_right id⟩
  | cons segment segments inductionHypothesis =>
      cases relations with
      | nil => exact ⟨fun _ => .inl trivial, fun _ => trivial⟩
      | cons first rest =>
          obtain ⟨declared, restIsPath⟩ := isPath
          rw [List.map_cons, Segment.cover_cons_iff]
          by_cases stands : segment.StandsFor first.name
          · obtain ⟨node, found, children, _⟩ :=
              exists_get?_insertPath namesDistinct tree segments declared stands
            rw [branch_cons_iff found, children, inductionHypothesis restIsPath, branch_below_iff]
            constructor
            · intro either
              rcases either with (branch | isNil) | covered
              · exact .inl branch
              · exact .inr ⟨stands, isNil ▸ Segment.cover_nil segments⟩
              · exact .inr ⟨stands, covered⟩
            · intro either
              rcases either with branch | ⟨_, covered⟩
              · exact .inl (.inl branch)
              · exact .inr covered
          · unfold Branch
            rw [get?_insertPath_of_not_standsFor namesDistinct stands]
            exact ⟨.inl, fun either => either.resolve_right fun covered => stands covered.1⟩

theorem ruleAt_insertPath (namesDistinct : schema.NamesDistinct) {tree : InclusionTree}
    {entity : String} {segments : List Segment} {relation : Relation}
    (declared : relation ∈ schema.relationsFrom entity) :
    ruleAt (insertPath schema tree entity segments) relation.name = ruleAt tree relation.name := by
  cases segments with
  | nil => rfl
  | cons segment rest =>
      by_cases stands : segment.StandsFor relation.name
      · obtain ⟨node, found, _, ruled⟩ :=
          exists_get?_insertPath namesDistinct tree rest declared stands
        rw [← ruled]
        exact ruleAt_of_get? found
      · unfold ruleAt
        rw [get?_insertPath_of_not_standsFor namesDistinct stands]

end InclusionTree

end EagerLoad
