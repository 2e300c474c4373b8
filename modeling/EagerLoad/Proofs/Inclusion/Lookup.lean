import EagerLoad.Proofs.Inclusion.Siblings

/-!
Contract: nodes of an inclusion tree by name, after the operations that build trees.

Owns: schemas whose types declare no name twice; what lies below a name and which rule
stands there; how unions with a level of a recursive request change both.

Does not own: the insertion of paths.
-/

set_option autoImplicit false

namespace EagerLoad

namespace Schema

/-- No type declares two relations of one name. -/
def NamesDistinct (schema : Schema) : Prop :=
  (schema.relations.map fun relation => (relation.source, relation.name)).Nodup

instance (schema : Schema) : Decidable schema.NamesDistinct :=
  inferInstanceAs (Decidable (List.Nodup _))

variable {schema : Schema} {entity : String}

theorem mem_relationsFrom {relation : Relation} :
    relation ∈ schema.relationsFrom entity
      ↔ relation ∈ schema.relations ∧ relation.source = entity := by
  unfold relationsFrom
  rw [List.mem_filter, beq_iff_eq]

theorem NamesDistinct.eq_of_name_eq (namesDistinct : schema.NamesDistinct)
    {first second : Relation} (firstDeclared : first ∈ schema.relationsFrom entity)
    (secondDeclared : second ∈ schema.relationsFrom entity) (sameName : first.name = second.name) :
    first = second := by
  obtain ⟨firstMember, firstSource⟩ := mem_relationsFrom.1 firstDeclared
  obtain ⟨secondMember, secondSource⟩ := mem_relationsFrom.1 secondDeclared
  have sameSource : first.source = second.source := firstSource.trans secondSource.symm
  apply List.inj_on_of_nodup_map namesDistinct firstMember secondMember
  rw [sameSource, sameName]

theorem NamesDistinct.nodup_names (namesDistinct : schema.NamesDistinct) :
    ((schema.relationsFrom entity).map Relation.name).Nodup := by
  have distinct : (schema.relationsFrom entity).Nodup :=
    (List.Nodup.of_map _ namesDistinct).filter _
  apply List.Nodup.map_on _ distinct
  intro first firstDeclared second secondDeclared sameName
  exact namesDistinct.eq_of_name_eq firstDeclared secondDeclared sameName

theorem NamesDistinct.relation?_eq_some_iff (namesDistinct : schema.NamesDistinct) {name : String}
    {relation : Relation} :
    schema.relation? entity name = some relation
      ↔ relation ∈ schema.relationsFrom entity ∧ relation.name = name :=
  find?_eq_some_iff_of_nodup namesDistinct.nodup_names

end Schema

namespace InclusionTree

/-! ## Changes one name at a time -/

section

variable {α : Type} (name : α → String) (change : α → IncludeNode → IncludeNode)
  (fresh : α → IncludeNode)

theorem get?_foldl_update_of_not_mem {items : List α} {tree : InclusionTree} {other : String}
    (keepsName : ∀ item node, (change item node).name = node.name)
    (freshName : ∀ item, (fresh item).name = name item) (absent : other ∉ items.map name) :
    get? (items.foldl (fun tree item => update (name item) (change item) (fresh item) tree) tree)
        other
      = get? tree other := by
  induction items generalizing tree with
  | nil => rfl
  | cons item rest inductionHypothesis =>
      rw [List.map_cons, List.mem_cons, not_or] at absent
      rw [List.foldl_cons, inductionHypothesis absent.2]
      exact get?_update_of_ne _ _ _ (keepsName item) (freshName item) (Ne.symm absent.1)

/-- Where each name is changed once, a changed node is what it was, changed, and a new
one is fresh. -/
theorem get?_foldl_update_of_mem {items : List α} (tree : InclusionTree) {item : α}
    (keepsName : ∀ item node, (change item node).name = node.name)
    (freshName : ∀ item, (fresh item).name = name item) (distinct : (items.map name).Nodup)
    (member : item ∈ items) :
    get? (items.foldl (fun tree item => update (name item) (change item) (fresh item) tree) tree)
        (name item)
      = some (((get? tree (name item)).map (change item)).getD (fresh item)) := by
  induction items generalizing tree with
  | nil => cases member
  | cons first rest inductionHypothesis =>
      obtain ⟨absent, restDistinct⟩ := List.nodup_cons.1 distinct
      rw [List.foldl_cons]
      rcases List.mem_cons.1 member with rfl | later
      · rw [get?_foldl_update_of_not_mem name change fresh keepsName freshName absent,
          get?_update_self _ _ _ _ (keepsName item) (freshName item)]
        cases get? tree (name item) <;> rfl
      · have other : name first ≠ name item := fun same =>
          absent (same ▸ List.mem_map_of_mem later)
        rw [inductionHypothesis _ restDistinct later,
          get?_update_of_ne _ _ _ (keepsName first) (freshName first) other]

end

/-! ## What stands at a name -/

/-- What is requested below a name. -/
def below (tree : InclusionTree) (name : String) : InclusionTree :=
  ((get? tree name).map IncludeNode.children).getD []

/-- The rule at a name. -/
def ruleAt (tree : InclusionTree) (name : String) : Option Recursion :=
  (get? tree name).bind IncludeNode.recursion

theorem ruleAt_of_get? {tree : InclusionTree} {name : String} {node : IncludeNode}
    (found : get? tree name = some node) : ruleAt tree name = node.recursion := by
  unfold ruleAt
  rw [found]
  rfl

theorem merge_eq_foldl (tree other : InclusionTree) :
    merge tree other
      = other.foldl (fun tree node => update node.name (fun old => absorb old node) node tree)
          tree := by
  induction other generalizing tree with
  | nil => exact merge_nil tree
  | cons node rest inductionHypothesis =>
      rw [merge_cons, inductionHypothesis, insert_eq, List.foldl_cons]

theorem mem_names_insert {tree : InclusionTree} {node : IncludeNode} {name : String} :
    name ∈ (insert tree node).map IncludeNode.name
      ↔ name ∈ tree.map IncludeNode.name ∨ name = node.name := by
  have keepsName : ∀ old, (absorb old node).name = old.name := fun _ => rfl
  rw [insert_eq, names_update tree keepsName rfl]
  by_cases known : node.name ∈ tree.map IncludeNode.name
  · rw [if_pos known]
    refine ⟨.inl, ?_⟩
    intro either
    rcases either with present | rfl
    · exact present
    · exact known
  · rw [if_neg known, List.mem_append, List.mem_singleton]

theorem get?_merge_of_not_mem {tree other : InclusionTree} {name : String}
    (absent : name ∉ other.map IncludeNode.name) :
    get? (merge tree other) name = get? tree name := by
  rw [merge_eq_foldl]
  exact get?_foldl_update_of_not_mem IncludeNode.name (fun node old => absorb old node) id
    (fun _ _ => rfl) (fun _ => rfl) absent

theorem get?_merge_of_mem (tree : InclusionTree) {other : InclusionTree} {node : IncludeNode}
    (distinct : (other.map IncludeNode.name).Nodup) (member : node ∈ other) :
    get? (merge tree other) node.name
      = some (((get? tree node.name).map fun old => absorb old node).getD node) := by
  rw [merge_eq_foldl]
  exact get?_foldl_update_of_mem IncludeNode.name (fun node old => absorb old node) id tree
    (fun _ _ => rfl) (fun _ => rfl) distinct member

/-! ## One level of a recursive request -/

variable {schema : Schema} {entity : String} {rule : Recursion}

theorem exists_mem_recursiveLevel {relation : Relation}
    (declared : relation ∈ schema.relationsFrom entity)
    (admitted : rule.scope.admits relation.name = true) :
    ∃ node ∈ recursiveLevel schema entity rule, node.name = relation.name := by
  have extended : ∀ (relations : List Relation) (tree : InclusionTree),
      relation ∈ relations ∨ relation.name ∈ tree.map IncludeNode.name →
      relation.name ∈ (relations.foldl
        (fun tree relation => insert tree (.mk relation [] (some rule))) tree).map
          IncludeNode.name := by
    intro relations
    induction relations with
    | nil =>
        intro tree either
        rcases either with impossible | present
        · cases impossible
        · exact present
    | cons first rest inductionHypothesis =>
        intro tree present
        rw [List.foldl_cons]
        apply inductionHypothesis
        rw [mem_names_insert]
        rcases present with member | present
        · rcases List.mem_cons.1 member with rfl | later
          · exact .inr (.inr rfl)
          · exact .inl later
        · exact .inr (.inl present)
  have selected : relation ∈ (schema.relationsFrom entity).filter fun relation =>
      rule.scope.admits relation.name := List.mem_filter.2 ⟨declared, admitted⟩
  exact List.mem_map.1 (extended _ [] (.inl selected))

theorem get?_merge_recursiveLevel_of_not_admitted {tree : InclusionTree} {name : String}
    (outside : rule.scope.admits name = false) :
    get? (merge tree (recursiveLevel schema entity rule)) name = get? tree name := by
  apply get?_merge_of_not_mem
  intro present
  obtain ⟨node, member, rfl⟩ := List.mem_map.1 present
  rw [(isFollowed_of_mem_recursiveLevel node member).admitted] at outside
  cases outside

/-- A level of a recursive request has a node at each relation that the request follows.
It adds the rule and nothing below. -/
theorem exists_get?_merge_recursiveLevel (tree : InclusionTree) {relation : Relation}
    (declared : relation ∈ schema.relationsFrom entity)
    (admitted : rule.scope.admits relation.name = true) :
    ∃ node, get? (merge tree (recursiveLevel schema entity rule)) relation.name = some node
      ∧ node.children = below tree relation.name
      ∧ node.recursion = Recursion.union? (ruleAt tree relation.name) (some rule) := by
  obtain ⟨added, member, sameName⟩ := exists_mem_recursiveLevel declared admitted
  have followed := isFollowed_of_mem_recursiveLevel added member
  have found := get?_merge_of_mem tree (distinct_recursiveLevel schema entity rule).names member
  rw [sameName] at found
  refine ⟨_, found, ?_, ?_⟩
  · unfold below
    cases get? tree relation.name with
    | none => exact followed.childless
    | some old =>
        show merge old.children added.children = old.children
        rw [followed.childless, merge_nil]
  · unfold ruleAt
    cases get? tree relation.name with
    | none => exact followed.ruled
    | some old =>
        show Recursion.union? old.recursion added.recursion = _
        rw [followed.ruled]
        rfl

theorem ruleAt_merge_recursiveLevel (tree : InclusionTree) (rule : Recursion) {relation : Relation}
    (declared : relation ∈ schema.relationsFrom entity) :
    ruleAt (merge tree (recursiveLevel schema entity rule)) relation.name
      = if rule.scope.admits relation.name then
          Recursion.union? (ruleAt tree relation.name) (some rule)
        else ruleAt tree relation.name := by
  cases admitted : rule.scope.admits relation.name with
  | false =>
      unfold ruleAt
      rw [get?_merge_recursiveLevel_of_not_admitted admitted]
      rfl
  | true =>
      obtain ⟨node, found, _, ruled⟩ :=
        exists_get?_merge_recursiveLevel tree declared admitted
      rw [if_pos rfl, ← ruled]
      exact ruleAt_of_get? found

end InclusionTree

end EagerLoad
