import EagerLoad.Proofs.Inclusion.Union
import Mathlib.Data.List.Nodup

/-!
Contract: siblings of an inclusion tree have different names.

Owns: trees without two siblings of one name, on every level; that unions and levels
of recursive requests are such trees; the node of a name in them.

Does not own: the trees that requests are turned into.
-/

set_option autoImplicit false

namespace EagerLoad

/-- Where no two items have one name, the item found under a name is the only one of it. -/
theorem find?_eq_some_iff_of_nodup {α : Type} {nameOf : α → String} {items : List α}
    (distinct : (items.map nameOf).Nodup) {name : String} {item : α} :
    items.find? (fun other => nameOf other == name) = some item
      ↔ item ∈ items ∧ nameOf item = name := by
  constructor
  · intro found
    have isNamed := List.find?_some found
    exact ⟨List.mem_of_find?_eq_some found, beq_iff_eq.1 isNamed⟩
  · intro holds
    rcases holds with ⟨member, rfl⟩
    have isFound : (items.find? fun other => nameOf other == nameOf item).isSome :=
      List.find?_isSome.2 ⟨item, member, beq_self_eq_true (nameOf item)⟩
    obtain ⟨found, isSome⟩ := Option.isSome_iff_exists.1 isFound
    have sameName : (nameOf found == nameOf item) = true :=
      List.find?_some (p := fun other => nameOf other == nameOf item) isSome
    rw [isSome, List.inj_on_of_nodup_map distinct (List.mem_of_find?_eq_some isSome) member
      (beq_iff_eq.1 sameName)]

/-- Where no two items have one name, the items of a name are the one that is found under it, if
there is one. -/
theorem filter_eq_find?_of_nodup {α β : Type} [BEq β] [LawfulBEq β] {nameOf : α → β}
    {items : List α} (distinct : (items.map nameOf).Nodup) (name : β) :
    items.filter (fun item => nameOf item == name)
      = (items.find? fun item => nameOf item == name).toList := by
  induction items with
  | nil => rfl
  | cons first rest inductionHypothesis =>
      obtain ⟨absent, restDistinct⟩ := List.nodup_cons.1 distinct
      by_cases named : nameOf first = name
      · have noOther : rest.filter (fun item => nameOf item == name) = [] := by
          apply List.filter_eq_nil_iff.2
          intro other member same
          exact absent (List.mem_map.2 ⟨other, member, (beq_iff_eq.1 same).trans named.symm⟩)
        simp [named, noOther]
      · simp [named, inductionHypothesis restDistinct]

namespace InclusionTree

/-- No two siblings have one name, here and on every level below. -/
inductive Distinct : InclusionTree → Prop
  | intro {tree : InclusionTree} (names : (tree.map IncludeNode.name).Nodup)
      (below : ∀ node ∈ tree, Distinct node.children) : Distinct tree

theorem Distinct.names {tree : InclusionTree} (distinct : Distinct tree) :
    (tree.map IncludeNode.name).Nodup := by
  cases distinct with
  | intro names below => exact names

theorem Distinct.children {tree : InclusionTree} (distinct : Distinct tree) {node : IncludeNode}
    (member : node ∈ tree) : Distinct node.children := by
  cases distinct with
  | intro names below => exact below node member

theorem distinct_nil : Distinct [] :=
  .intro List.nodup_nil fun _ member => absurd member List.not_mem_nil

theorem get?_eq_some_iff {tree : InclusionTree} (distinct : Distinct tree) {name : String}
    {node : IncludeNode} : get? tree name = some node ↔ node ∈ tree ∧ node.name = name :=
  find?_eq_some_iff_of_nodup distinct.names

/-! ## Unions -/

/-- A change that keeps names keeps the names of a tree in order; a name that was not
there comes last. -/
theorem names_update {name : String} {change : IncludeNode → IncludeNode} {fresh : IncludeNode}
    (tree : InclusionTree) (keepsName : ∀ node, (change node).name = node.name)
    (freshName : fresh.name = name) :
    (update name change fresh tree).map IncludeNode.name
      = if name ∈ tree.map IncludeNode.name then tree.map IncludeNode.name
        else tree.map IncludeNode.name ++ [name] := by
  induction tree with
  | nil => simp [update, freshName]
  | cons node rest inductionHypothesis =>
      rw [update]
      by_cases same : node.name = name
      · simp [same, keepsName]
      · have distinct : name ≠ node.name := fun equal => same equal.symm
        rw [if_neg same, List.map_cons, List.map_cons, inductionHypothesis]
        by_cases known : name ∈ rest.map IncludeNode.name
        · simp only [known, List.mem_cons, or_true, if_true]
        · simp only [known, distinct, List.mem_cons, or_self, if_false, List.cons_append]

theorem nodup_names_update {name : String} {change : IncludeNode → IncludeNode}
    {fresh : IncludeNode} {tree : InclusionTree}
    (keepsName : ∀ node, (change node).name = node.name) (freshName : fresh.name = name)
    (names : (tree.map IncludeNode.name).Nodup) :
    ((update name change fresh tree).map IncludeNode.name).Nodup := by
  rw [names_update tree keepsName freshName]
  by_cases known : name ∈ tree.map IncludeNode.name
  · rw [if_pos known]
    exact names
  · rw [if_neg known, ← List.concat_eq_append]
    exact List.Nodup.concat known names

/-- A change that keeps names keeps siblings of different names, if it does so below the node that
it changes and a new node has such siblings below it. -/
theorem distinct_update {name : String} {change : IncludeNode → IncludeNode} {fresh : IncludeNode}
    {tree : InclusionTree} (distinct : Distinct tree)
    (keepsName : ∀ node, (change node).name = node.name) (freshName : fresh.name = name)
    (freshDistinct : Distinct fresh.children)
    (changeDistinct : ∀ node, Distinct node.children → Distinct (change node).children) :
    Distinct (update name change fresh tree) := by
  refine .intro (nodup_names_update keepsName freshName distinct.names) ?_
  intro reached reachedMember
  rcases mem_update reachedMember with kept | rfl | ⟨old, oldMember, _, rfl⟩
  · exact distinct.children kept
  · exact freshDistinct
  · exact changeDistinct old (distinct.children oldMember)

theorem distinct_merge {tree other : InclusionTree} (treeDistinct : Distinct tree)
    (otherDistinct : Distinct other) : Distinct (merge tree other) := by
  induction other using induction generalizing tree with
  | step other inductionHypothesis =>
      refine merge_induction ?_ treeDistinct
      intro node nodeMember tree treeDistinct
      have nodeDistinct := otherDistinct.children nodeMember
      rw [insert_eq]
      exact distinct_update treeDistinct (fun _ => rfl) rfl nodeDistinct fun old oldDistinct =>
        inductionHypothesis node nodeMember oldDistinct nodeDistinct

theorem distinct_insert {tree : InclusionTree} {node : IncludeNode} (treeDistinct : Distinct tree)
    (nodeDistinct : Distinct node.children) : Distinct (insert tree node) := by
  rw [insert_eq]
  exact distinct_update treeDistinct (fun _ => rfl) rfl nodeDistinct fun _ oldDistinct =>
    distinct_merge oldDistinct nodeDistinct

theorem distinct_recursiveLevel (schema : Schema) (entity : String) (rule : Recursion) :
    Distinct (recursiveLevel schema entity rule) :=
  List.foldlRecOn (motive := Distinct) _ _ distinct_nil fun _ treeDistinct _ _ =>
    distinct_insert treeDistinct distinct_nil

end InclusionTree

end EagerLoad
