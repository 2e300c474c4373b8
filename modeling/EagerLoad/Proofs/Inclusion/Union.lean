import EagerLoad.Inclusion.Build

/-!
Contract: what the union of two inclusion trees is made of.

Owns: induction over trees; where the nodes of a changed, an extended and a united
tree come from; how deep a union is and which types it reaches; the nodes of one
level of a recursive request.

Does not own: the look-up of nodes by name, or the paths that a tree covers.

A union never invents a relation. Each of its nodes is a node of one side, or a node
of the left side with the requests of a node of the right side added below it. Depth
and reached types follow from that alone.
-/

set_option autoImplicit false

namespace EagerLoad.InclusionTree

/-! ## Depth -/

theorem nodeDepth_eq (node : IncludeNode) : nodeDepth node = depth node.children + 1 := by
  cases node
  rfl

theorem depth_le_iff {tree : InclusionTree} {bound : Nat} :
    depth tree ≤ bound ↔ ∀ node ∈ tree, depth node.children + 1 ≤ bound := by
  induction tree with
  | nil => simp [depth]
  | cons node rest inductionHypothesis =>
      rw [depth, Nat.max_le, inductionHypothesis, nodeDepth_eq, List.forall_mem_cons]

theorem depth_children_lt {tree : InclusionTree} {node : IncludeNode} (member : node ∈ tree) :
    depth node.children < depth tree :=
  depth_le_iff.1 (Nat.le_refl _) node member

/-- What holds of a tree as soon as it holds below each of its nodes holds of all
trees. -/
@[elab_as_elim]
theorem induction {motive : InclusionTree → Prop}
    (step : ∀ tree : InclusionTree, (∀ node ∈ tree, motive node.children) → motive tree)
    (tree : InclusionTree) : motive tree := by
  have upTo : ∀ bound (tree : InclusionTree), depth tree < bound → motive tree := by
    intro bound
    induction bound with
    | zero => intro tree below; omega
    | succ bound inductionHypothesis =>
        intro tree below
        apply step
        intro node member
        have shallower := depth_children_lt member
        exact inductionHypothesis node.children (by omega)
  exact upTo (depth tree + 1) tree (Nat.lt_succ_self _)

/-! ## Target types -/

theorem mem_targets {tree : InclusionTree} {entity : String} :
    entity ∈ targets tree
      ↔ ∃ node ∈ tree, entity = node.relation.target ∨ entity ∈ targets node.children := by
  induction tree with
  | nil => simp [targets]
  | cons node rest inductionHypothesis =>
      obtain ⟨relation, children, recursion⟩ := node
      rw [targets, List.mem_append, inductionHypothesis, nodeTargets, List.mem_cons]
      simp only [List.mem_cons, exists_eq_or_imp, IncludeNode.relation, IncludeNode.children]

/-! ## Nodes of a union -/

/-- A node that requests what two nodes of one name request. -/
def absorb (node other : IncludeNode) : IncludeNode :=
  .mk node.relation (merge node.children other.children)
    (Recursion.union? node.recursion other.recursion)

theorem insert_eq (tree : InclusionTree) (node : IncludeNode) :
    insert tree node = update node.name (fun old => absorb old node) node tree := by
  obtain ⟨relation, children, recursion⟩ := node
  rw [insert]
  rfl

theorem mem_update {name : String} {change : IncludeNode → IncludeNode}
    {fresh node : IncludeNode} {tree : InclusionTree}
    (member : node ∈ update name change fresh tree) :
    node ∈ tree ∨ node = fresh ∨ ∃ old ∈ tree, old.name = name ∧ node = change old := by
  induction tree with
  | nil => exact .inr (.inl (List.mem_singleton.1 member))
  | cons first rest inductionHypothesis =>
      rw [update] at member
      by_cases same : first.name = name
      · rw [if_pos same] at member
        rcases List.mem_cons.1 member with changed | kept
        · exact .inr (.inr ⟨first, List.mem_cons_self, same, changed⟩)
        · exact .inl (List.mem_cons_of_mem _ kept)
      · rw [if_neg same] at member
        rcases List.mem_cons.1 member with kept | later
        · exact .inl (kept ▸ List.mem_cons_self)
        · rcases inductionHypothesis later with kept | isFresh | ⟨old, oldMember, named, changed⟩
          · exact .inl (List.mem_cons_of_mem _ kept)
          · exact .inr (.inl isFresh)
          · exact .inr (.inr ⟨old, List.mem_cons_of_mem _ oldMember, named, changed⟩)

theorem mem_insert {tree : InclusionTree} {node other : IncludeNode}
    (member : node ∈ insert tree other) :
    node ∈ tree ∨ node = other ∨ ∃ old ∈ tree, old.name = other.name ∧ node = absorb old other := by
  rw [insert_eq] at member
  exact mem_update member

/-- What every insertion of a node of the right side keeps, their union keeps. -/
theorem merge_induction {motive : InclusionTree → Prop} {other : InclusionTree}
    (kept : ∀ node ∈ other, ∀ tree, motive tree → motive (insert tree node))
    {tree : InclusionTree} (start : motive tree) : motive (merge tree other) := by
  induction other generalizing tree with
  | nil =>
      rw [merge_nil]
      exact start
  | cons node rest inductionHypothesis =>
      rw [merge_cons]
      apply inductionHypothesis
      · exact fun later member => kept later (List.mem_cons_of_mem _ member)
      · exact kept node List.mem_cons_self tree start

/-- A union is no deeper than the deeper one of its sides. -/
theorem depth_merge_le {other tree : InclusionTree} (bound : Nat)
    (treeBound : depth tree ≤ bound) (otherBound : depth other ≤ bound) :
    depth (merge tree other) ≤ bound := by
  induction other using induction generalizing tree bound with
  | step other inductionHypothesis =>
      refine merge_induction (motive := fun tree => depth tree ≤ bound) ?_ treeBound
      intro node nodeMember tree treeBound
      have nodeBound := depth_le_iff.1 otherBound node nodeMember
      rw [depth_le_iff]
      intro reached reachedMember
      rcases mem_insert reachedMember with kept | rfl | ⟨old, oldMember, _, rfl⟩
      · exact depth_le_iff.1 treeBound reached kept
      · exact nodeBound
      · have oldBound := depth_le_iff.1 treeBound old oldMember
        have below : depth (merge old.children node.children) ≤ bound - 1 :=
          inductionHypothesis node nodeMember (bound - 1) (by omega) (by omega)
        show depth (merge old.children node.children) + 1 ≤ bound
        omega

/-- A union reaches no type that neither of its sides reaches. -/
theorem targets_merge_subset {other tree : InclusionTree} (types : List String)
    (treeTypes : targets tree ⊆ types) (otherTypes : targets other ⊆ types) :
    targets (merge tree other) ⊆ types := by
  induction other using induction generalizing tree with
  | step other inductionHypothesis =>
      refine merge_induction (motive := fun tree => targets tree ⊆ types) ?_ treeTypes
      intro node nodeMember tree treeTypes entity reached
      have nodeTypes : targets node.children ⊆ types := fun below belowMember =>
        otherTypes (mem_targets.2 ⟨node, nodeMember, .inr belowMember⟩)
      obtain ⟨found, foundMember, byNode⟩ := mem_targets.1 reached
      rcases mem_insert foundMember with kept | rfl | ⟨old, oldMember, _, rfl⟩
      · exact treeTypes (mem_targets.2 ⟨found, kept, byNode⟩)
      · exact otherTypes (mem_targets.2 ⟨found, nodeMember, byNode⟩)
      · rcases byNode with isTarget | below
        · exact treeTypes (mem_targets.2 ⟨old, oldMember, .inl isTarget⟩)
        · have oldTypes : targets old.children ⊆ types := fun below belowMember =>
            treeTypes (mem_targets.2 ⟨old, oldMember, .inr belowMember⟩)
          exact inductionHypothesis node nodeMember oldTypes nodeTypes below

/-! ## One level of a recursive request -/

end EagerLoad.InclusionTree

namespace EagerLoad

/-- Adding names that are all there already changes nothing. -/
theorem Scope.addNames_of_subset {names more : List String} (subset : more ⊆ names) :
    addNames names more = names := by
  induction more with
  | nil => rfl
  | cons first rest inductionHypothesis =>
      rw [addNames, List.foldl_cons, if_pos (subset List.mem_cons_self)]
      exact inductionHypothesis fun name member => subset (List.mem_cons_of_mem _ member)

theorem Scope.union_self (scope : Scope) : scope.union scope = scope := by
  cases scope with
  | all => rfl
  | only names => rw [union, addNames_of_subset (List.Subset.refl names)]

theorem Recursion.union_self (rule : Recursion) : rule.union rule = rule := by
  obtain ⟨scope, remaining⟩ := rule
  rw [union, Scope.union_self]
  cases remaining with
  | unbounded => rfl
  | limit levels => rw [Depth.max, show Nat.max levels levels = levels from Nat.max_self levels]

namespace InclusionTree

/-- A node of one level of a recursive request: a relation that the request follows,
with its rule and with nothing below it. -/
structure IsFollowed (schema : Schema) (entity : String) (rule : Recursion) (node : IncludeNode) :
    Prop where
  declared : node.relation ∈ schema.relationsFrom entity
  admitted : rule.scope.admits node.name = true
  childless : node.children = []
  ruled : node.recursion = some rule

theorem isFollowed_of_mem_recursiveLevel {schema : Schema} {entity : String} {rule : Recursion} :
    ∀ node ∈ recursiveLevel schema entity rule, IsFollowed schema entity rule node := by
  refine List.foldlRecOn
    (motive := fun tree : InclusionTree => ∀ node ∈ tree, IsFollowed schema entity rule node)
    _ _ (by simp) ?_
  intro tree followed relation selected node member
  obtain ⟨declared, admitted⟩ := List.mem_filter.1 selected
  rcases mem_insert member with old | rfl | ⟨old, oldMember, _, rfl⟩
  · exact followed node old
  · exact ⟨declared, admitted, rfl, rfl⟩
  · have oldFollowed := followed old oldMember
    refine ⟨oldFollowed.declared, oldFollowed.admitted, ?_, ?_⟩
    · show merge old.children [] = []
      rw [merge_nil, oldFollowed.childless]
    · show Recursion.union? old.recursion (some rule) = some rule
      rw [oldFollowed.ruled, Recursion.union?, Recursion.union_self]

theorem depth_recursiveLevel_le (schema : Schema) (entity : String) (rule : Recursion) :
    depth (recursiveLevel schema entity rule) ≤ 1 := by
  rw [depth_le_iff]
  intro node member
  rw [(isFollowed_of_mem_recursiveLevel node member).childless]
  exact Nat.le_refl 1

theorem exists_relation_of_mem_targets_recursiveLevel {schema : Schema} {entity target : String}
    {rule : Recursion} (reached : target ∈ targets (recursiveLevel schema entity rule)) :
    ∃ relation ∈ schema.relations, relation.target = target := by
  obtain ⟨node, member, isTarget | below⟩ := mem_targets.1 reached
  · have followed := isFollowed_of_mem_recursiveLevel node member
    exact ⟨node.relation, (List.mem_filter.1 followed.declared).1, isTarget.symm⟩
  · rw [(isFollowed_of_mem_recursiveLevel node member).childless] at below
    cases below

end InclusionTree

end EagerLoad
