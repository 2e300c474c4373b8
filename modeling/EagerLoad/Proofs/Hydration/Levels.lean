import EagerLoad.Hydration.Direct
import EagerLoad.Proofs.Inclusion.Union

/-!
Contract: how many levels a descent can have, and the descent without a bound.

Owns: the records that a descent can meet, the number that falls with every level,
the independence of a descent from its bound, and the equation of the unbounded
descent.

Does not own: the rules of the unbounded descent (`Termination.lean`), or what it
attaches.

## Why the bound never shows

`direct` counts levels down and gives up at zero. What falls by itself is
`unvisited + depth`: the records that the branch does not hold yet, plus the depth of
the tree. A step without expansion goes down in the tree, and the branch only grows.
An expansion may keep the tree as deep as it was, since a level of a request is one
deep and is merged with what lies below a node. But it happens only at a record that
is not on the branch, and puts it there. So a bound of that number is never reached
above an empty tree, and two such bounds give one result.
-/

set_option autoImplicit false

namespace EagerLoad

/-- The records that a relation yields are of its target type. -/
theorem Relation.mem_records_of_mem_yields {schema : Schema} {view : RecordView}
    {relation : Relation} {record related : Record}
    (yielded : related ∈ relation.yields schema view record) :
    related ∈ view.records relation.target := by
  have scanned : ∀ field key, related ∈ view.scanByField relation.target field key →
      related ∈ view.records relation.target :=
    fun _ _ found => (List.mem_filter.1 found).1
  have dependent : related ∈ Id.run (relation.dependents
      (fun entity field key => view.scanByField entity field key) record) →
      related ∈ view.records relation.target := by
    intro found
    unfold Relation.dependents at found
    split at found
    · exact scanned _ _ found
    · cases found
  have owner : relation.owner? (m := Id) schema view
      (fun entity field key => view.scanByField entity field key) record = some related →
      related ∈ view.records relation.target := by
    intro found
    unfold Relation.owner? at found
    split at found
    · cases found
    · split at found
      · exact view.mem_of_get? _ _ _ found
      · split at found
        · exact view.mem_of_get? _ _ _ found
        · exact scanned _ _ (List.mem_of_mem_head? found)
  unfold Relation.yields Relation.related at yielded
  split at yielded
  · exact owner (Option.mem_toList.1 yielded)
  · exact dependent (List.mem_of_mem_take yielded)
  · exact dependent yielded

namespace Hydration

/-! ## One step -/

/-- The tree along which a descent goes on. -/
def Step.tree : Step → InclusionTree
  | .follow tree => tree
  | .cut tree _ => tree

/-- What becomes of a record that was loaded after a step. -/
def Step.finish (schema : Schema) : Step → Hydrated → Hydrated
  | .follow _, hydrated => hydrated
  | .cut _ scope, hydrated => withEmptyValues schema scope hydrated

/-- The three things that a step can be. -/
theorem step_cases (context : Context) (branch : List Ancestor) (node : IncludeNode)
    (related : Record) :
    (node.recursion = none ∧ context.step branch node related = .follow node.children)
      ∨ (∃ rule, node.recursion = some rule
          ∧ context.stops branch rule ⟨node.relation.target, related.key⟩ = true
          ∧ context.step branch node related = .cut node.children rule.scope)
      ∨ (∃ rule, node.recursion = some rule
          ∧ context.stops branch rule ⟨node.relation.target, related.key⟩ = false
          ∧ context.step branch node related
              = .follow (InclusionTree.merge node.children
                  (InclusionTree.recursiveLevel context.schema node.relation.target
                    rule.next))) := by
  unfold Context.step
  cases node.recursion with
  | none => exact .inl ⟨rfl, rfl⟩
  | some rule =>
      cases stops : context.stops branch rule ⟨node.relation.target, related.key⟩ with
      | true => exact .inr (.inl ⟨rule, rfl, stops, by simp only [stops, if_true]⟩)
      | false =>
          refine .inr (.inr ⟨rule, rfl, stops, ?_⟩)
          simp only [stops, Bool.false_eq_true, if_false]

/-- The entries of a record, given what each node attaches for each related record. -/
def entriesOf (context : Context) (entity : String) (record : Record) (tree : InclusionTree)
    (attached : IncludeNode → Record → Hydrated) : List (String × Attached Hydrated) :=
  (tree.filter fun node => node.relation.source == entity).map fun node =>
    (node.name,
      Attached.ofList node.relation.kind
        ((node.relation.yields context.schema context.view record).map (attached node)))

theorem mem_entriesOf {context : Context} {entity : String} {record : Record}
    {tree : InclusionTree} {attached : IncludeNode → Record → Hydrated}
    {entry : String × Attached Hydrated} :
    entry ∈ entriesOf context entity record tree attached
      ↔ ∃ node ∈ tree, node.relation.source = entity
          ∧ entry = (node.name, Attached.ofList node.relation.kind
              ((node.relation.yields context.schema context.view record).map (attached node))) := by
  unfold entriesOf
  rw [List.mem_map]
  constructor
  · intro holds
    rcases holds with ⟨node, selected, rfl⟩
    obtain ⟨member, ofType⟩ := List.mem_filter.1 selected
    exact ⟨node, member, beq_iff_eq.1 ofType, rfl⟩
  · intro holds
    rcases holds with ⟨node, member, ofType, rfl⟩
    exact ⟨node, List.mem_filter.2 ⟨member, beq_iff_eq.2 ofType⟩, rfl⟩

theorem entriesOf_congr {context : Context} {entity : String} {record : Record}
    {tree : InclusionTree} {first second : IncludeNode → Record → Hydrated}
    (agree : ∀ node ∈ tree, node.relation.source = entity →
      ∀ related ∈ node.relation.yields context.schema context.view record,
        first node related = second node related) :
    entriesOf context entity record tree first = entriesOf context entity record tree second := by
  apply List.map_congr_left
  intro node selected
  obtain ⟨member, ofType⟩ := List.mem_filter.1 selected
  congr 2
  apply List.map_congr_left
  exact agree node member (beq_iff_eq.1 ofType)

theorem direct_eq_entriesOf (context : Context) (levels : Nat) (entity : String) (record : Record)
    (tree : InclusionTree) (chain : List Ancestor) :
    direct context (levels + 1) entity record tree chain
      = .mk entity record (entriesOf context entity record tree
          (directStep context levels (⟨entity, record.key⟩ :: chain))) :=
  direct_succ context levels entity record tree chain

theorem directStep_eq (context : Context) (levels : Nat) (branch : List Ancestor)
    (node : IncludeNode) (related : Record) :
    directStep context levels branch node related
      = (context.step branch node related).finish context.schema
          (direct context levels node.relation.target related
            (context.step branch node related).tree branch) := by
  unfold directStep
  cases context.step branch node related <;> rfl

/-! ## What is left to visit -/

/-- The records of some types, as entries of a branch. -/
def knownEntries (view : RecordView) (types : List String) : List Ancestor :=
  types.flatMap fun entity => (view.records entity).map fun record => ⟨entity, record.key⟩

theorem mem_knownEntries {view : RecordView} {types : List String} {entity : String}
    {record : Record} (known : entity ∈ types) (stored : record ∈ view.records entity) :
    (⟨entity, record.key⟩ : Ancestor) ∈ knownEntries view types :=
  List.mem_flatMap.2 ⟨entity, known, List.mem_map.2 ⟨record, stored, rfl⟩⟩

/-- How many of the known entries a branch does not hold. -/
def unvisited (known branch : List Ancestor) : Nat :=
  known.countP fun entry => decide (entry ∉ branch)

theorem unvisited_le_length (known branch : List Ancestor) :
    unvisited known branch ≤ known.length :=
  List.countP_le_length

theorem unvisited_cons_le (known branch : List Ancestor) (entry : Ancestor) :
    unvisited known (entry :: branch) ≤ unvisited known branch := by
  apply List.countP_mono_left
  intro other _ outside
  simp only [List.mem_cons, not_or, decide_eq_true_eq] at outside ⊢
  exact outside.2

theorem unvisited_known_cons (first : Ancestor) (rest branch : List Ancestor) :
    unvisited (first :: rest) branch
      = unvisited rest branch + if first ∉ branch then 1 else 0 := by
  unfold unvisited
  rw [List.countP_cons]
  simp only [decide_eq_true_eq]

theorem unvisited_cons_lt {known branch : List Ancestor} {entry : Ancestor}
    (isKnown : entry ∈ known) (outside : entry ∉ branch) :
    unvisited known (entry :: branch) < unvisited known branch := by
  induction known with
  | nil => cases isKnown
  | cons first rest inductionHypothesis =>
      have restLe := unvisited_cons_le rest branch entry
      rw [unvisited_known_cons, unvisited_known_cons]
      by_cases same : first = entry
      · rw [same, if_neg (fun absent => absent List.mem_cons_self), if_pos outside]
        omega
      · have isLater : entry ∈ rest := by
          rcases List.mem_cons.1 isKnown with here | later
          · exact absurd here.symm same
          · exact later
        have restLt := inductionHypothesis isLater
        have sameCount : (first ∉ entry :: branch) = (first ∉ branch) := by
          simp only [List.mem_cons, same, false_or]
        simp only [sameCount]
        omega

/-- Known are the records of every type that a tree reaches or a relation leads to. -/
structure Knows (context : Context) (known : List Ancestor) (tree : InclusionTree) : Prop where
  requested : ∀ entity ∈ InclusionTree.targets tree, ∀ record ∈ context.view.records entity,
    (⟨entity, record.key⟩ : Ancestor) ∈ known
  declared : ∀ relation ∈ context.schema.relations,
    ∀ record ∈ context.view.records relation.target,
      (⟨relation.target, record.key⟩ : Ancestor) ∈ known

/-- How many levels a descent along a tree can still have below a branch. -/
def room (known branch : List Ancestor) (tree : InclusionTree) : Nat :=
  unvisited known branch + InclusionTree.depth tree

theorem room_le (known branch : List Ancestor) (tree : InclusionTree) :
    room known branch tree ≤ known.length + InclusionTree.depth tree :=
  Nat.add_le_add_right (unvisited_le_length known branch) _

/-- **A step takes room.** Whatever a step does, fewer levels are left below the record
that it reaches, and the records that can still be met stay known. -/
theorem room_step_lt {context : Context} {known : List Ancestor} (branch : List Ancestor)
    {tree : InclusionTree} {node : IncludeNode} {record related : Record}
    (knows : Knows context known tree) (member : node ∈ tree)
    (yielded : related ∈ node.relation.yields context.schema context.view record) :
    room known (⟨node.relation.target, related.key⟩ :: branch)
        (context.step branch node related).tree
        < room known branch tree
      ∧ Knows context known (context.step branch node related).tree := by
  have stored := Relation.mem_records_of_mem_yields yielded
  have shallower := InclusionTree.depth_children_lt member
  have visited := unvisited_cons_le known branch ⟨node.relation.target, related.key⟩
  have childrenTargets :
      InclusionTree.targets node.children ⊆ InclusionTree.targets tree := fun below belowMember =>
    InclusionTree.mem_targets.2 ⟨node, member, .inr belowMember⟩
  -- without an expansion the descent goes on among the children of the node
  have unexpanded :
      room known (⟨node.relation.target, related.key⟩ :: branch) node.children
          < room known branch tree
        ∧ Knows context known node.children := by
    refine ⟨?_, fun entity reached => knows.requested entity (childrenTargets reached),
      knows.declared⟩
    unfold room
    omega
  rcases step_cases context branch node related with
    ⟨_, isStep⟩ | ⟨rule, _, _, isStep⟩ | ⟨rule, _, goesOn, isStep⟩
  · rw [isStep]
    exact unexpanded
  · rw [isStep]
    exact unexpanded
  · rw [isStep]
    have outside : (⟨node.relation.target, related.key⟩ : Ancestor) ∉ branch := by
      intro onBranch
      simp [Context.stops, onBranch] at goesOn
    have isKnown := knows.requested node.relation.target
      (InclusionTree.mem_targets.2 ⟨node, member, .inl rfl⟩) related stored
    have fewer := unvisited_cons_lt isKnown outside
    have levelDepth := InclusionTree.depth_recursiveLevel_le context.schema
      node.relation.target rule.next
    have mergedDepth := InclusionTree.depth_merge_le (InclusionTree.depth tree)
      (Nat.le_of_lt shallower) (Nat.le_trans levelDepth (by omega))
    have mergedTargets := InclusionTree.targets_merge_subset
      (InclusionTree.targets node.children
        ++ InclusionTree.targets (InclusionTree.recursiveLevel context.schema
          node.relation.target rule.next))
      (List.subset_append_left _ _) (List.subset_append_right _ _)
    refine ⟨?_, ?_, knows.declared⟩
    · exact Nat.add_lt_add_of_lt_of_le fewer mergedDepth
    · intro entity reached
      rcases List.mem_append.1 (mergedTargets reached) with below | expanded
      · exact knows.requested entity (childrenTargets below)
      · obtain ⟨relation, declared, rfl⟩ :=
          InclusionTree.exists_relation_of_mem_targets_recursiveLevel expanded
        exact knows.declared relation declared

/-- **More levels change nothing.** A descent with as many levels as there is room for
is the descent with any greater number of levels. -/
theorem direct_eq_of_room_le {context : Context} {known : List Ancestor} {levels more : Nat}
    {entity : String} {record : Record} {tree : InclusionTree} {chain : List Ancestor}
    (knows : Knows context known tree)
    (enough : room known (⟨entity, record.key⟩ :: chain) tree ≤ levels) (fewer : levels ≤ more) :
    direct context levels entity record tree chain
      = direct context more entity record tree chain := by
  induction levels generalizing more entity record tree chain with
  | zero =>
      have flat : InclusionTree.depth tree ≤ 0 := by
        unfold room at enough
        omega
      have isEmpty : tree = [] := by
        apply List.eq_nil_iff_forall_not_mem.2
        intro node member
        have shallower := InclusionTree.depth_children_lt member
        omega
      subst isEmpty
      cases more with
      | zero => rfl
      | succ more => rw [direct_zero, direct_succ]; rfl
  | succ levels inductionHypothesis =>
      obtain ⟨more, rfl⟩ := Nat.exists_eq_add_of_le fewer
      rw [Nat.add_right_comm, direct_eq_entriesOf, direct_eq_entriesOf]
      congr 1
      apply entriesOf_congr
      intro node member _ related yielded
      obtain ⟨smaller, stillKnows⟩ :=
        room_step_lt (⟨entity, record.key⟩ :: chain) knows member yielded
      rw [directStep_eq, directStep_eq]
      congr 1
      exact inductionHypothesis stillKnows (by omega) (Nat.le_add_right levels more)

/-! ## The unbounded descent -/

/-- The types that a tree, or an expansion of it, reaches. -/
def reachableTypes (context : Context) (tree : InclusionTree) : List String :=
  InclusionTree.targets tree ++ context.schema.relations.map fun relation => relation.target

theorem knows_reachable (context : Context) (tree : InclusionTree) :
    Knows context (knownEntries context.view (reachableTypes context tree)) tree where
  requested _ reached _ stored := mem_knownEntries (List.mem_append_left _ reached) stored
  declared _ declared _ stored :=
    mem_knownEntries (List.mem_append_right _ (List.mem_map_of_mem declared)) stored

theorem levelBound_eq (context : Context) (tree : InclusionTree) :
    levelBound context tree
      = (knownEntries context.view (reachableTypes context tree)).length
        + InclusionTree.depth tree + 1 := by
  have counted : ∀ types : List String,
      types.foldr (fun entity total => context.view.count entity + total) 0
        = (knownEntries context.view types).length := by
    intro types
    induction types with
    | nil => rfl
    | cons first rest inductionHypothesis =>
        rw [List.foldr_cons, inductionHypothesis]
        unfold knownEntries RecordView.count
        rw [List.flatMap_cons, List.length_append, List.length_map]
  show InclusionTree.depth tree
      + (reachableTypes context tree).foldr
          (fun entity total => context.view.count entity + total) 0 + 1 = _
  rw [counted, Nat.add_comm (InclusionTree.depth tree)]

/-- What a descent loads, with no bound on its levels but the data. -/
def load (context : Context) (entity : String) (record : Record) (tree : InclusionTree)
    (chain : List Ancestor) : Hydrated :=
  direct context (levelBound context tree) entity record tree chain

/-- What a node attaches for one related record below a branch. -/
def loadStep (context : Context) (branch : List Ancestor) (node : IncludeNode)
    (related : Record) : Hydrated :=
  (context.step branch node related).finish context.schema
    (load context node.relation.target related (context.step branch node related).tree branch)

/-- Any bound with enough room gives the unbounded descent. -/
theorem direct_eq_load {context : Context} {known : List Ancestor} {levels : Nat}
    {entity : String} {record : Record} {tree : InclusionTree} {chain : List Ancestor}
    (knows : Knows context known tree)
    (enough : room known (⟨entity, record.key⟩ :: chain) tree ≤ levels) :
    direct context levels entity record tree chain = load context entity record tree chain := by
  have bound := levelBound_eq context tree
  have reachable := room_le (knownEntries context.view (reachableTypes context tree))
    (⟨entity, record.key⟩ :: chain) tree
  unfold load
  rw [direct_eq_of_room_le knows enough (Nat.le_max_left levels (levelBound context tree)),
    direct_eq_of_room_le (knows_reachable context tree) (by omega)
      (Nat.le_max_right levels (levelBound context tree))]

/-- **The equation of the descent.** Every node of the record's type gives one entry,
and each related record is loaded in the same way, one record further down. -/
theorem load_eq (context : Context) (entity : String) (record : Record) (tree : InclusionTree)
    (chain : List Ancestor) :
    load context entity record tree chain
      = .mk entity record (entriesOf context entity record tree
          (loadStep context (⟨entity, record.key⟩ :: chain))) := by
  have knows := knows_reachable context tree
  have atRoot := room_le (knownEntries context.view (reachableTypes context tree))
    (⟨entity, record.key⟩ :: chain) tree
  have bound := levelBound_eq context tree
  show direct context (levelBound context tree) entity record tree chain = _
  rw [bound, direct_eq_entriesOf]
  congr 1
  apply entriesOf_congr
  intro node member _ related yielded
  obtain ⟨smaller, stillKnows⟩ :=
    room_step_lt (⟨entity, record.key⟩ :: chain) knows member yielded
  rw [directStep_eq]
  unfold loadStep
  congr 1
  exact direct_eq_load stillKnows (by omega)

end Hydration

end EagerLoad
