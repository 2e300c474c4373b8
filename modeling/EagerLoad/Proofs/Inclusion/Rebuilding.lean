import EagerLoad.Proofs.Inclusion.Growth
import EagerLoad.Proofs.Inclusion.Laws

/-!
Contract: the trees that can be built, and how each can be built again from its own nodes.

Owns: trees that any sequence of operations on trees builds; the levels of a tree; that the
siblings of every level have different names, that this alone makes a tree one that can be built,
and that the insertion of its nodes into an empty tree gives the same tree.

Does not own: which relations the nodes of a tree carry (`Typing.lean`).

No operation looks at the schema to keep siblings apart. Each changes the node of a name if there
is one, and adds a node otherwise, so names differ also where a type declares one name twice.
-/

set_option autoImplicit false

namespace EagerLoad.InclusionTree

open EagerLoad.Path (Segment)

/-! ## Trees that can be built -/

/-- Trees that operations build from empty trees, over any schemas. A node that is inserted may
have any relation and any rule, and below it any tree that was built like that. -/
inductive Built : InclusionTree → Prop
  | empty : Built []
  | insert {tree children : InclusionTree} (built : Built tree) (below : Built children)
      (relation : Relation) (rule : Option Recursion) :
      Built (insert tree (.mk relation children rule))
  | merge {tree other : InclusionTree} (built : Built tree) (otherBuilt : Built other) :
      Built (merge tree other)
  | insertPath {tree : InclusionTree} (built : Built tree) (schema : Schema) (entity : String)
      (segments : List Segment) : Built (insertPath schema tree entity segments)
  | build (schema : Schema) (entity : String) (loads : List Load) :
      Built (build schema entity loads)
  | recursiveLevel (schema : Schema) (entity : String) (rule : Recursion) :
      Built (recursiveLevel schema entity rule)

theorem distinct_insertPath {tree : InclusionTree} (distinct : Distinct tree) (schema : Schema)
    (entity : String) (segments : List Segment) :
    Distinct (insertPath schema tree entity segments) := by
  induction segments generalizing tree entity with
  | nil => exact distinct
  | cons segment rest inductionHypothesis =>
      rw [insertPath_eq_extendEach]
      refine List.foldlRecOn (motive := Distinct) _ _ distinct ?_
      intro reached reachedDistinct relation _
      exact distinct_update reachedDistinct (fun _ => rfl) rfl
        (inductionHypothesis distinct_nil relation.target)
        fun node below => inductionHypothesis below relation.target

theorem distinct_addLoad {tree : InclusionTree} (distinct : Distinct tree) (schema : Schema)
    (entity : String) (load : Load) : Distinct (addLoad schema entity tree load) := by
  cases load with
  | paths paths =>
      exact List.foldlRecOn (motive := Distinct) _ _ distinct fun _ reached path _ =>
        distinct_insertPath reached schema entity path.segments
  | all => exact distinct_insertPath distinct schema entity [.wildcard]
  | allRecursive depth => exact distinct_merge distinct (distinct_recursiveLevel schema entity _)
  | recursive names depth =>
      exact distinct_merge distinct (distinct_recursiveLevel schema entity _)

/-- Each operation keeps siblings of different names on every level, hence all of them do. -/
theorem Built.distinct {tree : InclusionTree} (built : Built tree) : Distinct tree := by
  induction built with
  | empty => exact distinct_nil
  | insert _ _ relation rule treeDistinct belowDistinct =>
      exact distinct_insert treeDistinct belowDistinct
  | merge _ _ treeDistinct otherDistinct => exact distinct_merge treeDistinct otherDistinct
  | insertPath _ schema entity segments treeDistinct =>
      exact distinct_insertPath treeDistinct schema entity segments
  | build schema entity loads =>
      exact List.foldlRecOn (motive := Distinct) _ _ distinct_nil fun _ reached load _ =>
        distinct_addLoad reached schema entity load
  | recursiveLevel schema entity rule => exact distinct_recursiveLevel schema entity rule

/-! ## Levels -/

/-- A level of a tree: the tree itself, or a level of the tree below one of its nodes. -/
inductive HasLevel : InclusionTree → InclusionTree → Prop
  | here (tree : InclusionTree) : HasLevel tree tree
  | under {tree level : InclusionTree} {node : IncludeNode} (member : node ∈ tree)
      (deeper : HasLevel node.children level) : HasLevel tree level

theorem Distinct.level {tree level : InclusionTree} (distinct : Distinct tree)
    (isLevel : HasLevel tree level) : Distinct level := by
  induction isLevel with
  | here tree => exact distinct
  | under member deeper inductionHypothesis => exact inductionHypothesis (distinct.children member)

theorem distinct_of_levels {tree : InclusionTree}
    (names : ∀ level, HasLevel tree level → (level.map IncludeNode.name).Nodup) :
    Distinct tree := by
  induction tree using induction with
  | step tree inductionHypothesis =>
      refine .intro (names tree (.here tree)) ?_
      intro node member
      apply inductionHypothesis node member
      exact fun level deeper => names level (.under member deeper)

/-- The nodes of a name are the one that is found under it, if there is one. -/
theorem Distinct.filter_name {tree : InclusionTree} (distinct : Distinct tree) (name : String) :
    tree.filter (fun node => node.name == name) = (get? tree name).toList :=
  filter_eq_find?_of_nodup distinct.names name

/-! ## Rebuilding -/

mutual

/-- A node with the tree below it rebuilt. -/
def rebuiltNode : IncludeNode → IncludeNode
  | .mk relation children rule => .mk relation (rebuiltOnto [] children) rule

/-- A tree with some nodes rebuilt and inserted, in order. -/
def rebuiltOnto (tree : InclusionTree) : List IncludeNode → InclusionTree
  | [] => tree
  | node :: rest => rebuiltOnto (insert tree (rebuiltNode node)) rest

end

/-- What an empty tree becomes when the nodes of a tree are inserted in order, each with the tree
below it built in the same way. -/
def rebuilt (tree : InclusionTree) : InclusionTree := rebuiltOnto [] tree

theorem rebuiltNode_eq (node : IncludeNode) :
    rebuiltNode node = .mk node.relation (rebuilt node.children) node.recursion := by
  cases node
  rfl

/-- Where nodes rebuild to themselves, their insertion is a union. -/
theorem rebuiltOnto_eq_merge {nodes : List IncludeNode}
    (same : ∀ node ∈ nodes, rebuilt node.children = node.children) (tree : InclusionTree) :
    rebuiltOnto tree nodes = merge tree nodes := by
  induction nodes generalizing tree with
  | nil =>
      rw [merge_nil]
      rfl
  | cons node rest inductionHypothesis =>
      have sameNode : rebuiltNode node = node := by
        rw [rebuiltNode_eq, same node List.mem_cons_self]
        cases node
        rfl
      rw [merge_cons, rebuiltOnto, sameNode]
      exact inductionHypothesis (fun later member => same later (List.mem_cons_of_mem _ member)) _

theorem Distinct.rebuilt_eq {tree : InclusionTree} (distinct : Distinct tree) :
    rebuilt tree = tree := by
  induction tree using induction with
  | step tree inductionHypothesis =>
      have same : ∀ node ∈ tree, rebuilt node.children = node.children :=
        fun node member => inductionHypothesis node member (distinct.children member)
      rw [rebuilt, rebuiltOnto_eq_merge same, nil_merge distinct]

theorem built_rebuiltOnto {nodes : List IncludeNode}
    (below : ∀ node ∈ nodes, Built (rebuilt node.children)) {tree : InclusionTree}
    (built : Built tree) : Built (rebuiltOnto tree nodes) := by
  induction nodes generalizing tree with
  | nil => exact built
  | cons node rest inductionHypothesis =>
      rw [rebuiltOnto, rebuiltNode_eq]
      apply inductionHypothesis
      · exact fun later member => below later (List.mem_cons_of_mem _ member)
      · exact built.insert (below node List.mem_cons_self) node.relation node.recursion

theorem built_rebuilt (tree : InclusionTree) : Built (rebuilt tree) := by
  induction tree using induction with
  | step tree inductionHypothesis => exact built_rebuiltOnto inductionHypothesis .empty

/-- **The trees that can be built are those whose siblings have different names.** Whatever
operations build a tree, over whatever schemas, no two siblings have one name on any level; and
each such tree can be built. On every level a look-up finds the only node of a name, and the
insertion of the nodes into an empty tree, in order and with the trees below them rebuilt alike,
gives exactly the same tree. -/
theorem built_levels (tree : InclusionTree) :
    (Built tree ↔ ∀ level, HasLevel tree level → (level.map IncludeNode.name).Nodup)
      ∧ (Built tree → ∀ level, HasLevel tree level →
          (∀ name, level.filter (fun node => node.name == name) = (get? level name).toList)
            ∧ rebuilt level = level) := by
  refine ⟨⟨?_, ?_⟩, ?_⟩
  · intro built level isLevel
    exact (built.distinct.level isLevel).names
  · intro names
    rw [← (distinct_of_levels names).rebuilt_eq]
    exact built_rebuilt tree
  · intro built level isLevel
    have distinct := built.distinct.level isLevel
    exact ⟨distinct.filter_name, distinct.rebuilt_eq⟩

end EagerLoad.InclusionTree

namespace EagerLoad

namespace Library

/-- Books are declared twice on authors, the second time as essays. -/
def twofoldSchema : Schema :=
  { relations := [books, { books with target := "essay" }, author] }

/-- The books of an author with whatever they lead to, and again by a path and by requests. -/
def requested : InclusionTree :=
  InclusionTree.merge
    (InclusionTree.insertPath twofoldSchema
      (InclusionTree.insert []
        (.mk books (InclusionTree.recursiveLevel twofoldSchema "book" ⟨.all, .limit 1⟩) none))
      "author" [.wildcard, .relation "author"])
    (InclusionTree.build twofoldSchema "author" [.all, .allRecursive .unbounded])

theorem built_requested : InclusionTree.Built requested :=
  .merge (.insertPath (.insert .empty (.recursiveLevel _ _ _) _ _) _ _ _) (.build _ _ _)

end Library

/-- Books stand once in the tree, though they are declared twice and requested in many ways. -/
theorem InclusionTree.built_levels_library :
    let author : IncludeNode := .mk Library.author [] (some ⟨.all, .limit 1⟩)
    let books : IncludeNode := .mk Library.books [author] (some ⟨.all, .unbounded⟩)
    Built Library.requested
      ∧ HasLevel Library.requested [books] ∧ HasLevel Library.requested [author]
      ∧ [books].filter (fun node => node.name == "books") = (get? [books] "books").toList
      ∧ [author].filter (fun node => node.name == "author") = (get? [author] "author").toList
      ∧ rebuilt [books] = [books] ∧ rebuilt [author] = [author] := by
  intro author books
  have isTree : Library.requested = [books] := by decide
  have here : HasLevel Library.requested [books] := isTree ▸ .here [books]
  have below : HasLevel Library.requested [author] := by
    rw [isTree]
    exact .under (List.mem_singleton_self books) (.here [author])
  have levels := (built_levels Library.requested).2 Library.built_requested
  obtain ⟨onlyBooks, rebuiltBooks⟩ := levels [books] here
  obtain ⟨onlyAuthor, rebuiltAuthor⟩ := levels [author] below
  exact ⟨Library.built_requested, here, below, onlyBooks "books", onlyAuthor "author", rebuiltBooks,
    rebuiltAuthor⟩

end EagerLoad
