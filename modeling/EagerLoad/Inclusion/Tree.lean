import EagerLoad.Inclusion.Recursion
import EagerLoad.Schema.Basic

/-!
Contract: the relations that a request asks for, as one tree.

Owns: nodes and trees with insertion and union, look-up by name, nesting depth,
and the flat list of paths that a tree covers.

Does not own: how requests become trees (`Inclusion/Build.lean`).

A tree holds at most one node of a name on each level, in order of first
insertion. Recursive requests are not unrolled: a node carries its rule, and
loading expands it level by level.
-/

set_option autoImplicit false

namespace EagerLoad

/-- A requested relation: its declaration, what is requested below it, and its
recursive request if it has one. -/
inductive IncludeNode where
  | mk (relation : Relation) (children : List IncludeNode) (recursion : Option Recursion)

abbrev InclusionTree := List IncludeNode

namespace IncludeNode

def relation : IncludeNode → Relation
  | .mk relation _ _ => relation

def children : IncludeNode → InclusionTree
  | .mk _ children _ => children

def recursion : IncludeNode → Option Recursion
  | .mk _ _ recursion => recursion

def name (node : IncludeNode) : String := node.relation.name

def isRecursive (node : IncludeNode) : Bool := node.recursion.isSome

/-- A node that requests a relation and nothing below it. -/
def plain (relation : Relation) : IncludeNode := .mk relation [] none

def withChildren (node : IncludeNode) (children : InclusionTree) : IncludeNode :=
  .mk node.relation children node.recursion

mutual

def decEq : (left right : IncludeNode) → Decidable (left = right)
  | .mk relation children recursion, .mk relation' children' recursion' =>
      match decEqNodes children children' with
      | isTrue sameChildren =>
          if sameRest : relation = relation' ∧ recursion = recursion' then
            isTrue (by rw [sameRest.1, sameRest.2, sameChildren])
          else
            isFalse fun same => by
              injection same with sameRelation _ sameRecursion
              exact sameRest ⟨sameRelation, sameRecursion⟩
      | isFalse distinct =>
          isFalse fun same => by
            injection same with _ sameChildren _
            exact distinct sameChildren

def decEqNodes : (left right : List IncludeNode) → Decidable (left = right)
  | [], [] => isTrue rfl
  | [], _ :: _ => isFalse fun same => by cases same
  | _ :: _, [] => isFalse fun same => by cases same
  | node :: rest, node' :: rest' =>
      match decEq node node' with
      | isTrue sameNode =>
          match decEqNodes rest rest' with
          | isTrue sameRest => isTrue (by rw [sameNode, sameRest])
          | isFalse distinct =>
              isFalse fun same => by
                injection same with _ sameRest
                exact distinct sameRest
      | isFalse distinct =>
          isFalse fun same => by
            injection same with sameNode _
            exact distinct sameNode

end

instance : DecidableEq IncludeNode := decEq

end IncludeNode

namespace InclusionTree

def get? (tree : InclusionTree) (name : String) : Option IncludeNode :=
  tree.find? fun node => node.name == name

def containsName (tree : InclusionTree) (name : String) : Bool := (get? tree name).isSome

/-- Changes the first node of a name; puts `fresh` at the end when there is none. -/
def update (name : String) (change : IncludeNode → IncludeNode) (fresh : IncludeNode) :
    InclusionTree → InclusionTree
  | [] => [fresh]
  | node :: rest =>
      if node.name = name then change node :: rest
      else node :: update name change fresh rest

mutual

/-- Requests what a node requests: joined with the node of its name, or at the end. -/
def insert (tree : InclusionTree) : IncludeNode → InclusionTree
  | .mk relation children recursion =>
      update relation.name
        (fun node =>
          .mk node.relation (merge node.children children)
            (Recursion.union? node.recursion recursion))
        (.mk relation children recursion) tree

/-- Requests everything that two trees over one type request. -/
def merge (tree : InclusionTree) : List IncludeNode → InclusionTree
  | [] => tree
  | node :: rest => merge (insert tree node) rest

end

@[simp] theorem merge_nil (tree : InclusionTree) : merge tree [] = tree := by
  simp [merge]

@[simp] theorem merge_cons (tree : InclusionTree) (node : IncludeNode) (rest : List IncludeNode) :
    merge tree (node :: rest) = merge (insert tree node) rest := by
  simp [merge]

/-- A changed node is found under its name, when the change keeps the name. -/
theorem get?_update_self (name : String) (change : IncludeNode → IncludeNode)
    (fresh : IncludeNode) (tree : InclusionTree)
    (keepsName : ∀ node, (change node).name = node.name) (freshName : fresh.name = name) :
    get? (update name change fresh tree) name
      = some (match get? tree name with
        | some node => change node
        | none => fresh) := by
  induction tree with
  | nil => simp [update, get?, freshName]
  | cons node rest inductionHypothesis =>
    unfold update
    by_cases same : node.name = name
    · simp [same, get?, keepsName]
    · rw [if_neg same]
      simpa [get?, same] using inductionHypothesis

/-- Changing the node of one name leaves the nodes of other names as they were. -/
theorem get?_update_of_ne {name other : String} (change : IncludeNode → IncludeNode)
    (fresh : IncludeNode) (tree : InclusionTree)
    (keepsName : ∀ node, (change node).name = node.name) (freshName : fresh.name = name)
    (distinct : name ≠ other) :
    get? (update name change fresh tree) other = get? tree other := by
  induction tree with
  | nil => simp [update, get?, freshName, distinct]
  | cons node rest inductionHypothesis =>
    unfold update
    by_cases same : node.name = name
    · have changed : ¬ (change node).name = other := by rw [keepsName, same]; exact distinct
      have kept : ¬ node.name = other := by rw [same]; exact distinct
      simp [same, get?, changed, distinct]
    · rw [if_neg same]
      by_cases found : node.name = other
      · simp [get?, found]
      · simpa [get?, found] using inductionHypothesis

mutual

def nodeDepth : IncludeNode → Nat
  | .mk _ children _ => depth children + 1

def depth : List IncludeNode → Nat
  | [] => 0
  | node :: rest => max (nodeDepth node) (depth rest)

end

mutual

/-- The types of all records that the nodes of a tree attach. -/
def nodeTargets : IncludeNode → List String
  | .mk relation children _ => relation.target :: targets children

def targets : List IncludeNode → List String
  | [] => []
  | node :: rest => nodeTargets node ++ targets rest

end

/-! ## Paths -/

/-- The mark of a recursive node in a list of paths. -/
def recursiveMark : String := "+"

mutual

/-- The paths of a node, each behind `lead`: its own when nothing is requested below
it or when it is recursive, and those of its children. -/
def nodePaths (lead : String) : IncludeNode → List String
  | .mk relation children recursion =>
      let path := lead ++ relation.name
      if children.isEmpty then
        [if recursion.isSome then path ++ recursiveMark else path]
      else
        (if recursion.isSome then [path ++ recursiveMark] else [])
          ++ pathsBelow (path ++ ".") children

/-- The paths of all nodes of a tree, each behind `lead`, in tree order. -/
def pathsBelow (lead : String) : List IncludeNode → List String
  | [] => []
  | node :: rest => nodePaths lead node ++ pathsBelow lead rest

end

/-- The paths that a tree covers, in ascending order. -/
def paths (tree : InclusionTree) : List String :=
  (pathsBelow "" tree).mergeSort fun left right => decide (left ≤ right)

end InclusionTree

end EagerLoad
