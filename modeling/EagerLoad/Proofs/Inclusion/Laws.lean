import EagerLoad.Proofs.Inclusion.Positions
import Mathlib.Data.List.Induction

/-!
Contract: the union of inclusion trees as an operation.

Owns: the laws of adding names, uniting rules and uniting trees: associativity, the empty tree as
a unit, idempotence, and commutativity up to order; trees that are the same but for the order of
siblings and of the names in scopes.

Does not own: where the nodes of a union come from (`Union.lean`) or how trees are ordered
(`Order.lean`).

A tree whose siblings have different names is the list of those names with a node for each of
them. A union adds the names of its right side to those of its left side, and unites node with
node. So every law of trees is a law of names beside a law of nodes, and the law of nodes is the
law of trees one level further down.
-/

set_option autoImplicit false

namespace EagerLoad

/-! ## Names -/

namespace Scope

theorem addNames_concat (names more : List String) (name : String) :
    addNames names (more ++ [name])
      = if name ∈ addNames names more then addNames names more
        else addNames names more ++ [name] :=
  List.foldl_concat _ _ _ _

theorem addNames_assoc (first second third : List String) :
    addNames (addNames first second) third = addNames first (addNames second third) := by
  induction third using List.reverseRecOn with
  | nil => rfl
  | append_singleton earlier name inductionHypothesis =>
      rw [addNames_concat, addNames_concat, inductionHypothesis]
      by_cases known : name ∈ addNames second earlier
      · rw [if_pos known, if_pos ((mem_addNames _ _ _).2 (.inr known))]
      · rw [if_neg known, addNames_concat]

theorem nodup_addNames {names : List String} (distinct : names.Nodup) (more : List String) :
    (addNames names more).Nodup := by
  induction more using List.reverseRecOn with
  | nil => exact distinct
  | append_singleton earlier name inductionHypothesis =>
      rw [addNames_concat]
      split
      · exact inductionHypothesis
      · rename_i fresh
        simpa using inductionHypothesis.concat fresh

theorem addNames_nil_left {names : List String} (distinct : names.Nodup) :
    addNames [] names = names := by
  induction names using List.reverseRecOn with
  | nil => rfl
  | append_singleton earlier name inductionHypothesis =>
      obtain ⟨earlierDistinct, _, apart⟩ := List.nodup_append.1 distinct
      have fresh : name ∉ earlier := fun known =>
        apart name known name (List.mem_singleton_self name) rfl
      rw [addNames_concat, inductionHypothesis earlierDistinct, if_neg fresh]

/-- Which of two lists without repeats is added to the other shows in the order only. -/
theorem perm_addNames_comm {names more : List String} (distinct : names.Nodup)
    (moreDistinct : more.Nodup) : (addNames names more).Perm (addNames more names) := by
  rw [List.perm_ext_iff_of_nodup (nodup_addNames distinct more) (nodup_addNames moreDistinct names)]
  intro name
  rw [mem_addNames, mem_addNames, or_comm]

theorem union_assoc (first second third : Scope) :
    (first.union second).union third = first.union (second.union third) := by
  cases third with
  | all => rfl
  | only last =>
      cases second with
      | all => cases first <;> rfl
      | only more =>
          cases first with
          | all => rfl
          | only names => exact congrArg only (addNames_assoc names more last)

/-! ## Scopes that are the same but for the order of their names -/

/-- Two scopes follow every relation, or list the same names, in any order and any number of
times. -/
inductive SameNames : Scope → Scope → Prop
  | all : SameNames .all .all
  | only {names more : List String} (same : ∀ name, name ∈ names ↔ name ∈ more) :
      SameNames (.only names) (.only more)

/-- Two scopes follow every relation, or list the same names in any order. -/
inductive Rearranged : Scope → Scope → Prop
  | all : Rearranged .all .all
  | only {names more : List String} (perm : names.Perm more) : Rearranged (.only names) (.only more)

/-- A scope lists no name twice. -/
def Once : Scope → Prop
  | .all => True
  | .only names => names.Nodup

theorem SameNames.refl (scope : Scope) : scope.SameNames scope := by
  cases scope with
  | all => exact .all
  | only names => exact .only fun _ => Iff.rfl

theorem Rearranged.refl (scope : Scope) : scope.Rearranged scope := by
  cases scope with
  | all => exact .all
  | only names => exact .only (.refl names)

theorem sameNames_union_comm (left right : Scope) :
    (left.union right).SameNames (right.union left) := by
  cases left with
  | all => cases right <;> exact .all
  | only names =>
      cases right with
      | all => exact .all
      | only more =>
          apply SameNames.only
          intro name
          rw [mem_addNames, mem_addNames, or_comm]

theorem rearranged_union_comm {left right : Scope} (leftOnce : left.Once)
    (rightOnce : right.Once) : (left.union right).Rearranged (right.union left) := by
  cases left with
  | all => cases right <;> exact .all
  | only names =>
      cases right with
      | all => exact .all
      | only more => exact .only (perm_addNames_comm leftOnce rightOnce)

end Scope

/-! ## Rules -/

theorem Depth.max_assoc (first second third : Depth) :
    (first.max second).max third = first.max (second.max third) := by
  cases first <;> cases second <;> cases third <;> try rfl
  exact congrArg limit (Nat.max_assoc _ _ _)

theorem Depth.max_comm (left right : Depth) : left.max right = right.max left := by
  cases left <;> cases right <;> try rfl
  exact congrArg limit (Nat.max_comm _ _)

namespace Recursion

theorem union_assoc (first second third : Recursion) :
    (first.union second).union third = first.union (second.union third) := by
  unfold union
  rw [Scope.union_assoc, Depth.max_assoc]

theorem union?_assoc (first second third : Option Recursion) :
    union? (union? first second) third = union? first (union? second third) := by
  cases first <;> cases second <;> cases third <;> try rfl
  exact congrArg some (union_assoc _ _ _)

theorem union?_self (rule : Option Recursion) : union? rule rule = rule := by
  cases rule with
  | none => rfl
  | some rule => exact congrArg some (union_self rule)

end Recursion

namespace InclusionTree

/-! ## A tree as names with a node for each -/

theorem filterMap_get?_names {tree : InclusionTree}
    (distinct : (tree.map IncludeNode.name).Nodup) :
    (tree.map IncludeNode.name).filterMap (get? tree) = tree := by
  rw [List.filterMap_map]
  have isOwn : ∀ node ∈ tree, (get? tree ∘ IncludeNode.name) node = some node := fun node member =>
    (find?_eq_some_iff_of_nodup distinct).2 ⟨member, rfl⟩
  rw [List.filterMap_congr isOwn, List.filterMap_some]

/-- Trees with the same names in order and the same node for each name are equal. -/
theorem eq_of_get?_eq {tree other : InclusionTree}
    (sameNames : tree.map IncludeNode.name = other.map IncludeNode.name)
    (distinct : (tree.map IncludeNode.name).Nodup)
    (sameNodes : ∀ name, get? tree name = get? other name) : tree = other := by
  calc tree = (tree.map IncludeNode.name).filterMap (get? tree) :=
        (filterMap_get?_names distinct).symm
    _ = (other.map IncludeNode.name).filterMap (get? other) := by rw [sameNames, funext sameNodes]
    _ = other := filterMap_get?_names (sameNames ▸ distinct)

/-- A union has the names of its left side, and behind them those of its right side that are
new. -/
theorem names_merge (tree other : InclusionTree) :
    (merge tree other).map IncludeNode.name
      = Scope.addNames (tree.map IncludeNode.name) (other.map IncludeNode.name) := by
  induction other generalizing tree with
  | nil =>
      rw [merge_nil]
      rfl
  | cons node rest inductionHypothesis =>
      have keepsName : ∀ old, (absorb old node).name = old.name := fun _ => rfl
      rw [merge_cons, inductionHypothesis, insert_eq, names_update tree keepsName rfl]
      rfl

/-- A node that requests what two nodes request, of which either may be absent. -/
def absorb? : Option IncludeNode → Option IncludeNode → Option IncludeNode
  | some node, some other => some (absorb node other)
  | some node, none => some node
  | none, other => other

theorem get?_merge (tree : InclusionTree) {other : InclusionTree}
    (distinct : (other.map IncludeNode.name).Nodup) (name : String) :
    get? (merge tree other) name = absorb? (get? tree name) (get? other name) := by
  by_cases known : name ∈ other.map IncludeNode.name
  · obtain ⟨node, member, rfl⟩ := List.mem_map.1 known
    have isOwn : get? other node.name = some node :=
      (find?_eq_some_iff_of_nodup distinct).2 ⟨member, rfl⟩
    rw [get?_merge_of_mem tree distinct member, isOwn]
    cases get? tree node.name <;> rfl
  · have absent : get? other name = none := by
      apply List.find?_eq_none.2
      intro node member same
      exact known (List.mem_map.2 ⟨node, member, beq_iff_eq.1 same⟩)
    rw [get?_merge_of_not_mem known, absent]
    cases get? tree name <;> rfl

/-- Two nodes that may be absent are united in either order, or there is one of them only. -/
theorem absorb?_swapped {node other : Option IncludeNode} {left right : IncludeNode}
    (isLeft : absorb? node other = some left) (isRight : absorb? other node = some right) :
    (∃ first second, node = some first ∧ other = some second ∧ left = absorb first second
        ∧ right = absorb second first)
      ∨ left = right ∧ (node = some left ∨ other = some left) := by
  cases node with
  | none =>
      cases other with
      | none => cases isLeft
      | some second =>
          cases isLeft
          cases isRight
          exact .inr ⟨rfl, .inr rfl⟩
  | some first =>
      cases other with
      | none =>
          cases isLeft
          cases isRight
          exact .inr ⟨rfl, .inl rfl⟩
      | some second =>
          cases isLeft
          cases isRight
          exact .inl ⟨first, second, rfl, rfl, rfl, rfl⟩

theorem mem_of_get? {tree : InclusionTree} {name : String} {node : IncludeNode}
    (found : get? tree name = some node) : node ∈ tree :=
  List.mem_of_find?_eq_some found

/-! ## Laws that hold exactly -/

theorem merge_assoc {first second third : InclusionTree} (firstDistinct : Distinct first)
    (secondDistinct : Distinct second) (thirdDistinct : Distinct third) :
    merge (merge first second) third = merge first (merge second third) := by
  induction first using induction generalizing second third with
  | step first inductionHypothesis =>
      have united := distinct_merge firstDistinct secondDistinct
      apply eq_of_get?_eq
      · simp only [names_merge, Scope.addNames_assoc]
      · exact (distinct_merge united thirdDistinct).names
      · intro name
        rw [get?_merge _ thirdDistinct.names, get?_merge _ secondDistinct.names,
          get?_merge _ (distinct_merge secondDistinct thirdDistinct).names,
          get?_merge _ thirdDistinct.names]
        cases inFirst : get? first name with
        | none => rfl
        | some one =>
            cases inSecond : get? second name with
            | none => rfl
            | some two =>
                cases inThird : get? third name with
                | none => rfl
                | some three =>
                    -- the one place where all three sides meet, one level further down
                    have below := inductionHypothesis one (mem_of_get? inFirst)
                      (firstDistinct.children (mem_of_get? inFirst))
                      (secondDistinct.children (mem_of_get? inSecond))
                      (thirdDistinct.children (mem_of_get? inThird))
                    show some (IncludeNode.mk _ _ _) = some (IncludeNode.mk _ _ _)
                    exact congrArg some (congrArg₂ (IncludeNode.mk one.relation) below
                      (Recursion.union?_assoc _ _ _))

theorem nil_merge {tree : InclusionTree} (distinct : Distinct tree) : merge [] tree = tree := by
  apply eq_of_get?_eq
  · rw [names_merge]
    exact Scope.addNames_nil_left distinct.names
  · exact (distinct_merge distinct_nil distinct).names
  · intro name
    rw [get?_merge _ distinct.names]
    rfl

theorem merge_self {tree : InclusionTree} (distinct : Distinct tree) : merge tree tree = tree := by
  induction tree using induction with
  | step tree inductionHypothesis =>
      apply eq_of_get?_eq
      · rw [names_merge, Scope.addNames_of_subset (List.Subset.refl _)]
      · exact (distinct_merge distinct distinct).names
      · intro name
        rw [get?_merge _ distinct.names]
        cases found : get? tree name with
        | none => rfl
        | some node =>
            have member := mem_of_get? found
            have below := inductionHypothesis node member (distinct.children member)
            obtain ⟨relation, children, rule⟩ := node
            exact congrArg some (congrArg₂ (IncludeNode.mk relation) below
              (Recursion.union?_self rule))

/-! ## Commutativity up to order -/

/-- Two trees carry one declaration wherever both have a node. -/
def Agrees (tree other : InclusionTree) : Prop :=
  ∀ name rest left right, nodeAt? tree name rest = some left →
    nodeAt? other name rest = some right → left.relation = right.relation

theorem Agrees.children {tree other : InclusionTree} (agrees : Agrees tree other) {name : String}
    {left right : IncludeNode} (found : get? tree name = some left)
    (otherFound : get? other name = some right) : Agrees left.children right.children := by
  intro next rest below otherBelow isBelow isOtherBelow
  rw [← nodeAt?_cons found] at isBelow
  rw [← nodeAt?_cons otherFound] at isOtherBelow
  exact agrees name (next :: rest) below otherBelow isBelow isOtherBelow

/-- All scopes of a tree meet a condition. -/
inductive Scoped (condition : Scope → Prop) : InclusionTree → Prop
  | intro {tree : InclusionTree}
      (here : ∀ node ∈ tree, ∀ rule, node.recursion = some rule → condition rule.scope)
      (below : ∀ node ∈ tree, Scoped condition node.children) : Scoped condition tree

section

variable {condition : Scope → Prop} {tree : InclusionTree} {node : IncludeNode}

theorem Scoped.rule (meets : Scoped condition tree) (member : node ∈ tree) {rule : Recursion}
    (isRule : node.recursion = some rule) : condition rule.scope := by
  cases meets with
  | intro here below => exact here node member rule isRule

theorem Scoped.children (meets : Scoped condition tree) (member : node ∈ tree) :
    Scoped condition node.children := by
  cases meets with
  | intro here below => exact below node member

theorem scoped_true (tree : InclusionTree) : Scoped (fun _ => True) tree := by
  induction tree using induction with
  | step tree inductionHypothesis => exact .intro (fun _ _ _ _ => trivial) inductionHypothesis

end

/-- Rules that may be absent are the same but for what their scopes may differ in. -/
def SameRule (sameScope : Scope → Scope → Prop) (left right : Option Recursion) : Prop :=
  Option.Rel (fun rule other => sameScope rule.scope other.scope
    ∧ rule.remaining = other.remaining) left right

/-- Two trees whose siblings have different names are the same but for the order of siblings and
for what scopes may differ in. -/
inductive Reordered (sameScope : Scope → Scope → Prop) : InclusionTree → InclusionTree → Prop
  | intro {tree other : InclusionTree}
      (names : (tree.map IncludeNode.name).Perm (other.map IncludeNode.name))
      (relations : ∀ left ∈ tree, ∀ right ∈ other, left.name = right.name →
        left.relation = right.relation)
      (rules : ∀ left ∈ tree, ∀ right ∈ other, left.name = right.name →
        SameRule sameScope left.recursion right.recursion)
      (below : ∀ left ∈ tree, ∀ right ∈ other, left.name = right.name →
        Reordered sameScope left.children right.children) :
      Reordered sameScope tree other

section

variable {sameScope : Scope → Scope → Prop} {condition : Scope → Prop}

/-- Trees are the same as soon as they have the same names and each name has the same node. -/
theorem reordered_of_nodes {tree other : InclusionTree} (distinct : Distinct tree)
    (otherDistinct : Distinct other)
    (names : (tree.map IncludeNode.name).Perm (other.map IncludeNode.name))
    (nodes : ∀ name left right, get? tree name = some left → get? other name = some right →
      left.relation = right.relation ∧ SameRule sameScope left.recursion right.recursion
        ∧ Reordered sameScope left.children right.children) :
    Reordered sameScope tree other := by
  have paired : ∀ left ∈ tree, ∀ right ∈ other, left.name = right.name →
      left.relation = right.relation ∧ SameRule sameScope left.recursion right.recursion
        ∧ Reordered sameScope left.children right.children := by
    intro left member right otherMember sameName
    exact nodes left.name left right ((get?_eq_some_iff distinct).2 ⟨member, rfl⟩)
      ((get?_eq_some_iff otherDistinct).2 ⟨otherMember, sameName.symm⟩)
  refine .intro names ?_ ?_ ?_
  · exact fun left member right otherMember same => (paired left member right otherMember same).1
  · exact fun left member right otherMember same => (paired left member right otherMember same).2.1
  · exact fun left member right otherMember same => (paired left member right otherMember same).2.2

theorem sameRule_refl (scopeRefl : ∀ scope, sameScope scope scope) (rule : Option Recursion) :
    SameRule sameScope rule rule := by
  cases rule with
  | none => exact .none
  | some rule => exact .some ⟨scopeRefl rule.scope, rfl⟩

theorem reordered_refl (scopeRefl : ∀ scope, sameScope scope scope) {tree : InclusionTree}
    (distinct : Distinct tree) : Reordered sameScope tree tree := by
  induction tree using induction with
  | step tree inductionHypothesis =>
      apply reordered_of_nodes distinct distinct (.refl _)
      intro name left right found otherFound
      obtain rfl : left = right := Option.some.inj (found.symm.trans otherFound)
      have member := mem_of_get? found
      exact ⟨rfl, sameRule_refl scopeRefl _, inductionHypothesis left member
        (distinct.children member)⟩

theorem sameRule_union?_comm (scopeRefl : ∀ scope, sameScope scope scope)
    (scopeComm : ∀ {left right : Scope}, condition left → condition right →
      sameScope (left.union right) (right.union left))
    {left right : Option Recursion} (leftMeets : ∀ rule, left = some rule → condition rule.scope)
    (rightMeets : ∀ rule, right = some rule → condition rule.scope) :
    SameRule sameScope (Recursion.union? left right) (Recursion.union? right left) := by
  cases left with
  | none =>
      cases right with
      | none => exact .none
      | some rule => exact sameRule_refl scopeRefl (some rule)
  | some rule =>
      cases right with
      | none => exact sameRule_refl scopeRefl (some rule)
      | some other =>
          exact .some ⟨scopeComm (leftMeets rule rfl) (rightMeets other rfl),
            Depth.max_comm _ _⟩

/-- Where the union of scopes does not depend on their order, but for what scopes may differ in,
nor does the union of trees. -/
theorem reordered_merge_comm (scopeRefl : ∀ scope, sameScope scope scope)
    (scopeComm : ∀ {left right : Scope}, condition left → condition right →
      sameScope (left.union right) (right.union left))
    {tree other : InclusionTree} (distinct : Distinct tree) (otherDistinct : Distinct other)
    (meets : Scoped condition tree) (otherMeets : Scoped condition other)
    (agrees : Agrees tree other) :
    Reordered sameScope (merge tree other) (merge other tree) := by
  induction tree using induction generalizing other with
  | step tree inductionHypothesis =>
      refine reordered_of_nodes (distinct_merge distinct otherDistinct)
        (distinct_merge otherDistinct distinct) ?_ ?_
      · rw [names_merge, names_merge]
        exact Scope.perm_addNames_comm distinct.names otherDistinct.names
      · intro name left right found otherFound
        rw [get?_merge _ otherDistinct.names] at found
        rw [get?_merge _ distinct.names] at otherFound
        rcases absorb?_swapped found otherFound with
          ⟨node, added, inTree, inOther, rfl, rfl⟩ | ⟨rfl, fromEither⟩
        · have member := mem_of_get? inTree
          have otherMember := mem_of_get? inOther
          refine ⟨agrees name [] node added inTree inOther, ?_, ?_⟩
          · exact sameRule_union?_comm scopeRefl scopeComm
              (fun rule isRule => meets.rule member isRule)
              (fun rule isRule => otherMeets.rule otherMember isRule)
          · exact inductionHypothesis node member (distinct.children member)
              (otherDistinct.children otherMember) (meets.children member)
              (otherMeets.children otherMember) (agrees.children inTree inOther)
        · have childrenDistinct : Distinct left.children := by
            rcases fromEither with inTree | inOther
            · exact distinct.children (mem_of_get? inTree)
            · exact otherDistinct.children (mem_of_get? inOther)
          exact ⟨rfl, sameRule_refl scopeRefl _, reordered_refl scopeRefl childrenDistinct⟩

end

/-- Trees that fit one type agree. -/
theorem agrees_of_fits {schema : Schema} (namesDistinct : schema.NamesDistinct) {entity : String}
    {tree other : InclusionTree} (fits : Fits schema entity tree)
    (otherFits : Fits schema entity other) : Agrees tree other := by
  intro name rest left right found otherFound
  have isRelation := fits.relationAt?_eq namesDistinct found
  have isOtherRelation := otherFits.relationAt?_eq namesDistinct otherFound
  exact Option.some.inj (isRelation.symm.trans isOtherRelation)

theorem scoped_recursiveLevel {condition : Scope → Prop} (schema : Schema) (entity : String)
    {rule : Recursion} (met : condition rule.scope) :
    Scoped condition (recursiveLevel schema entity rule) := by
  refine .intro ?_ ?_
  · intro node member other isRule
    have followed := isFollowed_of_mem_recursiveLevel node member
    obtain rfl : rule = other := Option.some.inj (followed.ruled.symm.trans isRule)
    exact met
  · intro node member
    rw [(isFollowed_of_mem_recursiveLevel node member).childless]
    exact .intro nofun nofun

/-- **The laws of union.** The union of trees is associative, has the empty tree as its unit on
either side, and is idempotent, all of them exactly. Where two trees carry one declaration at each
position that they share, the sides of their union show in order only: the order of siblings and,
unless a scope repeats a name, the order of the names in scopes. A scope that repeats names
decides how often the united scope lists them, but not which names it lists. -/
theorem merge_laws {first second third : InclusionTree} (firstDistinct : Distinct first)
    (secondDistinct : Distinct second) (thirdDistinct : Distinct third) :
    merge (merge first second) third = merge first (merge second third)
      ∧ merge first [] = first ∧ merge [] first = first
      ∧ merge first first = first
      ∧ (Agrees first second →
          Reordered Scope.SameNames (merge first second) (merge second first)
            ∧ (Scoped Scope.Once first → Scoped Scope.Once second →
                Reordered Scope.Rearranged (merge first second) (merge second first))) := by
  refine ⟨merge_assoc firstDistinct secondDistinct thirdDistinct, merge_nil first,
    nil_merge firstDistinct, merge_self firstDistinct, fun agrees => ⟨?_, ?_⟩⟩
  · have comm : ∀ {left right : Scope}, True → True →
        Scope.SameNames (left.union right) (right.union left) :=
      fun _ _ => Scope.sameNames_union_comm _ _
    exact reordered_merge_comm Scope.SameNames.refl comm firstDistinct secondDistinct
      (scoped_true first) (scoped_true second) agrees
  · intro firstOnce secondOnce
    exact reordered_merge_comm Scope.Rearranged.refl Scope.rearranged_union_comm firstDistinct
      secondDistinct firstOnce secondOnce agrees

end InclusionTree

namespace Library

open InclusionTree (recursiveLevel)

/-- Books to one depth, and whatever authors of books lead to. -/
def deepBooks : InclusionTree :=
  [.mk books (recursiveLevel schema "book" ⟨.only ["author"], .unbounded⟩)
    (some ⟨.only ["author", "books"], .limit 1⟩)]

/-- Books, requested by a scope of some names. -/
def booksBy (names : List String) : InclusionTree :=
  recursiveLevel schema "author" ⟨.only names, .unbounded⟩

theorem fits_deepBooks : InclusionTree.Fits schema "author" deepBooks := by
  refine .intro (by decide) ?_ ?_
  · intro node member
    rw [List.mem_singleton.1 member]
    decide
  · intro node member
    rw [List.mem_singleton.1 member]
    exact InclusionTree.fits_recursiveLevel schema "book" ⟨.only ["author"], .unbounded⟩

theorem fits_booksBy (names : List String) :
    InclusionTree.Fits schema "author" (booksBy names) :=
  InclusionTree.fits_recursiveLevel schema "author" ⟨.only names, .unbounded⟩

theorem once_deepBooks : InclusionTree.Scoped Scope.Once deepBooks := by
  refine .intro ?_ ?_
  · intro node member rule isRule
    rw [List.mem_singleton.1 member] at isRule
    cases isRule
    show ["author", "books"].Nodup
    decide
  · intro node member
    rw [List.mem_singleton.1 member]
    exact InclusionTree.scoped_recursiveLevel schema "book" (List.nodup_singleton "author")

end Library

/-- The laws of union for requests for books. -/
theorem InclusionTree.merge_laws_library :
    let first := Library.deepBooks
    let second := Library.booksBy ["books"]
    let third := Library.booksBy ["editor", "books"]
    Distinct first ∧ Distinct second ∧ Distinct third ∧ Agrees first second
      ∧ Scoped Scope.Once first ∧ Scoped Scope.Once second
      ∧ merge (merge first second) third = merge first (merge second third)
      ∧ merge [] first = first ∧ merge first first = first
      ∧ Reordered Scope.SameNames (merge first second) (merge second first)
      ∧ Reordered Scope.Rearranged (merge first second) (merge second first) := by
  intro first second third
  have firstFits := Library.fits_deepBooks
  have secondFits := Library.fits_booksBy ["books"]
  have thirdFits := Library.fits_booksBy ["editor", "books"]
  have agrees : Agrees first second := agrees_of_fits (by decide) firstFits secondFits
  have secondOnce : Scoped Scope.Once second :=
    scoped_recursiveLevel _ _ (List.nodup_singleton "books")
  obtain ⟨assoc, _, unit, idempotent, commutes⟩ :=
    merge_laws firstFits.distinct secondFits.distinct thirdFits.distinct
  obtain ⟨sameNames, rearranged⟩ := commutes agrees
  exact ⟨firstFits.distinct, secondFits.distinct, thirdFits.distinct, agrees,
    Library.once_deepBooks, secondOnce, assoc, unit, idempotent, sameNames,
    rearranged Library.once_deepBooks secondOnce⟩

/-- Where a scope names books twice, one order of the union lists them twice and the other
once: the two differ in more than the order of names. -/
theorem InclusionTree.merge_repeats_names :
    let twice := Library.booksBy ["books", "books"]
    let once := Library.booksBy ["books"]
    Distinct twice ∧ Distinct once ∧ Agrees twice once
      ∧ merge twice once
          = [.mk Library.books [] (some ⟨.only ["books", "books"], .unbounded⟩)]
      ∧ merge once twice = [.mk Library.books [] (some ⟨.only ["books"], .unbounded⟩)]
      ∧ ¬ Reordered Scope.Rearranged (merge twice once) (merge once twice) := by
  intro twice once
  have twiceFits := Library.fits_booksBy ["books", "books"]
  have onceFits := Library.fits_booksBy ["books"]
  have isTwice : merge twice once
      = [.mk Library.books [] (some ⟨.only ["books", "books"], .unbounded⟩)] := by decide
  have isOnce : merge once twice
      = [.mk Library.books [] (some ⟨.only ["books"], .unbounded⟩)] := by decide
  refine ⟨twiceFits.distinct, onceFits.distinct, agrees_of_fits (by decide) twiceFits onceFits,
    isTwice, isOnce, ?_⟩
  rw [isTwice, isOnce]
  intro reordered
  cases reordered with
  | intro names relations rules below =>
      have sameRule := rules _ (List.mem_singleton_self _) _ (List.mem_singleton_self _) rfl
      cases sameRule with
      | some same =>
          cases same.1 with
          | only perm => exact absurd perm.length_eq (by decide)

end EagerLoad
