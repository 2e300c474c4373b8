import EagerLoad.Proofs.Inclusion.Requests
import Mathlib.Data.List.Forall2

/-!
Contract: trees that match node by node.

Owns: trees of one shape whose relations and whose rules are alike position by position, and that
every operation which builds trees turns matching trees into matching trees.

Does not own: which relations or rules are alike. That is a parameter, so that trees under two
schemas and trees with two kinds of limits are compared by the same lemmas.

The operations look at the names of relations, at the types that they lead to, and at the scopes
of rules. Relations that are alike agree in the former, and rules that are alike in the latter, so
that both sides always take the same branch.
-/

set_option autoImplicit false

namespace EagerLoad.InclusionTree

open EagerLoad.Path (Segment)

/-- What relations and rules must agree in for matching trees to be built and followed alike. -/
structure Alike (likeRelation : Relation → Relation → Prop)
    (likeRule : Recursion → Recursion → Prop) : Prop where
  name : ∀ {relation other}, likeRelation relation other → other.name = relation.name
  source : ∀ {relation other}, likeRelation relation other → other.source = relation.source
  target : ∀ {relation other}, likeRelation relation other → other.target = relation.target
  kind : ∀ {relation other}, likeRelation relation other → other.kind = relation.kind
  scope : ∀ {rule other}, likeRule rule other → other.scope = rule.scope
  union : ∀ {rule other added otherAdded}, likeRule rule other → likeRule added otherAdded →
    likeRule (rule.union added) (other.union otherAdded)

section

variable (likeRelation : Relation → Relation → Prop) (likeRule : Recursion → Recursion → Prop)

/-- Two nodes have relations and rules that are alike, and so have their children, one by one. -/
inductive NodeMatches : IncludeNode → IncludeNode → Prop
  | intro {node other : IncludeNode} (relation : likeRelation node.relation other.relation)
      (rule : Option.Rel likeRule node.recursion other.recursion)
      (below : List.Forall₂ NodeMatches node.children other.children) : NodeMatches node other

/-- Two trees have matching nodes in the same order. -/
abbrev Matches : InclusionTree → InclusionTree → Prop :=
  List.Forall₂ (NodeMatches likeRelation likeRule)

end

variable {likeRelation : Relation → Relation → Prop}
  {likeRule nextRule : Recursion → Recursion → Prop}

namespace NodeMatches

variable {node other : IncludeNode}

theorem relation (nodes : NodeMatches likeRelation likeRule node other) :
    likeRelation node.relation other.relation := by
  cases nodes with
  | intro relation rule below => exact relation

theorem rule (nodes : NodeMatches likeRelation likeRule node other) :
    Option.Rel likeRule node.recursion other.recursion := by
  cases nodes with
  | intro relation rule below => exact rule

theorem children (nodes : NodeMatches likeRelation likeRule node other) :
    Matches likeRelation likeRule node.children other.children := by
  cases nodes with
  | intro relation rule below => exact below

theorem name (alike : Alike likeRelation likeRule)
    (nodes : NodeMatches likeRelation likeRule node other) : other.name = node.name :=
  alike.name nodes.relation

theorem plain {relation otherRelation : Relation} (like : likeRelation relation otherRelation) :
    NodeMatches likeRelation likeRule (.plain relation) (.plain otherRelation) :=
  .intro like .none .nil

end NodeMatches

/-- Trees that match by one likeness of rules match by every weaker one. -/
theorem Matches.imp {tree other : InclusionTree}
    (weaken : ∀ {rule otherRule}, likeRule rule otherRule → nextRule rule otherRule)
    (matched : Matches likeRelation likeRule tree other) :
    Matches likeRelation nextRule tree other := by
  have weakenRules : ∀ {rule otherRule}, Option.Rel likeRule rule otherRule →
      Option.Rel nextRule rule otherRule := by
    intro rule otherRule rules
    cases rules with
    | none => exact .none
    | some like => exact .some (weaken like)
  induction tree using induction generalizing other with
  | step tree inductionHypothesis =>
      have both := (List.forall₂_and_left tree other).2 ⟨fun _ member => member, matched⟩
      refine both.imp ?_
      intro node otherNode holds
      obtain ⟨member, nodes⟩ := holds
      exact .intro nodes.relation (weakenRules nodes.rule)
        (inductionHypothesis node member nodes.children)

/-! ## Unions -/

theorem matches_update (alike : Alike likeRelation likeRule) {name : String}
    {change otherChange : IncludeNode → IncludeNode} {fresh otherFresh : IncludeNode}
    {tree other : InclusionTree} (matched : Matches likeRelation likeRule tree other)
    (changed : ∀ {node otherNode}, NodeMatches likeRelation likeRule node otherNode →
      NodeMatches likeRelation likeRule (change node) (otherChange otherNode))
    (isFresh : NodeMatches likeRelation likeRule fresh otherFresh) :
    Matches likeRelation likeRule (update name change fresh tree)
      (update name otherChange otherFresh other) := by
  induction matched with
  | nil => exact .cons isFresh .nil
  | @cons node otherNode rest otherRest nodes restMatched inductionHypothesis =>
      rw [update, update, nodes.name alike]
      by_cases same : node.name = name
      · rw [if_pos same, if_pos same]
        exact .cons (changed nodes) restMatched
      · rw [if_neg same, if_neg same]
        exact .cons nodes inductionHypothesis

theorem rel_union? (alike : Alike likeRelation likeRule)
    {rule other added otherAdded : Option Recursion} (rules : Option.Rel likeRule rule other)
    (addedRules : Option.Rel likeRule added otherAdded) :
    Option.Rel likeRule (Recursion.union? rule added) (Recursion.union? other otherAdded) := by
  cases rules with
  | none => exact addedRules
  | some like =>
      cases addedRules with
      | none => exact .some like
      | some likeAdded => exact .some (alike.union like likeAdded)

/-- What every insertion of matching nodes on both sides keeps, the unions keep. -/
theorem merge_induction₂ {motive : InclusionTree → InclusionTree → Prop}
    {like : IncludeNode → IncludeNode → Prop} {tree other more otherMore : InclusionTree}
    (related : List.Forall₂ like more otherMore)
    (kept : ∀ node ∈ more, ∀ otherNode, like node otherNode → ∀ tree other, motive tree other →
      motive (insert tree node) (insert other otherNode))
    (start : motive tree other) : motive (merge tree more) (merge other otherMore) := by
  induction related generalizing tree other with
  | nil =>
      rw [merge_nil, merge_nil]
      exact start
  | @cons node otherNode rest otherRest nodes restRelated inductionHypothesis =>
      rw [merge_cons, merge_cons]
      apply inductionHypothesis
      · exact fun later member => kept later (List.mem_cons_of_mem _ member)
      · exact kept node List.mem_cons_self otherNode nodes tree other start

theorem matches_merge (alike : Alike likeRelation likeRule)
    {tree other more otherMore : InclusionTree} (matched : Matches likeRelation likeRule tree other)
    (moreMatched : Matches likeRelation likeRule more otherMore) :
    Matches likeRelation likeRule (merge tree more) (merge other otherMore) := by
  induction more using induction generalizing tree other otherMore with
  | step more inductionHypothesis =>
      refine merge_induction₂ (motive := Matches likeRelation likeRule) moreMatched ?_ matched
      intro node member otherNode nodes tree other matched
      rw [insert_eq, insert_eq, nodes.name alike]
      refine matches_update alike matched ?_ nodes
      intro old otherOld olds
      refine .intro olds.relation (rel_union? alike olds.rule nodes.rule) ?_
      exact inductionHypothesis node member olds.children nodes.children

theorem matches_insert (alike : Alike likeRelation likeRule) {tree other : InclusionTree}
    {node otherNode : IncludeNode} (matched : Matches likeRelation likeRule tree other)
    (nodes : NodeMatches likeRelation likeRule node otherNode) :
    Matches likeRelation likeRule (insert tree node) (insert other otherNode) := by
  have merged := matches_merge alike matched (.cons nodes .nil)
  rwa [merge_cons, merge_nil, merge_cons, merge_nil] at merged

/-! ## Requests -/

section

variable {schema otherSchema : Schema} {entity : String}

theorem matches_recursiveLevel (alike : Alike likeRelation likeRule) {rule otherRule : Recursion}
    (declared : List.Forall₂ likeRelation (schema.relationsFrom entity)
      (otherSchema.relationsFrom entity)) (likeRules : likeRule rule otherRule) :
    Matches likeRelation likeRule (recursiveLevel schema entity rule)
      (recursiveLevel otherSchema entity otherRule) := by
  have admitted : List.Forall₂ likeRelation
      ((schema.relationsFrom entity).filter fun relation => rule.scope.admits relation.name)
      ((otherSchema.relationsFrom entity).filter fun relation =>
        otherRule.scope.admits relation.name) := by
    refine List.rel_filter ?_ declared
    intro relation other like
    show rule.scope.admits relation.name = true ↔ otherRule.scope.admits other.name = true
    rw [alike.name like, alike.scope likeRules]
  refine List.rel_foldl (P := Matches likeRelation likeRule) (R := likeRelation) ?_ .nil admitted
  intro tree other matched relation otherRelation like
  exact matches_insert alike matched (.intro like (.some likeRules) .nil)

theorem rel_find? {items others : List Relation} (alike : Alike likeRelation likeRule)
    (name : String) (matched : List.Forall₂ likeRelation items others) :
    List.Forall₂ likeRelation (items.find? fun relation => relation.name == name).toList
      (others.find? fun relation => relation.name == name).toList := by
  induction matched with
  | nil => exact .nil
  | @cons relation other rest otherRest like restMatched inductionHypothesis =>
      rw [List.find?_cons, List.find?_cons, alike.name like]
      cases relation.name == name with
      | true => exact .cons like .nil
      | false => exact inductionHypothesis

/-- The schemas declare relations that are alike on every type, in the same order. -/
def DeclareAlike (likeRelation : Relation → Relation → Prop) (schema otherSchema : Schema) : Prop :=
  ∀ entity, List.Forall₂ likeRelation (schema.relationsFrom entity)
    (otherSchema.relationsFrom entity)

theorem DeclareAlike.relationsOf (alike : Alike likeRelation likeRule)
    (declared : DeclareAlike likeRelation schema otherSchema) (entity : String)
    (segment : Segment) :
    List.Forall₂ likeRelation (relationsOf schema entity segment)
      (InclusionTree.relationsOf otherSchema entity segment) := by
  cases segment with
  | relation name => exact rel_find? alike name (declared entity)
  | wildcard => exact declared entity

theorem matches_insertPath (alike : Alike likeRelation likeRule)
    (declared : DeclareAlike likeRelation schema otherSchema) {segments : List Segment}
    {tree other : InclusionTree} (matched : Matches likeRelation likeRule tree other) :
    Matches likeRelation likeRule (insertPath schema tree entity segments)
      (insertPath otherSchema other entity segments) := by
  induction segments generalizing tree other entity with
  | nil => exact matched
  | cons segment rest inductionHypothesis =>
      rw [insertPath_cons, insertPath_cons]
      refine List.rel_foldl (P := Matches likeRelation likeRule) (R := likeRelation) ?_ matched
        (declared.relationsOf alike entity segment)
      intro tree other matched relation otherRelation like
      have extended : ∀ {node otherNode}, NodeMatches likeRelation likeRule node otherNode →
          NodeMatches likeRelation likeRule (extend schema rest relation node)
            (extend otherSchema rest otherRelation otherNode) := by
        intro node otherNode nodes
        unfold extend
        rw [alike.target like]
        exact .intro nodes.relation nodes.rule (inductionHypothesis nodes.children)
      show Matches likeRelation likeRule (update relation.name _ _ tree)
        (update otherRelation.name _ _ other)
      rw [alike.name like]
      exact matches_update alike matched extended (extended (.plain like))

theorem matches_build (alike : Alike likeRelation likeRule) (reflexive : ∀ rule, likeRule rule rule)
    (declared : DeclareAlike likeRelation schema otherSchema) (entity : String)
    (loads : List Load) :
    Matches likeRelation likeRule (build schema entity loads) (build otherSchema entity loads) := by
  rw [build_eq, build_eq]
  have sameRequests : List.Forall₂ (· = ·) (loads.flatMap Load.requests)
      (loads.flatMap Load.requests) := List.forall₂_same.2 fun _ _ => rfl
  refine List.rel_foldl (P := Matches likeRelation likeRule) (R := (· = ·)) ?_ .nil sameRequests
  rintro tree other matched request _ rfl
  cases request with
  | path segments => exact matches_insertPath alike declared matched
  | recursive rule =>
      exact matches_merge alike matched
        (matches_recursiveLevel alike (declared entity) (reflexive rule))

end

end EagerLoad.InclusionTree
