import EagerLoad.Proofs.Inclusion.Branches
import EagerLoad.Proofs.Inclusion.Rules

/-!
Contract: the tree of a list of requests, by what it has at each name.

Owns: the path and level requests that a load is made of; the length that a depth
allows; the union of rules; the shape, the branches and the rules of the tree that all
requests are turned into.

Does not own: what is loaded along a tree.

A tree of requests has rules at its top nodes only. Below them are the explicit paths,
and a recursive request adds nothing there: what it leads to is expanded while loading.
-/

set_option autoImplicit false

namespace EagerLoad

/-! ## Lengths and unions of rules -/

namespace Depth

/-- A depth allows branches of some length: one level, and one more for each level that
it may expand. -/
def Allows : Depth → Nat → Prop
  | .unbounded, _ => True
  | .limit levels, length => length ≤ levels + 1

theorem allows_one (depth : Depth) : depth.Allows 1 := by
  cases depth with
  | unbounded => trivial
  | limit levels => exact Nat.le_add_left 1 levels

theorem Allows.mono {depth more : Depth} {length : Nat} (allows : depth.Allows length)
    (le : depth ≤ more) : more.Allows length := by
  cases more with
  | unbounded => trivial
  | limit levels =>
      cases depth with
      | unbounded => exact le.elim
      | limit fewer => exact Nat.le_trans allows (Nat.succ_le_succ le)

/-- A depth that may expand allows one level more than what is left below. -/
theorem allows_succ_iff {depth : Depth} {length : Nat} (expands : depth.isExhausted = false) :
    depth.Allows (length + 1) ↔ depth.decrement.Allows length := by
  cases depth with
  | unbounded => exact Iff.rfl
  | limit levels =>
      have positive : levels ≠ 0 := by
        intro isZero
        rw [isZero] at expands
        cases expands
      show length + 1 ≤ levels + 1 ↔ length ≤ levels - 1 + 1
      omega

theorem allows_of_isExhausted {depth : Depth} {length : Nat}
    (exhausted : depth.isExhausted = true) :
    depth.Allows length ↔ length ≤ 1 := by
  have isZero : depth = .limit 0 := beq_iff_eq.1 exhausted
  rw [isZero]
  exact Iff.rfl

end Depth

/-- A rule that follows what any of some rules follows, as deep as the deepest of them;
none where there are none. -/
def Recursion.IsUnion (rules : List Recursion) : Option Recursion → Prop
  | none => rules = []
  | some rule => rules ≠ []
      ∧ (∀ name, rule.scope.admits name = true ↔ ∃ one ∈ rules, one.scope.admits name = true)
      ∧ ∀ length, rule.remaining.Allows length ↔ ∃ one ∈ rules, one.remaining.Allows length

theorem Recursion.isUnion_unionAll (rules : List Recursion) : IsUnion rules (unionAll rules) := by
  rcases unionAll_cases rules with ⟨isNil, isNone⟩ | ⟨united, isUnion, unites⟩
  · rw [isNone]
    exact isNil
  · rw [isUnion]
    obtain ⟨one, member, isDeepest⟩ := unites.deepest.1
    refine ⟨List.ne_nil_of_mem member, unites.admits_iff, fun length => ⟨?_, ?_⟩⟩
    · intro allows
      exact ⟨one, member, isDeepest ▸ allows⟩
    · intro holds
      rcases holds with ⟨other, otherMember, allows⟩
      exact allows.mono (unites.deepest.2 ⟨other, otherMember, rfl⟩)

/-! ## Requests -/

/-- What a load is made of: explicit paths, and relations to follow again and again. -/
inductive Request where
  | path (segments : List Path.Segment)
  | recursive (rule : Recursion)

/-- The requests of a load. All relations of a type are one path of a wildcard. -/
def Load.requests : Load → List Request
  | .paths requested => requested.map fun path => .path path.segments
  | .all => [.path [.wildcard]]
  | .allRecursive depth => [.recursive ⟨.all, depth⟩]
  | .recursive names depth => [.recursive ⟨.only names, depth⟩]

namespace Request

/-- A request leads along the branches that its path covers. A recursive one leads to the
relations that it follows, and is expanded from there. -/
def Leads : Request → List String → Prop
  | .path segments, names => Path.Segment.Cover segments names
  | .recursive rule, names => ∃ name, names = [name] ∧ rule.scope.admits name = true

/-- The rules of those recursive requests that follow the relations of a name. -/
def rulesAt (requests : List Request) (name : String) : List Recursion :=
  requests.filterMap fun request => match request with
    | .path _ => none
    | .recursive rule => if rule.scope.admits name then some rule else none

theorem mem_rulesAt {requests : List Request} {name : String} {rule : Recursion} :
    rule ∈ rulesAt requests name
      ↔ .recursive rule ∈ requests ∧ rule.scope.admits name = true := by
  unfold rulesAt
  rw [List.mem_filterMap]
  constructor
  · intro holds
    rcases holds with ⟨request, member, isRule⟩
    cases request with
    | path segments => cases isRule
    | recursive other =>
        obtain ⟨admitted, isOther⟩ := Option.ite_none_right_eq_some.1 isRule
        cases isOther
        exact ⟨member, admitted⟩
  · intro holds
    rcases holds with ⟨member, admitted⟩
    exact ⟨.recursive rule, member, if_pos admitted⟩

end Request

namespace InclusionTree

open EagerLoad.Path (Segment)

variable {schema : Schema} {entity : String}

/-- A tree with one more request. -/
def addRequest (schema : Schema) (entity : String) (tree : InclusionTree) :
    Request → InclusionTree
  | .path segments => insertPath schema tree entity segments
  | .recursive rule => merge tree (recursiveLevel schema entity rule)

theorem build_eq (schema : Schema) (entity : String) (loads : List Load) :
    build schema entity loads
      = (loads.flatMap Load.requests).foldl (addRequest schema entity) [] := by
  have addLoad_eq : ∀ tree load, addLoad schema entity tree load
      = (Load.requests load).foldl (addRequest schema entity) tree := by
    intro tree load
    cases load with
    | paths paths =>
        show List.foldl _ tree paths = List.foldl _ tree (paths.map _)
        rw [List.foldl_map]
        rfl
    | all => rfl
    | allRecursive depth => rfl
    | recursive names depth => rfl
  unfold build
  rw [List.foldl_flatMap]
  congr 1
  funext tree load
  exact addLoad_eq tree load

/-! ## Shape -/

/-- A tree for records of a type: the relations of siblings are declared on the type and
have different names, and so on below. Rules stand at the top at most. -/
inductive Shaped (schema : Schema) : (ruled : Bool) → String → InclusionTree → Prop
  | intro {ruled : Bool} {entity : String} {tree : InclusionTree}
      (names : (tree.map IncludeNode.name).Nodup)
      (declared : ∀ node ∈ tree, node.relation ∈ schema.relationsFrom entity)
      (rules : ruled = false → ∀ node ∈ tree, node.recursion = none)
      (below : ∀ node ∈ tree, Shaped schema false node.relation.target node.children) :
      Shaped schema ruled entity tree

namespace Shaped

variable {ruled : Bool} {tree : InclusionTree}

theorem names (shaped : Shaped schema ruled entity tree) : (tree.map IncludeNode.name).Nodup := by
  cases shaped with
  | intro names declared rules below => exact names

theorem declared (shaped : Shaped schema ruled entity tree) {node : IncludeNode}
    (member : node ∈ tree) : node.relation ∈ schema.relationsFrom entity := by
  cases shaped with
  | intro names declared rules below => exact declared node member

theorem unruled (shaped : Shaped schema false entity tree) {node : IncludeNode}
    (member : node ∈ tree) : node.recursion = none := by
  cases shaped with
  | intro names declared rules below => exact rules rfl node member

theorem children (shaped : Shaped schema ruled entity tree) {node : IncludeNode}
    (member : node ∈ tree) : Shaped schema false node.relation.target node.children := by
  cases shaped with
  | intro names declared rules below => exact below node member

theorem toRuled (shaped : Shaped schema ruled entity tree) : Shaped schema true entity tree :=
  .intro shaped.names (fun _ => shaped.declared) (fun impossible => nomatch impossible)
    (fun _ => shaped.children)

theorem distinct (shaped : Shaped schema ruled entity tree) : Distinct tree := by
  induction shaped with
  | intro names declared rules below inductionHypothesis => exact .intro names inductionHypothesis

end Shaped

theorem shaped_nil (ruled : Bool) (entity : String) : Shaped schema ruled entity [] :=
  .intro List.nodup_nil (fun _ member => nomatch member) (fun _ _ member => nomatch member)
    (fun _ member => nomatch member)

theorem shaped_insertPath (namesDistinct : schema.NamesDistinct) {ruled : Bool}
    {tree : InclusionTree} {segments : List Segment} (shaped : Shaped schema ruled entity tree) :
    Shaped schema ruled entity (insertPath schema tree entity segments) := by
  induction segments generalizing tree entity ruled with
  | nil => exact shaped
  | cons segment rest inductionHypothesis =>
      rw [insertPath_cons]
      refine List.foldlRecOn (motive := Shaped schema ruled entity) _ _ shaped ?_
      intro tree shaped relation member
      obtain ⟨declared, _⟩ := (mem_relationsOf namesDistinct).1 member
      have origin : ∀ node ∈ update relation.name (extend schema rest relation)
          (extend schema rest relation (.plain relation)) tree,
          node ∈ tree ∨ ∃ old : IncludeNode, old.relation = relation
            ∧ Shaped schema false relation.target old.children
            ∧ (ruled = false → old.recursion = none) ∧ node = extend schema rest relation old := by
        intro node nodeMember
        rcases mem_update nodeMember with kept | isFresh | ⟨old, oldMember, sameName, isExtended⟩
        · exact .inl kept
        · exact .inr ⟨.plain relation, rfl, shaped_nil false relation.target, fun _ => rfl, isFresh⟩
        · have sameRelation : old.relation = relation :=
            namesDistinct.eq_of_name_eq (shaped.declared oldMember) declared sameName
          refine .inr ⟨old, sameRelation, sameRelation ▸ shaped.children oldMember, ?_, isExtended⟩
          intro isUnruled
          subst isUnruled
          exact shaped.unruled oldMember
      refine .intro (nodup_names_update (fun _ => rfl) rfl shaped.names) ?_ ?_ ?_
      · intro node nodeMember
        rcases origin node nodeMember with kept | ⟨old, isRelation, _, _, rfl⟩
        · exact shaped.declared kept
        · exact isRelation ▸ declared
      · intro isUnruled node nodeMember
        subst isUnruled
        rcases origin node nodeMember with kept | ⟨old, _, _, oldUnruled, rfl⟩
        · exact shaped.unruled kept
        · exact oldUnruled rfl
      · intro node nodeMember
        rcases origin node nodeMember with kept | ⟨old, isRelation, oldShaped, _, rfl⟩
        · exact shaped.children kept
        · show Shaped schema false old.relation.target
            (insertPath schema old.children relation.target rest)
          rw [isRelation]
          exact inductionHypothesis oldShaped

theorem shaped_merge_recursiveLevel {ruled : Bool} {tree : InclusionTree} {rule : Recursion}
    (shaped : Shaped schema ruled entity tree) :
    Shaped schema true entity (merge tree (recursiveLevel schema entity rule)) := by
  refine merge_induction (motive := Shaped schema true entity) ?_ shaped.toRuled
  intro node member tree shaped
  have followed := isFollowed_of_mem_recursiveLevel node member
  refine .intro ?_ ?_ (fun impossible => nomatch impossible) ?_
  · rw [insert_eq]
    exact nodup_names_update (fun _ => rfl) rfl shaped.names
  · intro reached reachedMember
    rcases mem_insert reachedMember with kept | rfl | ⟨old, oldMember, _, rfl⟩
    · exact shaped.declared kept
    · exact followed.declared
    · have declared := shaped.declared oldMember
      exact declared
  · intro reached reachedMember
    rcases mem_insert reachedMember with kept | rfl | ⟨old, oldMember, _, rfl⟩
    · exact shaped.children kept
    · rw [followed.childless]
      exact shaped_nil false _
    · show Shaped schema false old.relation.target (merge old.children node.children)
      rw [followed.childless, merge_nil]
      exact shaped.children oldMember

/-! ## Branches and rules -/

theorem branch_merge_recursiveLevel {tree : InclusionTree} {rule : Recursion}
    {relation : Relation} {rest : List String} (declared : relation ∈ schema.relationsFrom entity) :
    Branch (merge tree (recursiveLevel schema entity rule)) (relation.name :: rest)
      ↔ Branch tree (relation.name :: rest)
        ∨ (rest = [] ∧ rule.scope.admits relation.name = true) := by
  cases admitted : rule.scope.admits relation.name with
  | false =>
      unfold Branch
      rw [get?_merge_recursiveLevel_of_not_admitted admitted]
      simp
  | true =>
      obtain ⟨node, found, children, _⟩ :=
        exists_get?_merge_recursiveLevel tree declared admitted
      rw [branch_cons_iff found, children, branch_below_iff]
      simp

/-- **The branches of a tree of requests** are those that one of them leads along. -/
theorem branch_build (namesDistinct : schema.NamesDistinct) (loads : List Load)
    {relations : List Relation} (notEmpty : relations ≠ [])
    (isPath : schema.IsPath entity relations) :
    Branch (build schema entity loads) (relations.map Relation.name)
      ↔ ∃ request ∈ loads.flatMap Load.requests, request.Leads (relations.map Relation.name) := by
  have added : ∀ (tree : InclusionTree) (request : Request),
      Branch (addRequest schema entity tree request) (relations.map Relation.name)
        ↔ Branch tree (relations.map Relation.name)
          ∨ request.Leads (relations.map Relation.name) := by
    intro tree request
    cases request with
    | path segments => exact branch_insertPath namesDistinct isPath
    | recursive rule =>
        obtain ⟨first, rest, rfl⟩ := List.exists_cons_of_ne_nil notEmpty
        unfold addRequest
        rw [List.map_cons, branch_merge_recursiveLevel isPath.1]
        apply or_congr_right
        constructor
        · intro holds
          rcases holds with ⟨isNil, admitted⟩
          exact ⟨first.name, by rw [isNil], admitted⟩
        · intro holds
          rcases holds with ⟨name, same, admitted⟩
          obtain ⟨rfl, isNil⟩ := List.cons.inj same
          exact ⟨isNil, admitted⟩
  have united : ∀ (requests : List Request) (tree : InclusionTree),
      Branch (requests.foldl (addRequest schema entity) tree) (relations.map Relation.name)
        ↔ Branch tree (relations.map Relation.name)
          ∨ ∃ request ∈ requests, request.Leads (relations.map Relation.name) := by
    intro requests
    induction requests with
    | nil => simp
    | cons request later inductionHypothesis =>
        intro tree
        rw [List.foldl_cons, inductionHypothesis, added, or_assoc, List.exists_mem_cons_iff]
  have nonempty : relations.map Relation.name ≠ [] := fun isNil =>
    notEmpty (List.map_eq_nil_iff.1 isNil)
  rw [build_eq, united, branch_nil_iff]
  exact or_iff_right nonempty

/-- **The rule at a name** of a tree of requests is the union of the rules of those
recursive requests that follow the name. -/
theorem ruleAt_build (namesDistinct : schema.NamesDistinct) (loads : List Load)
    {relation : Relation} (declared : relation ∈ schema.relationsFrom entity) :
    ruleAt (build schema entity loads) relation.name
      = Recursion.unionAll (Request.rulesAt (loads.flatMap Load.requests) relation.name) := by
  have united : ∀ (requests : List Request) (tree : InclusionTree),
      ruleAt (requests.foldl (addRequest schema entity) tree) relation.name
        = (Request.rulesAt requests relation.name).foldl
            (fun united rule => Recursion.union? united (some rule))
            (ruleAt tree relation.name) := by
    intro requests
    induction requests with
    | nil => exact fun tree => rfl
    | cons request later inductionHypothesis =>
        intro tree
        rw [List.foldl_cons, inductionHypothesis]
        cases request with
        | path segments =>
            rw [addRequest, ruleAt_insertPath namesDistinct declared]
            rfl
        | recursive rule =>
            rw [addRequest, ruleAt_merge_recursiveLevel tree rule declared]
            cases admitted : rule.scope.admits relation.name with
            | false =>
                rw [Request.rulesAt, Request.rulesAt,
                  List.filterMap_cons_none (by simp [admitted])]
                rfl
            | true =>
                rw [Request.rulesAt, Request.rulesAt,
                  List.filterMap_cons_some (b := rule) (by simp [admitted])]
                rfl
  rw [build_eq]
  exact united _ []

theorem isUnion_ruleAt_build (namesDistinct : schema.NamesDistinct) (loads : List Load)
    {relation : Relation} (declared : relation ∈ schema.relationsFrom entity) :
    Recursion.IsUnion (Request.rulesAt (loads.flatMap Load.requests) relation.name)
      (ruleAt (build schema entity loads) relation.name) := by
  rw [ruleAt_build namesDistinct loads declared]
  exact Recursion.isUnion_unionAll _

theorem shaped_build (namesDistinct : schema.NamesDistinct) (entity : String) (loads : List Load) :
    Shaped schema true entity (build schema entity loads) := by
  rw [build_eq]
  refine List.foldlRecOn (motive := Shaped schema true entity) _ _ (shaped_nil true entity) ?_
  intro tree shaped request _
  cases request with
  | path segments => exact shaped_insertPath namesDistinct shaped
  | recursive rule => exact shaped_merge_recursiveLevel shaped

end InclusionTree

end EagerLoad
