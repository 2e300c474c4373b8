import EagerLoad.Proofs.Inclusion.Positions

/-!
Contract: inclusion trees by how much they ask for.

Owns: the order of trees; that a union is above its left side; that one level of a recursive
request keeps the order when it is added to both sides; that the tree of a list of requests
is above that of another list as soon as the requests are.

Does not own: what is loaded for a tree (`Hydration/Containment.lean`).

Trees are compared position by position. A tree asks for no more than another when the
other has a node of the same relation at each of its positions, with a rule that asks for no
less. The order of siblings does not enter.
-/

set_option autoImplicit false

namespace EagerLoad

namespace InclusionTree

/-- A node asks for no more than another of the same relation, its children apart. -/
structure NodeWithin (node other : IncludeNode) : Prop where
  relation : other.relation = node.relation
  rule : Recursion.Within? node.recursion other.recursion

theorem NodeWithin.refl (node : IncludeNode) : NodeWithin node node := ⟨rfl, .refl _⟩

theorem NodeWithin.trans {first second third : IncludeNode} (firstWithin : NodeWithin first second)
    (secondWithin : NodeWithin second third) : NodeWithin first third where
  relation := secondWithin.relation.trans firstWithin.relation
  rule := firstWithin.rule.trans secondWithin.rule

/-- A tree asks for no more than another. -/
def Within (tree more : InclusionTree) : Prop :=
  ∀ name rest node, nodeAt? tree name rest = some node →
    ∃ other, nodeAt? more name rest = some other ∧ NodeWithin node other

namespace Within

variable {first second third tree more : InclusionTree}

theorem refl (tree : InclusionTree) : Within tree tree :=
  fun _ _ node found => ⟨node, found, .refl node⟩

theorem trans (firstWithin : Within first second) (secondWithin : Within second third) :
    Within first third := by
  intro name rest node found
  obtain ⟨other, otherFound, within⟩ := firstWithin name rest node found
  obtain ⟨last, lastFound, onward⟩ := secondWithin name rest other otherFound
  exact ⟨last, lastFound, within.trans onward⟩

theorem get? (within : Within tree more) {name : String} {node : IncludeNode}
    (found : get? tree name = some node) :
    ∃ other, InclusionTree.get? more name = some other ∧ NodeWithin node other :=
  within name [] node found

/-- What is below a name is in order as well. -/
theorem below (within : Within tree more) (name : String) :
    Within (below tree name) (InclusionTree.below more name) := by
  intro next rest node found
  rw [nodeAt?_below] at found ⊢
  exact within name (next :: rest) node found

theorem ruleAt (within : Within tree more) (name : String) :
    Recursion.Within? (InclusionTree.ruleAt tree name) (InclusionTree.ruleAt more name) := by
  cases found : InclusionTree.get? tree name with
  | none =>
      unfold InclusionTree.ruleAt
      rw [found]
      exact .none _
  | some node =>
      obtain ⟨other, otherFound, nodeWithin⟩ := within.get? found
      rw [ruleAt_of_get? found, ruleAt_of_get? otherFound]
      exact nodeWithin.rule

end Within

theorem below_of_get? {tree : InclusionTree} {name : String} {node : IncludeNode}
    (found : get? tree name = some node) : below tree name = node.children := by
  unfold below
  rw [found]
  rfl

theorem nil_within (more : InclusionTree) : Within [] more := by
  intro name rest node found
  rw [nodeAt?_nil_tree] at found
  cases found

/-- Trees are in order as soon as they are at their top and below each of their nodes. -/
theorem within_of_below {tree more : InclusionTree}
    (top : ∀ name node, get? tree name = some node →
      ∃ other, get? more name = some other ∧ NodeWithin node other)
    (below : ∀ name, Within (below tree name) (InclusionTree.below more name)) :
    Within tree more := by
  intro name rest node found
  cases rest with
  | nil => exact top name node found
  | cons next rest =>
      rw [← nodeAt?_below] at found ⊢
      exact below name next rest node found

/-! ## Unions -/

theorem get?_absorb_or {tree other : InclusionTree} (otherDistinct : Distinct other)
    (name : String) {node : IncludeNode} (found : get? tree name = some node) :
    get? (merge tree other) name = some node
      ∨ ∃ added ∈ other, get? (merge tree other) name = some (absorb node added) := by
  by_cases known : name ∈ other.map IncludeNode.name
  · obtain ⟨added, member, rfl⟩ := List.mem_map.1 known
    have merged := get?_merge_of_mem tree otherDistinct.names member
    rw [found] at merged
    exact .inr ⟨added, member, merged⟩
  · rw [get?_merge_of_not_mem known]
    exact .inl found

/-- A union asks for no less than its left side. -/
theorem within_merge_left {tree other : InclusionTree} (otherDistinct : Distinct other) :
    Within tree (merge tree other) := by
  induction tree using induction generalizing other with
  | step tree inductionHypothesis =>
      apply within_of_below
      · intro name node found
        rcases get?_absorb_or otherDistinct name found with kept | ⟨added, _, absorbed⟩
        · exact ⟨node, kept, .refl node⟩
        · exact ⟨absorb node added, absorbed, rfl, Recursion.within?_union?_left _ _⟩
      · intro name
        cases found : get? tree name with
        | none =>
            unfold below
            rw [found]
            exact nil_within _
        | some node =>
            rw [below_of_get? found]
            rcases get?_absorb_or otherDistinct name found with kept | ⟨added, member, absorbed⟩
            · rw [below_of_get? kept]
              exact .refl _
            · rw [below_of_get? absorbed]
              exact inductionHypothesis node (List.mem_of_find?_eq_some found)
                (otherDistinct.children member)

/-! ## One level of a recursive request -/

section

variable {schema : Schema} {entity : String} {tree more : InclusionTree}
  {rule moreRule : Recursion}

/-- One level of a recursive request adds nothing below a name. -/
theorem below_merge_recursiveLevel (schema : Schema) (entity : String) (tree : InclusionTree)
    (rule : Recursion) (name : String) :
    below (merge tree (recursiveLevel schema entity rule)) name = below tree name := by
  by_cases known : name ∈ (recursiveLevel schema entity rule).map IncludeNode.name
  · obtain ⟨added, member, rfl⟩ := List.mem_map.1 known
    have followed := isFollowed_of_mem_recursiveLevel added member
    obtain ⟨node, found, children, _⟩ :=
      exists_get?_merge_recursiveLevel tree followed.declared followed.admitted
    exact (below_of_get? found).trans children
  · unfold below
    rw [get?_merge_of_not_mem known]

/-- Adding a level of a recursive request to both sides keeps the order, if more is added on
the right. -/
theorem within_merge_recursiveLevel (namesDistinct : schema.NamesDistinct)
    (fits : Fits schema entity tree) (moreFits : Fits schema entity more)
    (within : Within tree more) (ruleWithin : rule.Within moreRule) :
    Within (merge tree (recursiveLevel schema entity rule))
      (merge more (recursiveLevel schema entity moreRule)) := by
  have mergedFits := fits_merge namesDistinct fits (fits_recursiveLevel schema entity rule)
  have moreMergedFits :=
    fits_merge namesDistinct moreFits (fits_recursiveLevel schema entity moreRule)
  apply within_of_below
  · intro name node found
    by_cases known : name ∈ (recursiveLevel schema entity rule).map IncludeNode.name
    · obtain ⟨added, member, rfl⟩ := List.mem_map.1 known
      have followed := isFollowed_of_mem_recursiveLevel added member
      obtain ⟨own, ownFound, _, ownRule⟩ :=
        exists_get?_merge_recursiveLevel tree followed.declared followed.admitted
      obtain ⟨other, otherFound, _, otherRule⟩ := exists_get?_merge_recursiveLevel more
        followed.declared (ruleWithin.follows _ followed.admitted)
      obtain rfl : node = own := Option.some.inj (found.symm.trans ownFound)
      refine ⟨other, otherFound, ?_, ?_⟩
      · have isRelation := mergedFits.relation?_eq namesDistinct found
        have isOtherRelation := moreMergedFits.relation?_eq namesDistinct otherFound
        exact Option.some.inj (isOtherRelation.symm.trans isRelation)
      · rw [ownRule, otherRule]
        exact Recursion.union?_mono (within.ruleAt _) (.some ruleWithin)
    · rw [get?_merge_of_not_mem known] at found
      obtain ⟨kept, keptFound, keptWithin⟩ := within.get? found
      obtain ⟨other, otherFound, onward⟩ := (within_merge_left
        (distinct_recursiveLevel schema entity moreRule)).get? keptFound
      exact ⟨other, otherFound, keptWithin.trans onward⟩
  · intro name
    rw [below_merge_recursiveLevel, below_merge_recursiveLevel]
    exact within.below name

end

end InclusionTree

/-! ## Lists of requests -/

/-- A request asks for no more than another: for the same path, or by a smaller rule. -/
inductive Request.Within : Request → Request → Prop
  | path (segments : List Path.Segment) : Within (.path segments) (.path segments)
  | recursive {rule more : Recursion} (within : rule.Within more) :
      Within (.recursive rule) (.recursive more)

theorem Request.Within.leads {request other : Request} (within : request.Within other)
    {names : List String} (leads : request.Leads names) : other.Leads names := by
  cases within with
  | path segments => exact leads
  | recursive within =>
      obtain ⟨name, isSingle, admitted⟩ := leads
      exact ⟨name, isSingle, within.follows name admitted⟩

namespace InclusionTree

/-- **More requests give a tree that asks for more**, whatever their order: it is enough that
each request asks for no more than one of the others. -/
theorem build_within {schema : Schema} (namesDistinct : schema.NamesDistinct) (entity : String)
    {loads others : List Load}
    (covered : ∀ request ∈ loads.flatMap Load.requests,
      ∃ other ∈ others.flatMap Load.requests, request.Within other) :
    Within (build schema entity loads) (build schema entity others) := by
  have shaped := shaped_build namesDistinct entity loads
  have othersShaped := shaped_build namesDistinct entity others
  intro name rest node found
  obtain ⟨declared, request, member, leads⟩ := (branch_build_iff_leads namesDistinct entity loads
    name rest).1 (branch_iff_exists_nodeAt?.2 ⟨node, found⟩)
  obtain ⟨moreRequest, moreMember, requestWithin⟩ := covered request member
  obtain ⟨other, otherFound⟩ := branch_iff_exists_nodeAt?.1
    ((branch_build_iff_leads namesDistinct entity others name rest).2
      ⟨declared, moreRequest, moreMember, requestWithin.leads leads⟩)
  have isRelation := shaped.fits.relationAt?_eq namesDistinct found
  have isOtherRelation := othersShaped.fits.relationAt?_eq namesDistinct otherFound
  refine ⟨other, otherFound, Option.some.inj (isOtherRelation.symm.trans isRelation), ?_⟩
  cases rest with
  | nil =>
      rw [recursion_eq_of_get?_build namesDistinct found,
        recursion_eq_of_get?_build namesDistinct otherFound]
      apply Recursion.unionAll_within?
      intro rule isRule
      obtain ⟨member, admitted⟩ := Request.mem_rulesAt.1 isRule
      obtain ⟨other, otherMember, within⟩ := covered _ member
      cases within with
      | recursive within =>
          exact ⟨_, Request.mem_rulesAt.2 ⟨otherMember, within.follows name admitted⟩, within⟩
  | cons next rest =>
      rw [shaped.unruled_of_nodeAt? found]
      exact .none _

end InclusionTree

end EagerLoad
