import EagerLoad.Proofs.Inclusion.Requests

/-!
Contract: what an inclusion tree holds at each position.

Owns: positions in a schema and in a tree, both by the names on the way; trees that fit
the relations of a type; what the tree of a list of requests holds, position by position.

Does not own: how such a tree is built up (`Branches.lean`, `Requests.lean`).

A position is a name and the names after it, so that there is no empty one. The
declaration at a position is found in the schema alone. That a tree fits a type says that
its nodes carry these declarations and nothing else.
-/

set_option autoImplicit false

namespace EagerLoad

namespace Schema

/-- The declaration that names lead to: the first is looked up on a type, each later one on
the target of the one before. -/
def relationAt? (schema : Schema) (entity name : String) : List String → Option Relation
  | [] => schema.relation? entity name
  | next :: rest =>
      (schema.relation? entity name).bind fun relation =>
        relationAt? schema relation.target next rest

variable {schema : Schema}

theorem relationAt?_cons {entity name : String} {relation : Relation}
    (found : schema.relation? entity name = some relation) (next : String) (rest : List String) :
    schema.relationAt? entity name (next :: rest)
      = schema.relationAt? relation.target next rest := by
  rw [relationAt?, found, Option.bind_some]

/-- Names that lead to a declaration are those of a path of declared relations. -/
theorem exists_isPath_of_relationAt? (namesDistinct : schema.NamesDistinct)
    {entity name : String} {rest : List String} {relation : Relation}
    (found : schema.relationAt? entity name rest = some relation) :
    ∃ relations, schema.IsPath entity relations ∧ relations.map Relation.name = name :: rest := by
  induction rest generalizing entity name with
  | nil =>
      obtain ⟨declared, rfl⟩ := namesDistinct.relation?_eq_some_iff.1 found
      exact ⟨[relation], ⟨declared, trivial⟩, rfl⟩
  | cons next rest inductionHypothesis =>
      obtain ⟨first, isFirst, onward⟩ := Option.bind_eq_some_iff.1 found
      obtain ⟨declared, rfl⟩ := namesDistinct.relation?_eq_some_iff.1 isFirst
      obtain ⟨relations, isPath, sameNames⟩ := inductionHypothesis onward
      exact ⟨first :: relations, ⟨declared, isPath⟩, by rw [List.map_cons, sameNames]⟩

end Schema

namespace InclusionTree

/-! ## Positions in a tree -/

/-- The node that names lead to. -/
def nodeAt? (tree : InclusionTree) (name : String) : List String → Option IncludeNode
  | [] => get? tree name
  | next :: rest => (get? tree name).bind fun node => nodeAt? node.children next rest

theorem nodeAt?_cons {tree : InclusionTree} {name : String} {node : IncludeNode}
    (found : get? tree name = some node) (next : String) (rest : List String) :
    nodeAt? tree name (next :: rest) = nodeAt? node.children next rest := by
  rw [nodeAt?, found, Option.bind_some]

theorem nodeAt?_append (tree : InclusionTree) (name : String) (rest : List String) (next : String)
    (more : List String) :
    nodeAt? tree name (rest ++ next :: more)
      = (nodeAt? tree name rest).bind fun node => nodeAt? node.children next more := by
  induction rest generalizing tree name with
  | nil => rfl
  | cons following rest inductionHypothesis =>
      simp only [List.cons_append, nodeAt?, Option.bind_assoc, inductionHypothesis]

theorem nodeAt?_nil_tree (name : String) (rest : List String) : nodeAt? [] name rest = none := by
  cases rest <;> rfl

theorem nodeAt?_below (tree : InclusionTree) (name next : String) (rest : List String) :
    nodeAt? (below tree name) next rest = nodeAt? tree name (next :: rest) := by
  unfold below
  cases found : get? tree name with
  | none =>
      rw [nodeAt?, found]
      exact nodeAt?_nil_tree next rest
  | some node => rw [nodeAt?_cons found, Option.map_some, Option.getD_some]

theorem branch_iff_exists_nodeAt? {tree : InclusionTree} {name : String} {rest : List String} :
    Branch tree (name :: rest) ↔ ∃ node, nodeAt? tree name rest = some node := by
  induction rest generalizing tree name with
  | nil => exact exists_congr fun node => and_iff_left trivial
  | cons next rest inductionHypothesis =>
      unfold nodeAt?
      simp only [Option.bind_eq_some_iff]
      rw [exists_comm]
      unfold Branch
      simp only [inductionHypothesis, exists_and_left]

/-- Siblings below a node that is reached have different names as well. -/
theorem Distinct.of_nodeAt? {tree : InclusionTree} (distinct : Distinct tree) {name : String}
    {rest : List String} {node : IncludeNode} (found : nodeAt? tree name rest = some node) :
    Distinct node.children := by
  induction rest generalizing tree name with
  | nil => exact distinct.children (List.mem_of_find?_eq_some found)
  | cons next rest inductionHypothesis =>
      obtain ⟨first, isFirst, onward⟩ := Option.bind_eq_some_iff.1 found
      exact inductionHypothesis (distinct.children (List.mem_of_find?_eq_some isFirst)) onward

/-! ## Trees that fit the relations of a type -/

/-- Siblings have different names and carry relations declared on a type, and so on below
each of them on its target. -/
inductive Fits (schema : Schema) : String → InclusionTree → Prop
  | intro {entity : String} {tree : InclusionTree}
      (names : (tree.map IncludeNode.name).Nodup)
      (declared : ∀ node ∈ tree, node.relation ∈ schema.relationsFrom entity)
      (below : ∀ node ∈ tree, Fits schema node.relation.target node.children) :
      Fits schema entity tree

variable {schema : Schema} {entity : String} {tree : InclusionTree}

namespace Fits

theorem names (fits : Fits schema entity tree) : (tree.map IncludeNode.name).Nodup := by
  cases fits with
  | intro names declared below => exact names

theorem declared (fits : Fits schema entity tree) {node : IncludeNode} (member : node ∈ tree) :
    node.relation ∈ schema.relationsFrom entity := by
  cases fits with
  | intro names declared below => exact declared node member

theorem children (fits : Fits schema entity tree) {node : IncludeNode} (member : node ∈ tree) :
    Fits schema node.relation.target node.children := by
  cases fits with
  | intro names declared below => exact below node member

theorem distinct (fits : Fits schema entity tree) : Distinct tree := by
  induction fits with
  | intro names declared below inductionHypothesis => exact .intro names inductionHypothesis

theorem relation?_eq (fits : Fits schema entity tree) (namesDistinct : schema.NamesDistinct)
    {name : String} {node : IncludeNode} (found : get? tree name = some node) :
    schema.relation? entity name = some node.relation := by
  obtain ⟨member, sameName⟩ := (get?_eq_some_iff fits.distinct).1 found
  exact namesDistinct.relation?_eq_some_iff.2 ⟨fits.declared member, sameName⟩

/-- The node at a position carries the declaration at that position. -/
theorem relationAt?_eq (fits : Fits schema entity tree) (namesDistinct : schema.NamesDistinct)
    {name : String} {rest : List String} {node : IncludeNode}
    (found : nodeAt? tree name rest = some node) :
    schema.relationAt? entity name rest = some node.relation := by
  induction rest generalizing entity tree name with
  | nil => exact fits.relation?_eq namesDistinct found
  | cons next rest inductionHypothesis =>
      obtain ⟨first, isFirst, onward⟩ := Option.bind_eq_some_iff.1 found
      rw [Schema.relationAt?_cons (fits.relation?_eq namesDistinct isFirst)]
      exact inductionHypothesis (fits.children (List.mem_of_find?_eq_some isFirst)) onward

end Fits

theorem fits_nil (schema : Schema) (entity : String) : Fits schema entity [] :=
  .intro List.nodup_nil (fun _ member => nomatch member) (fun _ member => nomatch member)

/-- A union of trees that fit a type fits the type. -/
theorem fits_merge (namesDistinct : schema.NamesDistinct) {other : InclusionTree}
    (fits : Fits schema entity tree) (otherFits : Fits schema entity other) :
    Fits schema entity (merge tree other) := by
  induction other using induction generalizing tree entity with
  | step other inductionHypothesis =>
      refine merge_induction (motive := Fits schema entity) ?_ fits
      intro node nodeMember tree fits
      have nodeDeclared := otherFits.declared nodeMember
      have nodeFits := otherFits.children nodeMember
      refine .intro ?_ ?_ ?_
      · rw [insert_eq]
        exact nodup_names_update (fun _ => rfl) rfl fits.names
      · intro reached reachedMember
        rcases mem_insert reachedMember with kept | rfl | ⟨old, oldMember, _, rfl⟩
        · exact fits.declared kept
        · exact nodeDeclared
        · have declared := fits.declared oldMember
          exact declared
      · intro reached reachedMember
        rcases mem_insert reachedMember with kept | rfl | ⟨old, oldMember, sameName, rfl⟩
        · exact fits.children kept
        · exact nodeFits
        · have sameRelation : old.relation = node.relation :=
            namesDistinct.eq_of_name_eq (fits.declared oldMember) nodeDeclared sameName
          rw [← sameRelation] at nodeFits
          exact inductionHypothesis node nodeMember (fits.children oldMember) nodeFits

theorem fits_recursiveLevel (schema : Schema) (entity : String) (rule : Recursion) :
    Fits schema entity (recursiveLevel schema entity rule) := by
  refine .intro (distinct_recursiveLevel schema entity rule).names ?_ ?_
  · exact fun node member => (isFollowed_of_mem_recursiveLevel node member).declared
  · intro node member
    rw [(isFollowed_of_mem_recursiveLevel node member).childless]
    exact fits_nil schema _

namespace Shaped

variable {ruled : Bool}

theorem fits (shaped : Shaped schema ruled entity tree) : Fits schema entity tree := by
  induction shaped with
  | intro names declared rules below inductionHypothesis =>
      exact .intro names declared inductionHypothesis

/-- Below the top there are no rules. -/
theorem unruled_of_nodeAt? (shaped : Shaped schema ruled entity tree) {name next : String}
    {rest : List String} {node : IncludeNode}
    (found : nodeAt? tree name (next :: rest) = some node) : node.recursion = none := by
  induction rest generalizing entity tree name next ruled with
  | nil =>
      obtain ⟨first, isFirst, onward⟩ := Option.bind_eq_some_iff.1 found
      have children := shaped.children (List.mem_of_find?_eq_some isFirst)
      exact children.unruled (List.mem_of_find?_eq_some onward)
  | cons following rest inductionHypothesis =>
      obtain ⟨first, isFirst, onward⟩ := Option.bind_eq_some_iff.1 found
      exact inductionHypothesis (shaped.children (List.mem_of_find?_eq_some isFirst)) onward

end Shaped

/-! ## The tree of a list of requests -/

/-- What the tree of some requests for records of a type holds. Its branches lead to
declarations, and are those that a requested path covers, with one more for each relation of
the type that a recursive request follows. The nodes carry these declarations. Those at the
top carry the union of the recursive requests that follow them, and the others no rule. -/
structure Represents (schema : Schema) (entity : String) (loads : List Load)
    (tree : InclusionTree) : Prop where
  distinct : Distinct tree
  branch_iff : ∀ name rest, Branch tree (name :: rest)
    ↔ (∃ relation, schema.relationAt? entity name rest = some relation)
      ∧ ((∃ segments, .path segments ∈ loads.flatMap Load.requests
            ∧ Path.Segment.Cover segments (name :: rest))
        ∨ (rest = [] ∧ ∃ rule, .recursive rule ∈ loads.flatMap Load.requests
            ∧ rule.scope.admits name = true))
  declared : ∀ name rest node, nodeAt? tree name rest = some node →
    schema.relationAt? entity name rest = some node.relation
  ruled : ∀ name node, get? tree name = some node →
    (Request.rulesAt (loads.flatMap Load.requests) name = [] ∧ node.recursion = none)
      ∨ ∃ rule, node.recursion = some rule
          ∧ rule.Unites (Request.rulesAt (loads.flatMap Load.requests) name)
  unruled : ∀ name next rest node, nodeAt? tree name (next :: rest) = some node →
    node.recursion = none

/-- A request leads along names if its path covers them, or if it is recursive and there is
one name, which it follows. -/
theorem exists_leads_iff (loads : List Load) (name : String) (rest : List String) :
    (∃ request ∈ loads.flatMap Load.requests, request.Leads (name :: rest))
      ↔ (∃ segments, .path segments ∈ loads.flatMap Load.requests
            ∧ Path.Segment.Cover segments (name :: rest))
        ∨ (rest = [] ∧ ∃ rule, .recursive rule ∈ loads.flatMap Load.requests
            ∧ rule.scope.admits name = true) := by
  constructor
  · intro holds
    rcases holds with ⟨request, member, leads⟩
    cases request with
    | path segments => exact .inl ⟨segments, member, leads⟩
    | recursive rule =>
        obtain ⟨other, sameNames, admitted⟩ := leads
        obtain ⟨rfl, isNil⟩ := List.cons.inj sameNames
        exact .inr ⟨isNil, rule, member, admitted⟩
  · intro either
    rcases either with ⟨segments, member, covered⟩ | ⟨rfl, rule, member, admitted⟩
    · exact ⟨.path segments, member, covered⟩
    · exact ⟨.recursive rule, member, name, rfl, admitted⟩

/-- A node at the top carries the union of the recursive requests that follow its relation. -/
theorem recursion_eq_of_get?_build (namesDistinct : schema.NamesDistinct) {loads : List Load}
    {name : String} {node : IncludeNode}
    (found : get? (build schema entity loads) name = some node) :
    node.recursion = Recursion.unionAll (Request.rulesAt (loads.flatMap Load.requests) name) := by
  have shaped := shaped_build namesDistinct entity loads
  obtain ⟨member, rfl⟩ := (get?_eq_some_iff shaped.distinct).1 found
  rw [← ruleAt_of_get? found]
  exact ruleAt_build namesDistinct loads (shaped.declared member)

/-- A branch of a tree of requests leads to a declaration, and some request leads along it. -/
theorem branch_build_iff_leads (namesDistinct : schema.NamesDistinct) (entity : String)
    (loads : List Load) (name : String) (rest : List String) :
    Branch (build schema entity loads) (name :: rest)
      ↔ (∃ relation, schema.relationAt? entity name rest = some relation)
        ∧ ∃ request ∈ loads.flatMap Load.requests, request.Leads (name :: rest) := by
  have fits := (shaped_build namesDistinct entity loads).fits
  have along : ∀ relation, schema.relationAt? entity name rest = some relation →
      (Branch (build schema entity loads) (name :: rest)
        ↔ ∃ request ∈ loads.flatMap Load.requests, request.Leads (name :: rest)) := by
    intro relation declared
    obtain ⟨relations, isPath, sameNames⟩ :=
      Schema.exists_isPath_of_relationAt? namesDistinct declared
    have nonempty : relations ≠ [] := by
      rintro rfl
      cases sameNames
    rw [← sameNames]
    exact branch_build namesDistinct loads nonempty isPath
  constructor
  · intro branch
    obtain ⟨node, found⟩ := branch_iff_exists_nodeAt?.1 branch
    have declared := fits.relationAt?_eq namesDistinct found
    exact ⟨⟨node.relation, declared⟩, (along node.relation declared).1 branch⟩
  · intro holds
    rcases holds with ⟨⟨relation, declared⟩, leads⟩
    exact (along relation declared).2 leads

/-- **The tree of requests represents them**, whatever they are and in whatever order. -/
theorem build_represents {schema : Schema} (namesDistinct : schema.NamesDistinct)
    (entity : String) (loads : List Load) :
    Represents schema entity loads (build schema entity loads) := by
  have shaped := shaped_build namesDistinct entity loads
  refine ⟨shaped.distinct, ?_, ?_, ?_, ?_⟩
  · intro name rest
    rw [branch_build_iff_leads namesDistinct, exists_leads_iff]
  · intro name rest node found
    exact shaped.fits.relationAt?_eq namesDistinct found
  · intro name node found
    rw [recursion_eq_of_get?_build namesDistinct found]
    exact Recursion.unionAll_cases _
  · intro name next rest node found
    exact shaped.unruled_of_nodeAt? found

end InclusionTree

namespace Library

/-- An author has books. -/
def books : Relation where
  name := "books"
  source := "author"
  target := "book"
  kind := .oneToMany
  foreignKey := "author"

/-- A book has an author. -/
def author : Relation where
  name := "author"
  source := "book"
  target := "author"
  kind := .belongsTo
  foreignKey := "author"

def schema : Schema := { relations := [books, author] }

/-- Books by any path, books of authors of books to two depths, and a name that nobody has. -/
def loads : List Load :=
  [.paths [⟨[.relation "books", .wildcard]⟩, ⟨[.relation "books", .relation "editor"]⟩],
    .recursive ["books", "author"] (.limit 2), .allRecursive .unbounded, .all]

end Library

/-- The tree of requests of several kinds for authors represents them. -/
theorem InclusionTree.build_represents_library :
    Library.schema.NamesDistinct
      ∧ InclusionTree.Represents Library.schema "author" Library.loads
          (InclusionTree.build Library.schema "author" Library.loads) :=
  ⟨by decide, InclusionTree.build_represents (by decide) "author" Library.loads⟩

end EagerLoad
