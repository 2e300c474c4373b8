import EagerLoad.Proofs.Inclusion.Positions

/-!
Contract: a recursive request written out as explicit paths.

Owns: how many names a path covers, the explicit paths that a recursive request of some depth
stands for, the trees that they are turned into, and their top beside the first level of the
request.

Does not own: what is loaded along these trees (`Query/Unrolling.lean`).

A request that may expand some levels leads one level further than that, since the records of
the first level are attached before any expansion. Its paths are that long.
-/

set_option autoImplicit false

namespace EagerLoad

/-! ## What paths cover -/

namespace Path.Segment

theorem Cover.length_le {segments : List Segment} {names : List String}
    (cover : Cover segments names) : names.length ≤ segments.length := by
  induction names generalizing segments with
  | nil => exact Nat.zero_le _
  | cons name names inductionHypothesis =>
      cases segments with
      | nil => exact cover.elim
      | cons segment segments => exact Nat.succ_le_succ (inductionHypothesis cover.2)

theorem Cover.exists_standsFor {segments : List Segment} {names : List String}
    (cover : Cover segments names) {name : String} (member : name ∈ names) :
    ∃ segment ∈ segments, segment.StandsFor name := by
  induction names generalizing segments with
  | nil => cases member
  | cons first names inductionHypothesis =>
      cases segments with
      | nil => exact cover.elim
      | cons segment segments =>
          rcases List.mem_cons.1 member with rfl | later
          · exact ⟨segment, List.mem_cons_self, cover.1⟩
          · obtain ⟨found, foundMember, stands⟩ := inductionHypothesis cover.2 later
            exact ⟨found, List.mem_cons_of_mem _ foundMember, stands⟩

/-- Names are covered by a path that begins with them. -/
theorem cover_map_append (names : List String) (more : List Segment) :
    Cover (names.map Segment.relation ++ more) names := by
  induction names with
  | nil => exact cover_nil _
  | cons name names inductionHypothesis => exact ⟨rfl, inductionHypothesis⟩

theorem cover_wildcards {length : Nat} {names : List String} (short : names.length ≤ length) :
    Cover (List.replicate length .wildcard) names := by
  induction names generalizing length with
  | nil => exact cover_nil _
  | cons name names inductionHypothesis =>
      cases length with
      | zero => exact absurd short (Nat.not_succ_le_zero _)
      | succ length => exact ⟨trivial, inductionHypothesis (Nat.le_of_succ_le_succ short)⟩

/-- Paths that are all sequences of some length over some names cover what consists of these
names and is no longer. -/
theorem exists_cover_sequences_iff {names : List String} {paths : List RelationPath} {length : Nat}
    (all : ∀ path, path ∈ paths ↔ path.segments.length = length
      ∧ ∀ segment ∈ path.segments, ∃ name ∈ names, segment = .relation name)
    (name : String) (rest : List String) :
    (∃ path ∈ paths, Cover path.segments (name :: rest))
      ↔ (∀ one ∈ name :: rest, one ∈ names) ∧ rest.length < length := by
  constructor
  · intro holds
    rcases holds with ⟨path, member, cover⟩
    obtain ⟨isLength, segments⟩ := (all path).1 member
    have short := cover.length_le
    rw [isLength] at short
    refine ⟨?_, short⟩
    intro one oneMember
    obtain ⟨segment, segmentMember, stands⟩ := cover.exists_standsFor oneMember
    obtain ⟨other, otherMember, rfl⟩ := segments segment segmentMember
    have same : other = one := stands
    exact same ▸ otherMember
  · intro holds
    rcases holds with ⟨isNamed, short⟩
    -- the names, and the first of them again until the path is long enough
    let padded := (name :: rest).map Segment.relation
      ++ List.replicate (length - (rest.length + 1)) (Segment.relation name)
    have isLength : padded.length = length := by
      simp only [padded, List.length_append, List.length_map, List.length_cons,
        List.length_replicate]
      omega
    refine ⟨⟨padded⟩, (all _).2 ⟨isLength, ?_⟩, cover_map_append _ _⟩
    intro segment segmentMember
    rcases List.mem_append.1 segmentMember with own | isPadding
    · obtain ⟨one, oneMember, rfl⟩ := List.mem_map.1 own
      exact ⟨one, isNamed one oneMember, rfl⟩
    · exact ⟨name, isNamed name List.mem_cons_self, List.eq_of_mem_replicate isPadding⟩

theorem exists_cover_wildcards_iff {length : Nat} {names : List String} :
    (∃ path ∈ [RelationPath.mk (List.replicate length .wildcard)], Cover path.segments names)
      ↔ names.length ≤ length := by
  rw [List.exists_mem_cons_iff]
  constructor
  · intro either
    rcases either with cover | ⟨_, impossible, _⟩
    · have short := cover.length_le
      rwa [List.length_replicate] at short
    · cases impossible
  · exact fun short => .inl (cover_wildcards short)

end Path.Segment

/-! ## Recursive requests and their paths -/

/-- A recursive request and the explicit paths that it stands for. Those of named relations are
all paths over the names that are one longer than the levels that the request may expand, and
that of all relations is the path of as many wildcards. -/
inductive Load.Unrolls (levels : Nat) : Scope → Load → Load → Prop
  | recursive (names : List String) {paths : List Path.RelationPath}
      (all : ∀ path, path ∈ paths ↔ path.segments.length = levels + 1
        ∧ ∀ segment ∈ path.segments, ∃ name ∈ names, segment = .relation name) :
      Unrolls levels (.only names) (.recursive names (.limit levels)) (.paths paths)
  | allRecursive :
      Unrolls levels .all (.allRecursive (.limit levels))
        (.paths [⟨List.replicate (levels + 1) .wildcard⟩])

/-- The choices of so many segments among some are the sequences of that length over them. -/
theorem Path.mem_choices_replicate {alternatives : List Path.Segment} {length : Nat}
    {choice : List Path.Segment} :
    choice ∈ Path.choices (List.replicate length alternatives)
      ↔ choice.length = length ∧ ∀ segment ∈ choice, segment ∈ alternatives := by
  rw [Path.mem_choices]
  induction length generalizing choice with
  | zero =>
      constructor
      · intro isChoice
        cases isChoice
        exact ⟨rfl, fun _ impossible => nomatch impossible⟩
      · intro holds
        rw [List.eq_nil_of_length_eq_zero holds.1]
        exact .nil
  | succ length inductionHypothesis =>
      rw [List.replicate_succ]
      constructor
      · intro isChoice
        cases isChoice with
        | cons member tail =>
            obtain ⟨isLength, others⟩ := inductionHypothesis.1 tail
            exact ⟨congrArg Nat.succ isLength, List.forall_mem_cons.2 ⟨member, others⟩⟩
      · intro holds
        obtain ⟨isLength, members⟩ := holds
        cases choice with
        | nil => cases isLength
        | cons segment rest =>
            obtain ⟨member, others⟩ := List.forall_mem_cons.1 members
            exact .cons member (inductionHypothesis.2 ⟨Nat.succ.inj isLength, others⟩)

/-- A recursive request of named relations stands for the choices of so many names. -/
theorem Load.unrolls_choices (names : List String) (levels : Nat) :
    Unrolls levels (.only names) (.recursive names (.limit levels))
      (.paths ((Path.choices (List.replicate (levels + 1) (names.map .relation))).map .mk)) := by
  apply Unrolls.recursive
  intro path
  have isMember : path ∈ (Path.choices (List.replicate (levels + 1) (names.map .relation))).map
        Path.RelationPath.mk
      ↔ path.segments ∈ Path.choices (List.replicate (levels + 1) (names.map .relation)) := by
    constructor
    · intro member
      obtain ⟨choice, choiceMember, rfl⟩ := List.mem_map.1 member
      exact choiceMember
    · exact fun member => List.mem_map.2 ⟨path.segments, member, rfl⟩
  rw [isMember, Path.mem_choices_replicate]
  simp only [List.mem_map, eq_comm]

namespace InclusionTree

/-- A tree without rules, whose branches are all that a scope admits in a number of levels. -/
structure Unrolled (schema : Schema) (scope : Scope) (levels : Nat) (entity : String)
    (tree : InclusionTree) : Prop where
  fits : Fits schema entity tree
  unruled : ∀ name rest node, nodeAt? tree name rest = some node → node.recursion = none
  branch_iff : ∀ name rest, Branch tree (name :: rest)
    ↔ (∃ relation, schema.relationAt? entity name rest = some relation)
      ∧ (∀ one ∈ name :: rest, scope.admits one = true) ∧ rest.length < levels

variable {schema : Schema} {scope : Scope} {levels : Nat} {entity : String}
  {tree : InclusionTree} {node : IncludeNode}

theorem Unrolled.of_get? (unrolled : Unrolled schema scope levels entity tree) {name : String}
    (found : get? tree name = some node) : scope.admits name = true ∧ 0 < levels := by
  obtain ⟨_, admitted, positive⟩ := (unrolled.branch_iff name []).1 ⟨node, found, trivial⟩
  exact ⟨admitted name List.mem_cons_self, positive⟩

theorem Unrolled.get?_eq_none (unrolled : Unrolled schema scope 0 entity tree) (name : String) :
    get? tree name = none := by
  cases found : get? tree name with
  | none => rfl
  | some node => exact absurd (unrolled.of_get? found).2 (Nat.lt_irrefl 0)

/-- Below each node is one level less. -/
theorem Unrolled.children (namesDistinct : schema.NamesDistinct)
    (unrolled : Unrolled schema scope (levels + 1) entity tree) {name : String}
    (found : get? tree name = some node) :
    Unrolled schema scope levels node.relation.target node.children where
  fits := unrolled.fits.children (List.mem_of_find?_eq_some found)
  unruled next rest below belowFound := by
    rw [← nodeAt?_cons found] at belowFound
    exact unrolled.unruled name (next :: rest) below belowFound
  branch_iff next rest := by
    have isRelation := unrolled.fits.relation?_eq namesDistinct found
    have follows := (unrolled.of_get? found).1
    rw [← branch_cons_iff found, unrolled.branch_iff, Schema.relationAt?_cons isRelation,
      List.forall_mem_cons, List.length_cons, Nat.succ_lt_succ_iff]
    simp only [follows, true_and]

/-- The tree of requests for paths that lead as far as a scope does in a number of levels. -/
theorem unrolled_build (namesDistinct : schema.NamesDistinct) (entity : String)
    (paths : List Path.RelationPath)
    (leads : ∀ name rest,
      (∃ path ∈ paths, Path.Segment.Cover path.segments (name :: rest))
        ↔ (∀ one ∈ name :: rest, scope.admits one = true) ∧ rest.length < levels) :
    Unrolled schema scope levels entity (build schema entity [.paths paths]) := by
  have shaped := shaped_build namesDistinct entity [.paths paths]
  have onlyPaths : ∀ rule, Request.recursive rule ∉ [Load.paths paths].flatMap Load.requests := by
    intro rule member
    rw [List.flatMap_singleton] at member
    obtain ⟨path, _, impossible⟩ := List.mem_map.1 member
    cases impossible
  refine ⟨shaped.fits, ?_, ?_⟩
  · intro name rest node found
    cases rest with
    | nil =>
        have noRules : Request.rulesAt ([Load.paths paths].flatMap Load.requests) name = [] := by
          apply List.eq_nil_iff_forall_not_mem.2
          intro rule isRule
          exact onlyPaths rule (Request.mem_rulesAt.1 isRule).1
        rw [recursion_eq_of_get?_build namesDistinct found, noRules]
        rfl
    | cons next rest => exact shaped.unruled_of_nodeAt? found
  · intro name rest
    rw [branch_build_iff_leads namesDistinct, ← leads, List.flatMap_singleton]
    apply and_congr_right
    intro _
    constructor
    · intro holds
      rcases holds with ⟨request, member, requestLeads⟩
      obtain ⟨path, pathMember, rfl⟩ := List.mem_map.1 member
      exact ⟨path, pathMember, requestLeads⟩
    · intro holds
      rcases holds with ⟨path, pathMember, cover⟩
      exact ⟨_, List.mem_map_of_mem pathMember, cover⟩

/-- **The tree of the paths that a recursive request stands for** has all branches that its
scope admits, down to one level more than it may expand. -/
theorem unrolled_of_unrolls (namesDistinct : schema.NamesDistinct) (entity : String)
    {lazy explicit : Load} (unrolls : Load.Unrolls levels scope lazy explicit) :
    Unrolled schema scope (levels + 1) entity (build schema entity [explicit]) := by
  cases unrolls with
  | @recursive names paths all =>
      apply unrolled_build namesDistinct
      intro name rest
      rw [Path.Segment.exists_cover_sequences_iff all]
      simp only [Scope.admits, List.contains_iff_mem]
  | allRecursive =>
      apply unrolled_build namesDistinct
      intro name rest
      rw [Path.Segment.exists_cover_wildcards_iff]
      exact ⟨fun short => ⟨fun _ _ => rfl, short⟩, fun holds => holds.2⟩

/-! ## The first level of a recursive request -/

/-- The tree of one recursive request by itself. -/
def firstLevel (schema : Schema) (entity : String) (rule : Recursion) : InclusionTree :=
  merge [] (recursiveLevel schema entity rule)

theorem fits_firstLevel (namesDistinct : schema.NamesDistinct) (entity : String)
    (rule : Recursion) : Fits schema entity (firstLevel schema entity rule) :=
  fits_merge namesDistinct (fits_nil schema entity) (fits_recursiveLevel schema entity rule)

variable {rule : Recursion}

/-- It has a node for each relation that the request follows. -/
theorem get?_firstLevel (namesDistinct : schema.NamesDistinct) {relation : Relation}
    (declared : relation ∈ schema.relationsFrom entity)
    (admitted : rule.scope.admits relation.name = true) :
    get? (firstLevel schema entity rule) relation.name = some (.mk relation [] (some rule)) := by
  obtain ⟨node, found, children, recursion⟩ :=
    exists_get?_merge_recursiveLevel [] declared admitted
  have isDeclared := (fits_firstLevel namesDistinct entity rule).relation?_eq namesDistinct found
  rw [namesDistinct.relation?_eq_some_iff.2 ⟨declared, rfl⟩] at isDeclared
  obtain ⟨other, otherChildren, otherRecursion⟩ := node
  have sameRelation : relation = other := Option.some.inj isDeclared
  have noChildren : otherChildren = [] := children
  have isRule : otherRecursion = some rule := recursion
  rw [firstLevel, found, sameRelation, noChildren, isRule]

theorem admits_of_get?_firstLevel {name : String}
    (found : get? (firstLevel schema entity rule) name = some node) :
    rule.scope.admits name = true := by
  cases admitted : rule.scope.admits name with
  | true => rfl
  | false =>
      rw [firstLevel, get?_merge_recursiveLevel_of_not_admitted admitted] at found
      cases found

/-- The first level of a recursive request and a tree that writes the request out have nodes of
the same relations. -/
theorem Unrolled.cases_firstLevel (namesDistinct : schema.NamesDistinct) (rule : Recursion)
    (unrolled : Unrolled schema rule.scope (levels + 1) entity tree) (name : String) :
    (get? (firstLevel schema entity rule) name = none ∧ get? tree name = none)
      ∨ ∃ relation ∈ schema.relationsFrom entity, rule.scope.admits relation.name = true
          ∧ ∃ node, get? tree name = some node ∧ node.relation = relation
            ∧ get? (firstLevel schema entity rule) name
              = some (.mk relation [] (some rule)) := by
  cases found : get? tree name with
  | some node =>
      have follows := (unrolled.of_get? found).1
      have isRelation := unrolled.fits.relation?_eq namesDistinct found
      obtain ⟨declared, rfl⟩ := namesDistinct.relation?_eq_some_iff.1 isRelation
      exact .inr ⟨node.relation, declared, follows, node, rfl, rfl,
        get?_firstLevel namesDistinct declared follows⟩
  | none =>
      refine .inl ⟨?_, rfl⟩
      cases inLevel : get? (firstLevel schema entity rule) name with
      | none => rfl
      | some node =>
          have isRelation :=
            (fits_firstLevel namesDistinct entity rule).relation?_eq namesDistinct inLevel
          have follows := admits_of_get?_firstLevel inLevel
          obtain ⟨other, isFound, _⟩ := (unrolled.branch_iff name []).2
            ⟨⟨node.relation, isRelation⟩, by simpa using follows, Nat.succ_pos levels⟩
          rw [found] at isFound
          cases isFound

end InclusionTree

end EagerLoad
