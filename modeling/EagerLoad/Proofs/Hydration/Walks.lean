import EagerLoad.Proofs.Hydration.Entry
import EagerLoad.Proofs.Inclusion.Requests

/-!
Contract: which walks through the records a loaded record contains.

Owns: walks along declared relations; the walks along which recursion stays open; the
walks that a record loaded along a tree contains, and the entries at their ends, by the
branches and the rules of the tree.

Does not own: the branches and rules of the tree of a list of requests
(`Inclusion/Requests.lean`).

A rule at a top node rides along a walk: every step takes it one level further down, as
long as its scope has the next relation, it has levels left, and the record reached is
neither on the branch nor too deep. The last record of a walk is attached before any of
this is asked of it, so that only the records before it have to be open.
-/

set_option autoImplicit false

namespace EagerLoad.Hydration

/-- One step of a walk: a relation and a record that it yields. -/
structure Hop where
  relation : Relation
  record : Record

namespace Hop

/-- The record reached, as an entry of a branch. -/
def reached (hop : Hop) : Ancestor := ⟨hop.relation.target, hop.record.key⟩

theorem reached_eq (hop : Hop) {relation : Relation} (isRelation : relation = hop.relation) :
    (⟨relation.target, hop.record.key⟩ : Ancestor) = hop.reached := by
  rw [isRelation]
  rfl

/-- The step as one of a trail. -/
def mark (hop : Hop) : String × Record := (hop.relation.name, hop.record)

end Hop

/-- A walk from a record of a type to another: each relation is declared on the type where
it starts, and yields the next record. -/
inductive IsWalk (schema : Schema) (view : RecordView) :
    String → Record → List Hop → String → Record → Prop
  | nil {entity : String} {record : Record} : IsWalk schema view entity record [] entity record
  | cons {entity lastEntity : String} {record last : Record} {hop : Hop} {rest : List Hop}
      (declared : hop.relation ∈ schema.relationsFrom entity)
      (yielded : hop.record ∈ hop.relation.yields schema view record)
      (onward : IsWalk schema view hop.relation.target hop.record rest lastEntity last) :
      IsWalk schema view entity record (hop :: rest) lastEntity last

/-- The relations of a walk are a path. -/
theorem IsWalk.isPath {schema : Schema} {view : RecordView} {entity lastEntity : String}
    {record last : Record} {walk : List Hop}
    (isWalk : IsWalk schema view entity record walk lastEntity last) :
    schema.IsPath entity (walk.map Hop.relation) := by
  induction isWalk with
  | nil => trivial
  | cons declared yielded onward inductionHypothesis => exact ⟨declared, inductionHypothesis⟩

/-- Recursion stays open along a walk below a branch: no record before the last one is met
a second time, nor lies as deep as the limit. -/
def Open (limit : Option Nat) (branch : List Ancestor) (walk : List Hop) : Prop :=
  ∀ before hop after, walk = before ++ hop :: after → after ≠ [] →
    hop.reached ∉ before.map Hop.reached ++ branch
      ∧ ∀ most, limit = some most → before.length + branch.length < most

theorem open_single (limit : Option Nat) (branch : List Ancestor) (hop : Hop) :
    Open limit branch [hop] := by
  intro before other after split notLast
  have lengths := congrArg List.length split
  simp only [List.length_append, List.length_cons, List.length_nil] at lengths
  have isNil : after = [] := List.eq_nil_of_length_eq_zero (by omega)
  exact absurd isNil notLast

theorem open_cons_iff {limit : Option Nat} {branch : List Ancestor} {first : Hop}
    {rest : List Hop} (notLast : rest ≠ []) :
    Open limit branch (first :: rest)
      ↔ first.reached ∉ branch ∧ (∀ most, limit = some most → branch.length < most)
        ∧ Open limit (first.reached :: branch) rest := by
  have sameMembers : ∀ (before : List Hop) (other : Ancestor),
      other ∈ before.map Hop.reached ++ first.reached :: branch
        ↔ other ∈ (first :: before).map Hop.reached ++ branch := by
    intro before other
    rw [List.map_cons]
    simp only [List.mem_append, List.mem_cons]
    rw [or_assoc]
    exact or_left_comm
  constructor
  · intro isOpen
    obtain ⟨fresh, shallow⟩ := isOpen [] first rest rfl notLast
    refine ⟨fresh, fun most isLimit => by simpa using shallow most isLimit, ?_⟩
    intro before hop after split later
    obtain ⟨fresh, shallow⟩ := isOpen (first :: before) hop after (by rw [split]; rfl) later
    refine ⟨fun repeated => fresh ((sameMembers before hop.reached).1 repeated), ?_⟩
    intro most isLimit
    have below := shallow most isLimit
    rw [List.length_cons] at below ⊢
    omega
  · intro holds before hop after split later
    rcases holds with ⟨fresh, shallow, onward⟩
    cases before with
    | nil =>
        obtain ⟨rfl, rfl⟩ := List.cons.inj split
        exact ⟨fresh, fun most isLimit => by simpa using shallow most isLimit⟩
    | cons other before =>
        obtain ⟨rfl, isRest⟩ := List.cons.inj split
        obtain ⟨fresh, shallow⟩ := onward before hop after isRest later
        refine ⟨fun repeated => fresh ((sameMembers before hop.reached).2 repeated), ?_⟩
        intro most isLimit
        have below := shallow most isLimit
        rw [List.length_cons] at below ⊢
        omega

theorem stops_eq_false_iff {context : Context} {branch : List Ancestor} {rule : Recursion}
    {reached : Ancestor} :
    context.stops branch rule reached = false
      ↔ rule.remaining.isExhausted = false ∧ reached ∉ branch
        ∧ ∀ most, context.maxDepth = some most → branch.length < most := by
  unfold Context.stops
  rw [Bool.or_eq_false_iff, Bool.or_eq_false_iff, and_assoc]
  cases context.maxDepth with
  | none => simp
  | some limit => simp

/-! ## Rules along a walk -/

/-- The rule at the first name of a walk, with some scope, leads along the whole walk. -/
def Rides (limit : Option Nat) (tree : InclusionTree) (branch : List Ancestor) (scope : Scope) :
    List Hop → Prop
  | [] => False
  | first :: rest => ∃ rule, InclusionTree.ruleAt tree first.relation.name = some rule
      ∧ rule.scope = scope ∧ (∀ hop ∈ rest, scope.admits hop.relation.name = true)
      ∧ rule.remaining.Allows (rest.length + 1) ∧ Open limit branch (first :: rest)

theorem rides_cons_iff {limit : Option Nat} {tree : InclusionTree} {branch : List Ancestor}
    {scope : Scope} {first : Hop} {rest : List Hop} :
    Rides limit tree branch scope (first :: rest)
      ↔ ∃ rule, InclusionTree.ruleAt tree first.relation.name = some rule
          ∧ rule.scope = scope ∧ (∀ hop ∈ rest, scope.admits hop.relation.name = true)
          ∧ rule.remaining.Allows (rest.length + 1) ∧ Open limit branch (first :: rest) :=
  Iff.rfl

variable {context : Context} {branch : List Ancestor} {entity : String} {tree : InclusionTree}
  {node : IncludeNode} {first : Hop}

open InclusionTree (Shaped Branch ruleAt get?)

theorem ruleAt_of_unruled (shaped : Shaped context.schema false entity tree) (name : String) :
    ruleAt tree name = none := by
  unfold ruleAt
  cases found : get? tree name with
  | none => rfl
  | some node => exact shaped.unruled (List.mem_of_find?_eq_some found)

theorem shaped_step {ruled : Bool} (branch : List Ancestor)
    (shaped : Shaped context.schema ruled entity tree) (member : node ∈ tree) (related : Record) :
    Shaped context.schema true node.relation.target (context.step branch node related).tree := by
  have children := shaped.children member
  rcases step_cases context branch node related with
    ⟨_, isStep⟩ | ⟨rule, _, _, isStep⟩ | ⟨rule, _, _, isStep⟩
  · rw [isStep]
    exact children.toRuled
  · rw [isStep]
    exact children.toRuled
  · rw [isStep]
    exact InclusionTree.shaped_merge_recursiveLevel children

/-- The node of the relation that a walk takes first. -/
theorem relation_eq_of_get? (namesDistinct : context.schema.NamesDistinct) {ruled : Bool}
    (shaped : Shaped context.schema ruled entity tree)
    (declared : first.relation ∈ context.schema.relationsFrom entity)
    (found : get? tree first.relation.name = some node) : node.relation = first.relation := by
  obtain ⟨member, sameName⟩ := (InclusionTree.get?_eq_some_iff shaped.distinct).1 found
  exact namesDistinct.eq_of_name_eq (shaped.declared member) declared sameName

/-- **One step of a ride.** What is left of a walk behind its first step is ridden from the
tree that the step goes on along, and only then the whole walk is. -/
theorem rides_step_iff (branch : List Ancestor) (scope : Scope) (rest : List Hop)
    (shaped : Shaped context.schema true entity tree)
    (found : get? tree first.relation.name = some node)
    (isRelation : node.relation = first.relation) {second : Hop}
    (declared : second.relation ∈ context.schema.relationsFrom first.relation.target) :
    Rides context.maxDepth (context.step branch node first.record).tree
        (first.reached :: branch) scope (second :: rest)
      ↔ Rides context.maxDepth tree branch scope (first :: second :: rest) := by
  have member := List.mem_of_find?_eq_some found
  have children := shaped.children member
  have ruled := InclusionTree.ruleAt_of_get? found
  have unruled := ruleAt_of_unruled children second.relation.name
  have isReached := first.reached_eq isRelation
  rw [rides_cons_iff, rides_cons_iff, ruled, open_cons_iff (List.cons_ne_nil second rest)]
  rcases step_cases context branch node first.record with
    ⟨isNone, isStep⟩ | ⟨rule, isRule, stops, isStep⟩ | ⟨rule, isRule, goesOn, isStep⟩
  · rw [isStep, isNone]
    show (∃ rule, ruleAt node.children _ = some rule ∧ _) ↔ _
    rw [unruled]
    simp
  · rw [isStep, isRule]
    show (∃ rule, ruleAt node.children _ = some rule ∧ _) ↔ _
    rw [unruled]
    constructor
    · intro holds
      rcases holds with ⟨other, impossible, _⟩
      cases impossible
    · intro holds
      rcases holds with ⟨other, same, _, _, allows, fresh, shallow, _⟩
      cases same
      have expands : rule.remaining.isExhausted = false := by
        cases exhausted : rule.remaining.isExhausted with
        | false => rfl
        | true =>
            rw [Depth.allows_of_isExhausted exhausted, List.length_cons] at allows
            omega
      rw [isReached, stops_eq_false_iff.2 ⟨expands, fresh, shallow⟩] at stops
      cases stops
  · rw [isReached, stops_eq_false_iff] at goesOn
    obtain ⟨expands, fresh, shallow⟩ := goesOn
    have levelRule := InclusionTree.ruleAt_merge_recursiveLevel node.children rule.next declared
    rw [unruled] at levelRule
    rw [isStep, isRule]
    show (∃ rule, ruleAt (InclusionTree.merge node.children
      (InclusionTree.recursiveLevel context.schema node.relation.target _)) _ = some rule ∧ _) ↔ _
    rw [isRelation, levelRule]
    constructor
    · intro holds
      rcases holds with ⟨other, isOther, rfl, admitted, allows, onward⟩
      obtain ⟨follows, same⟩ := Option.ite_none_right_eq_some.1 isOther
      cases same
      refine ⟨rule, rfl, rfl, ?_, (Depth.allows_succ_iff expands).2 allows, fresh, shallow, onward⟩
      exact List.forall_mem_cons.2 ⟨follows, admitted⟩
    · intro holds
      rcases holds with ⟨other, same, rfl, admitted, allows, _, _, onward⟩
      cases same
      obtain ⟨follows, later⟩ := List.forall_mem_cons.1 admitted
      exact ⟨rule.next, if_pos follows, rfl, later, (Depth.allows_succ_iff expands).1 allows,
        onward⟩

/-- A step adds to the branches below a node at most what its rule follows next. -/
theorem branch_step_iff (branch : List Ancestor) (node : IncludeNode) (first : Hop)
    (names : List String) {second : Hop}
    (declared : second.relation ∈ context.schema.relationsFrom node.relation.target) :
    Branch (context.step branch node first.record).tree (second.relation.name :: names)
      ↔ Branch node.children (second.relation.name :: names)
        ∨ (names = [] ∧ ∃ rule, node.recursion = some rule
            ∧ context.stops branch rule ⟨node.relation.target, first.record.key⟩ = false
            ∧ rule.scope.admits second.relation.name = true) := by
  rcases step_cases context branch node first.record with
    ⟨isNone, isStep⟩ | ⟨rule, isRule, stops, isStep⟩ | ⟨rule, isRule, goesOn, isStep⟩
  · rw [isStep, isNone]
    simp [Step.tree]
  · rw [isStep, isRule]
    simp [Step.tree, stops]
  · rw [isStep, isRule]
    show Branch (InclusionTree.merge node.children _) _ ↔ _
    rw [InclusionTree.branch_merge_recursiveLevel declared]
    simp [goesOn, Recursion.next]

/-- The names of the relations along a walk. -/
def names (walk : List Hop) : List String := (walk.map Hop.relation).map Relation.name

/-- A step leads along the same walks as the tree before it. -/
theorem branch_or_rides_step_iff (shaped : Shaped context.schema true entity tree)
    (found : get? tree first.relation.name = some node)
    (isRelation : node.relation = first.relation)
    {second : Hop} {later : List Hop}
    (declared : second.relation ∈ context.schema.relationsFrom first.relation.target) :
    (Branch (context.step branch node first.record).tree (names (second :: later))
        ∨ ∃ scope, Rides context.maxDepth (context.step branch node first.record).tree
            (first.reached :: branch) scope (second :: later))
      ↔ Branch node.children (names (second :: later))
        ∨ ∃ scope, Rides context.maxDepth tree branch scope (first :: second :: later) := by
  have ridden := fun scope =>
    rides_step_iff branch scope later shaped found isRelation declared
  have added := branch_step_iff branch node first (names later) (isRelation.symm ▸ declared)
  show (Branch _ (second.relation.name :: names later) ∨ _) ↔ _
  rw [added]
  simp only [ridden]
  constructor
  · intro either
    rcases either with (explicit | ⟨isNil, rule, isRule, goesOn, follows⟩) | rides
    · exact .inl explicit
    · -- the branch that ends with the step is ridden as well
      have isLast : later = [] := by simpa [names] using isNil
      rw [first.reached_eq isRelation, stops_eq_false_iff] at goesOn
      obtain ⟨expands, fresh, shallow⟩ := goesOn
      have ruled := (InclusionTree.ruleAt_of_get? found).trans isRule
      rw [isLast]
      refine .inr ⟨rule.scope, rule, ruled, rfl, ?_, ?_, ?_⟩
      · intro hop member
        rw [List.mem_singleton.1 member]
        exact follows
      · exact (Depth.allows_succ_iff expands).2 (Depth.allows_one _)
      · exact (open_cons_iff (List.cons_ne_nil second [])).2 ⟨fresh, shallow, open_single _ _ _⟩
    · exact .inr rides
  · intro either
    rcases either with explicit | rides
    · exact .inl (.inl explicit)
    · exact .inr rides

/-! ## Walks and what is loaded -/

variable {chain : List Ancestor} {record last : Record} {lastEntity : String} {walk : List Hop}

/-- A loaded record contains what its node of the first relation of a walk attaches. -/
theorem reaches_load_hop (namesDistinct : context.schema.NamesDistinct)
    (shaped : Shaped context.schema true entity tree)
    (declared : first.relation ∈ context.schema.relationsFrom entity)
    (yielded : first.record ∈ first.relation.yields context.schema context.view record)
    {rest : Hydrated.Trail} {hydrated : Hydrated} :
    (load context entity record tree chain).Reaches (first.mark :: rest) hydrated
      ↔ ∃ node, get? tree first.relation.name = some node
          ∧ (loadStep context (⟨entity, record.key⟩ :: chain) node first.record).Reaches
              rest hydrated := by
  unfold Hop.mark
  rw [reaches_load_cons]
  constructor
  · intro holds
    rcases holds with ⟨node, member, _, sameName, _, below⟩
    exact ⟨node, (InclusionTree.get?_eq_some_iff shaped.distinct).2 ⟨member, sameName⟩, below⟩
  · intro holds
    rcases holds with ⟨node, found, below⟩
    have isRelation := relation_eq_of_get? namesDistinct shaped declared found
    obtain ⟨member, sameName⟩ := (InclusionTree.get?_eq_some_iff shaped.distinct).1 found
    refine ⟨node, member, ?_, sameName, ?_, below⟩
    · rw [isRelation]
      exact (Schema.mem_relationsFrom.1 declared).2
    · rw [isRelation]
      exact yielded

theorem contains_loadStep (isRelation : node.relation = first.relation) {trail : Hydrated.Trail} :
    (loadStep context branch node first.record).Contains trail
      ↔ (load context first.relation.target first.record
          (context.step branch node first.record).tree branch).Contains trail := by
  rw [← isRelation]
  exact contains_finish

/-- **The walks that a loaded record contains** are the branches of the tree, and those
that a rule at its top rides along. -/
theorem contains_load_iff (namesDistinct : context.schema.NamesDistinct)
    (isWalk : IsWalk context.schema context.view entity record walk lastEntity last)
    (shaped : Shaped context.schema true entity tree) :
    (load context entity record tree chain).Contains (walk.map Hop.mark)
      ↔ Branch tree (names walk)
        ∨ ∃ scope, Rides context.maxDepth tree (⟨entity, record.key⟩ :: chain) scope walk := by
  induction isWalk generalizing tree chain with
  | nil => exact ⟨fun _ => .inl trivial, fun _ => ⟨_, rfl⟩⟩
  | @cons entity _ record _ first rest declared yielded onward inductionHypothesis =>
      have opened : (load context entity record tree chain).Contains ((first :: rest).map Hop.mark)
          ↔ ∃ node, get? tree first.relation.name = some node
              ∧ (loadStep context (⟨entity, record.key⟩ :: chain) node first.record).Contains
                  (rest.map Hop.mark) := by
        unfold Hydrated.Contains
        rw [List.map_cons]
        simp only [reaches_load_hop namesDistinct shaped declared yielded, ← exists_and_left]
        exact exists_comm
      rw [opened]
      cases found : get? tree first.relation.name with
      | none =>
          constructor
          · intro holds
            rcases holds with ⟨node, impossible, _⟩
            cases impossible
          · intro either
            rcases either with ⟨node, isFound, _⟩ | ⟨scope, rule, isRule, _⟩
            · rw [found] at isFound
              cases isFound
            · unfold ruleAt at isRule
              rw [found] at isRule
              cases isRule
      | some node =>
          have isRelation := relation_eq_of_get? namesDistinct shaped declared found
          have stepShaped := shaped_step (⟨entity, record.key⟩ :: chain) shaped
            (List.mem_of_find?_eq_some found) first.record
          rw [isRelation] at stepShaped
          simp only [Option.some.injEq, exists_eq_left']
          rw [contains_loadStep isRelation, inductionHypothesis stepShaped]
          show _ ↔ Branch tree (first.relation.name :: names rest) ∨ _
          rw [InclusionTree.branch_cons_iff found]
          cases onward with
          | nil => exact ⟨fun _ => .inl trivial, fun _ => .inl trivial⟩
          | cons declared yielded onward =>
              exact branch_or_rides_step_iff shaped found isRelation declared

end EagerLoad.Hydration
