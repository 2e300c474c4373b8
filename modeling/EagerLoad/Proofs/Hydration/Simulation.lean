import EagerLoad.Proofs.Hydration.Termination
import EagerLoad.Proofs.Inclusion.Matching

/-!
Contract: two descents along matching trees load the same.

Owns: what has to be alike on both sides for one descent to go where the other goes, how both go
on at a related record, and that what they load is then equal.

Does not own: why both sides are alike (`Saturation.lean`, `Proofs/Query/DefaultKeys.lean`).

A descent reads its tree, the records, the schema and the branch. Two descents go on alike as long
as matching relations yield the same records and matching rules stop at the same records. Which
rules match may depend on the branch, since a limit that suffices here need not suffice where more
records are left to visit. One step is compared in `Simulation.matches_step`; the run follows by
induction over one of the descents.
-/

set_option autoImplicit false

namespace EagerLoad.Hydration

open InclusionTree (Alike NodeMatches Matches DeclareAlike)

/-! ## Entries -/

/-- Records have the same entries for two trees as soon as they have for their nodes, one by
one. -/
theorem entriesOf_eq_of_forall₂ {context other : Context} {entity : String} {record : Record}
    {tree otherTree : InclusionTree} {like : IncludeNode → IncludeNode → Prop}
    {attached otherAttached : IncludeNode → Record → Hydrated}
    (matched : List.Forall₂ like tree otherTree)
    (sources : ∀ {node counterpart}, like node counterpart →
      counterpart.relation.source = node.relation.source)
    (entries : ∀ node ∈ tree, ∀ counterpart, like node counterpart →
      node.relation.source = entity →
      (counterpart.name, Attached.ofList counterpart.relation.kind
          ((counterpart.relation.yields other.schema other.view record).map
            (otherAttached counterpart)))
        = (node.name, Attached.ofList node.relation.kind
          ((node.relation.yields context.schema context.view record).map (attached node)))) :
    entriesOf other entity record otherTree otherAttached
      = entriesOf context entity record tree attached := by
  unfold entriesOf
  induction matched with
  | nil => rfl
  | @cons node counterpart rest otherRest nodes restMatched inductionHypothesis =>
      have restEntries := inductionHypothesis fun later member =>
        entries later (List.mem_cons_of_mem _ member)
      rw [List.filter_cons, List.filter_cons, sources nodes]
      by_cases ofType : node.relation.source = entity
      · rw [if_pos (beq_iff_eq.2 ofType), if_pos (beq_iff_eq.2 ofType), List.map_cons,
          List.map_cons, restEntries,
          entries node List.mem_cons_self counterpart nodes ofType]
      · rw [if_neg (mt beq_iff_eq.1 ofType), if_neg (mt beq_iff_eq.1 ofType), restEntries]

theorem emptyValues_eq_of_forall₂ {likeRelation : Relation → Relation → Prop}
    {likeRule : Recursion → Recursion → Prop} (alike : Alike likeRelation likeRule)
    {relations others : List Relation} (matched : List.Forall₂ likeRelation relations others)
    (scope : Scope) (loaded : List String) :
    emptyValues scope loaded others = emptyValues scope loaded relations := by
  induction matched generalizing loaded with
  | nil => rfl
  | cons like restMatched inductionHypothesis =>
      rw [emptyValues, emptyValues, alike.name like, alike.kind like, inductionHypothesis,
        inductionHypothesis]

/-! ## Steps -/

/-- Two steps go on along matching trees, and empty the same scope if any. -/
inductive Step.Matches (likeRelation : Relation → Relation → Prop)
    (likeRule : Recursion → Recursion → Prop) : Step → Step → Prop
  | follow {tree other : InclusionTree}
      (matched : InclusionTree.Matches likeRelation likeRule tree other) :
      Matches likeRelation likeRule (.follow tree) (.follow other)
  | cut {tree other : InclusionTree} (scope : Scope)
      (matched : InclusionTree.Matches likeRelation likeRule tree other) :
      Matches likeRelation likeRule (.cut tree scope) (.cut other scope)

namespace Step.Matches

variable {likeRelation : Relation → Relation → Prop} {likeRule : Recursion → Recursion → Prop}
  {step other : Step}

theorem trees (steps : step.Matches likeRelation likeRule other) :
    InclusionTree.Matches likeRelation likeRule step.tree other.tree := by
  cases steps with
  | follow matched => exact matched
  | cut scope matched => exact matched

theorem finish_eq (steps : step.Matches likeRelation likeRule other)
    (alike : Alike likeRelation likeRule) {schema otherSchema : Schema}
    (declared : DeclareAlike likeRelation schema otherSchema) (hydrated : Hydrated) :
    other.finish otherSchema hydrated = step.finish schema hydrated := by
  cases steps with
  | follow matched => rfl
  | cut scope matched =>
      show withEmptyValues otherSchema scope hydrated = withEmptyValues schema scope hydrated
      unfold withEmptyValues
      rw [emptyValues_eq_of_forall₂ alike (declared hydrated.entity)]

end Step.Matches

/-! ## Descents -/

/-- A descent over `other` goes where a descent over `context` goes. `likeRule` says which rules
match below a branch, and `valid` of which records alike relations yield the same. -/
structure Simulation (context other : Context) (likeRelation : Relation → Relation → Prop)
    (likeRule : List Ancestor → Recursion → Recursion → Prop) (valid : String → Record → Prop) :
    Prop where
  alike : ∀ branch, Alike likeRelation (likeRule branch)
  declared : DeclareAlike likeRelation context.schema other.schema
  stored : ∀ {entity record}, record ∈ context.view.records entity → valid entity record
  yields : ∀ {relation otherRelation record}, likeRelation relation otherRelation →
    valid relation.source record →
      otherRelation.yields other.schema other.view record
        = relation.yields context.schema context.view record
  stops : ∀ {branch rule otherRule entity record}, record ∈ context.view.records entity →
    likeRule branch rule otherRule →
      other.stops branch otherRule ⟨entity, record.key⟩
        = context.stops branch rule ⟨entity, record.key⟩
  onward : ∀ {branch rule otherRule} reached, likeRule branch rule otherRule →
    likeRule (reached :: branch) rule otherRule
  next : ∀ {branch rule otherRule entity record}, record ∈ context.view.records entity →
    likeRule branch rule otherRule →
    context.stops branch rule ⟨entity, record.key⟩ = false →
      likeRule (⟨entity, record.key⟩ :: branch) rule.next otherRule.next

namespace Simulation

variable {context other : Context} {likeRelation : Relation → Relation → Prop}
  {likeRule : List Ancestor → Recursion → Recursion → Prop} {valid : String → Record → Prop}

/-- **A step is matched.** At a record that is reached, matching nodes go on along trees that
match below the branch with this record. -/
theorem matches_step (simulation : Simulation context other likeRelation likeRule valid)
    {branch : List Ancestor} {node counterpart : IncludeNode} {related : Record}
    (nodes : NodeMatches likeRelation (likeRule branch) node counterpart)
    (reached : related ∈ context.view.records node.relation.target) :
    (context.step branch node related).Matches likeRelation
      (likeRule (⟨node.relation.target, related.key⟩ :: branch))
      (other.step branch counterpart related) := by
  have sameTarget := (simulation.alike branch).target nodes.relation
  have children := nodes.children.imp
    (simulation.onward ⟨node.relation.target, related.key⟩)
  have rules := nodes.rule
  unfold Context.step
  rw [sameTarget]
  generalize node.recursion = rule at rules
  generalize counterpart.recursion = otherRule at rules
  cases rules with
  | none => exact .follow children
  | @some rule otherRule like =>
      have sameScope := (simulation.alike branch).scope like
      dsimp only
      rw [simulation.stops reached like, sameScope]
      cases stops : context.stops branch rule ⟨node.relation.target, related.key⟩ with
      | true => exact .cut rule.scope children
      | false =>
          have level := InclusionTree.matches_recursiveLevel (simulation.alike _)
            (simulation.declared node.relation.target) (simulation.next reached like stops)
          exact .follow (InclusionTree.matches_merge (simulation.alike _) children level)

theorem eq_load_of_descends (simulation : Simulation context other likeRelation likeRule valid)
    {entity : String} {record : Record} {tree otherTree : InclusionTree} {chain : List Ancestor}
    {hydrated : Hydrated} (descends : Descends context entity record tree chain hydrated)
    (isValid : valid entity record)
    (matched : Matches likeRelation (likeRule (⟨entity, record.key⟩ :: chain)) tree otherTree) :
    load other entity record otherTree chain = hydrated := by
  -- over the one descent, whose trees the other matches on every branch
  induction descends generalizing otherTree with
  | @intro entity record tree chain attached below inductionHypothesis =>
      have alike := simulation.alike (⟨entity, record.key⟩ :: chain)
      rw [load_eq]
      congr 1
      refine entriesOf_eq_of_forall₂ matched (fun nodes => alike.source nodes.relation) ?_
      intro node member counterpart nodes ofType
      have sameYield := simulation.yields nodes.relation (ofType ▸ isValid)
      rw [nodes.name alike, alike.kind nodes.relation, sameYield]
      congr 2
      apply List.map_congr_left
      intro related yielded
      have reached := Relation.mem_records_of_mem_yields yielded
      have steps := simulation.matches_step nodes reached
      unfold loadStep
      rw [steps.finish_eq (simulation.alike _) simulation.declared, alike.target nodes.relation,
        inductionHypothesis node member ofType related yielded (simulation.stored reached)
          steps.trees]

/-- **Descents along matching trees load the same.** -/
theorem load_eq_load (simulation : Simulation context other likeRelation likeRule valid)
    {entity : String} {record : Record} {tree otherTree : InclusionTree} {chain : List Ancestor}
    (isValid : valid entity record)
    (matched : Matches likeRelation (likeRule (⟨entity, record.key⟩ :: chain)) tree otherTree) :
    load other entity record otherTree chain = load context entity record tree chain :=
  simulation.eq_load_of_descends (descends_load context entity record tree chain) isValid matched

end Simulation

end EagerLoad.Hydration
