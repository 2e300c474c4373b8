import EagerLoad.Proofs.Hydration.Entry
import EagerLoad.Proofs.Inclusion.Order

/-!
Contract: descents along trees that fit the types of their records.

Owns: that a descent goes on along fitting trees; which entries a step leaves at a record, and
the relations that they belong to.

Does not own: which records are reached.
-/

set_option autoImplicit false

namespace EagerLoad.Hydration

open InclusionTree (Fits Branch Within NodeWithin)

variable {context : Context} {branch chain : List Ancestor} {entity : String}
  {tree : InclusionTree} {node : IncludeNode} {record related : Record}

theorem fits_step (namesDistinct : context.schema.NamesDistinct) (branch : List Ancestor)
    (fits : Fits context.schema entity tree) (member : node ∈ tree) (related : Record) :
    Fits context.schema node.relation.target (context.step branch node related).tree := by
  have children := fits.children member
  rcases step_cases context branch node related with
    ⟨_, isStep⟩ | ⟨rule, _, _, isStep⟩ | ⟨rule, _, _, isStep⟩
  · rw [isStep]
    exact children
  · rw [isStep]
    exact children
  · rw [isStep]
    exact InclusionTree.fits_merge namesDistinct children (InclusionTree.fits_recursiveLevel _ _ _)

theorem mem_names_load (fits : Fits context.schema entity tree) {name : String} :
    name ∈ (load context entity record tree chain).names ↔ Branch tree [name] := by
  rw [names_load, List.mem_map]
  constructor
  · intro holds
    rcases holds with ⟨node, selected, sameName⟩
    have member := (List.mem_filter.1 selected).1
    exact ⟨node, (InclusionTree.get?_eq_some_iff fits.distinct).2 ⟨member, sameName⟩, trivial⟩
  · intro holds
    rcases holds with ⟨node, found, _⟩
    obtain ⟨member, sameName⟩ := (InclusionTree.get?_eq_some_iff fits.distinct).1 found
    have ofType := (Schema.mem_relationsFrom.1 (fits.declared member)).2
    exact ⟨node, List.mem_filter.2 ⟨member, beq_iff_eq.2 ofType⟩, sameName⟩

/-- The entry under a name is that of the node of the name. -/
theorem relation?_load (fits : Fits context.schema entity tree) (name : String) :
    (load context entity record tree chain).relation? name
      = (InclusionTree.get? tree name).map fun node => Attached.ofList node.relation.kind
          ((node.relation.yields context.schema context.view record).map
            (loadStep context (⟨entity, record.key⟩ :: chain) node)) := by
  cases found : InclusionTree.get? tree name with
  | none =>
      apply Hydrated.relation?_eq_none_iff.2
      rw [mem_names_load fits]
      intro branch
      obtain ⟨node, isFound, _⟩ := branch
      rw [found] at isFound
      cases isFound
  | some node =>
      obtain ⟨member, rfl⟩ := (InclusionTree.get?_eq_some_iff fits.distinct).1 found
      have ofType := (Schema.mem_relationsFrom.1 (fits.declared member)).2
      apply (Hydrated.relation?_eq_some_iff (nodup_names_load fits.distinct)).2
      exact mem_relations_load.2 ⟨node, member, ofType, rfl⟩

/-- A step leaves an entry for what is requested below its node, and for everything that
its rule follows: loaded where the descent goes on, and empty where it stops. -/
theorem mem_names_loadStep (namesDistinct : context.schema.NamesDistinct)
    (fits : Fits context.schema entity tree) (member : node ∈ tree) {relation : Relation}
    (declared : relation ∈ context.schema.relationsFrom node.relation.target) :
    relation.name ∈ (loadStep context branch node related).names
      ↔ Branch node.children [relation.name]
        ∨ ∃ rule, node.recursion = some rule ∧ rule.scope.admits relation.name = true := by
  unfold loadStep
  rw [mem_names_finish, mem_names_load (fits_step namesDistinct _ fits member related), entity_load]
  rcases step_cases context branch node related with
    ⟨isNone, isStep⟩ | ⟨rule, isRule, _, isStep⟩ | ⟨rule, isRule, _, isStep⟩
  · rw [isStep, isNone]
    simp [Step.tree, Step.Empties]
  · rw [isStep, isRule]
    constructor
    · intro either
      rcases either with explicit | ⟨value, other, _, admitted, isEntry⟩
      · exact .inl explicit
      · obtain ⟨sameName, _⟩ := Prod.mk.inj isEntry
        rw [sameName]
        exact .inr ⟨rule, rfl, admitted⟩
    · intro either
      rcases either with explicit | ⟨other, same, admitted⟩
      · exact .inl explicit
      · cases same
        exact .inr ⟨_, relation, declared, admitted, rfl⟩
  · rw [isStep, isRule]
    show Branch (InclusionTree.merge node.children _) _ ∨ _ ↔ _
    rw [InclusionTree.branch_merge_recursiveLevel declared]
    simp [Step.Empties, Recursion.next]

/-- An entry after a step is that of a relation of the type reached, with a value of the kind
of the relation. -/
theorem exists_relation_of_mem_relations_loadStep (namesDistinct : context.schema.NamesDistinct)
    (fits : Fits context.schema entity tree) (member : node ∈ tree)
    {entry : String × Attached Hydrated}
    (entryMember : entry ∈ (loadStep context branch node related).relations) :
    ∃ relation ∈ context.schema.relationsFrom node.relation.target, relation.name = entry.1
      ∧ ∃ values, entry.2 = Attached.ofList relation.kind values := by
  rcases mem_relations_finish entryMember with loaded | isEmpty
  · obtain ⟨below, belowMember, _, rfl⟩ := mem_relations_load.1 loaded
    have declared := (fits_step namesDistinct branch fits member related).declared belowMember
    exact ⟨below.relation, declared, rfl, _, rfl⟩
  · rw [entity_load] at isEmpty
    obtain ⟨relation, declared, sameName, isValue⟩ := isEmpty.exists_relation
    exact ⟨relation, declared, sameName, [], isValue⟩

end EagerLoad.Hydration
