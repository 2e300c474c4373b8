import EagerLoad.Proofs.Hydration.Trail
import EagerLoad.Proofs.Inclusion.Siblings

/-!
Contract: the entries of a hydrated record by name.

Owns: the look-up of entries; which relations have an entry after a step, that the entries
of a record have different names, and that every tree a descent goes on along has different
siblings.

Does not own: the values of entries.
-/

set_option autoImplicit false

namespace EagerLoad

/-! ## Entries by name -/

/-- Where names are different, what is found under a name is its entry. -/
theorem lookup_eq_some_iff_of_nodup {α : Type} {entries : List (String × α)} {name : String}
    {value : α} (distinct : (entries.map fun entry => entry.1).Nodup) :
    entries.lookup name = some value ↔ (name, value) ∈ entries := by
  have mem_of_found :
      ∀ {found : α}, entries.lookup name = some found → (name, found) ∈ entries := by
    intro found isFound
    obtain ⟨before, after, split, _⟩ := List.lookup_eq_some_iff.1 isFound
    rw [split]
    exact List.mem_append_right _ List.mem_cons_self
  refine ⟨mem_of_found, ?_⟩
  intro member
  cases isFound : entries.lookup name with
  | none =>
      have absent := List.lookup_eq_none_iff.1 isFound (name, value) member
      simp at absent
  | some other =>
      have same : (name, other) = (name, value) :=
        List.inj_on_of_nodup_map distinct (mem_of_found isFound) member rfl
      rw [(Prod.mk.inj same).2]

theorem lookup_eq_none_iff_not_mem {α : Type} {entries : List (String × α)} {name : String} :
    entries.lookup name = none ↔ name ∉ entries.map fun entry => entry.1 := by
  rw [List.lookup_eq_none_iff, List.mem_map]
  constructor
  · intro absent present
    obtain ⟨entry, member, rfl⟩ := present
    have unequal := absent entry member
    simp at unequal
  · intro absent entry member
    rw [bne_iff_ne]
    exact fun same => absent ⟨entry, member, same.symm⟩

namespace Hydrated

/-- The names of the loaded relations, in order of attachment. -/
def names (hydrated : Hydrated) : List String := hydrated.relations.map fun entry => entry.1

theorem mem_names {hydrated : Hydrated} {name : String} :
    name ∈ hydrated.names ↔ ∃ value, (name, value) ∈ hydrated.relations := by
  unfold names
  rw [List.mem_map]
  constructor
  · intro holds
    rcases holds with ⟨⟨_, value⟩, member, rfl⟩
    exact ⟨value, member⟩
  · intro holds
    rcases holds with ⟨value, member⟩
    exact ⟨(name, value), member, rfl⟩

theorem relation?_eq_some_iff {hydrated : Hydrated} {name : String} {value : Attached Hydrated}
    (distinct : hydrated.names.Nodup) :
    hydrated.relation? name = some value ↔ (name, value) ∈ hydrated.relations :=
  lookup_eq_some_iff_of_nodup distinct

theorem relation?_eq_none_iff {hydrated : Hydrated} {name : String} :
    hydrated.relation? name = none ↔ name ∉ hydrated.names :=
  lookup_eq_none_iff_not_mem

/-- Where names are different an entry is the only one of its name. -/
theorem filter_relations_eq {hydrated : Hydrated} {name : String} {value : Attached Hydrated}
    (distinct : hydrated.names.Nodup) (member : (name, value) ∈ hydrated.relations) :
    hydrated.relations.filter (fun entry => entry.1 == name) = [(name, value)] := by
  have isFound : hydrated.relations.find? (fun entry => entry.1 == name) = some (name, value) :=
    (find?_eq_some_iff_of_nodup distinct).2 ⟨member, rfl⟩
  rw [filter_eq_find?_of_nodup distinct name, isFound]
  rfl

end Hydrated

namespace Hydration

theorem names_load {context : Context} {entity : String} {record : Record} {tree : InclusionTree}
    {chain : List Ancestor} :
    (load context entity record tree chain).names
      = (tree.filter fun node => node.relation.source == entity).map IncludeNode.name := by
  rw [load_eq]
  show List.map _ (List.map _ _) = _
  rw [List.map_map]
  rfl

/-! ## Empty values -/

/-- An empty value is that of a relation in scope that has no entry yet. -/
theorem exists_relation_of_mem_emptyValues {scope : Scope} {loaded : List String}
    {relations : List Relation} {entry : String × Attached Hydrated}
    (member : entry ∈ emptyValues scope loaded relations) :
    ∃ relation ∈ relations, scope.admits relation.name = true ∧ relation.name ∉ loaded
      ∧ entry = (relation.name, Attached.empty relation.kind) := by
  induction relations generalizing loaded with
  | nil => cases member
  | cons first rest inductionHypothesis =>
      rw [emptyValues] at member
      split at member
      · rename_i isEmptied
        rw [Bool.and_eq_true, Bool.not_eq_true', List.contains_eq_mem,
          decide_eq_false_iff_not] at isEmptied
        rcases List.mem_cons.1 member with rfl | later
        · exact ⟨first, List.mem_cons_self, isEmptied.1, isEmptied.2, rfl⟩
        · obtain ⟨relation, relationMember, admitted, fresh, isEntry⟩ := inductionHypothesis later
          refine ⟨relation, List.mem_cons_of_mem _ relationMember, admitted, ?_, isEntry⟩
          exact fun known => fresh (List.mem_cons_of_mem _ known)
      · obtain ⟨relation, relationMember, rest⟩ := inductionHypothesis member
        exact ⟨relation, List.mem_cons_of_mem _ relationMember, rest⟩

/-- Every relation in scope has an entry, loaded or empty. -/
theorem mem_loaded_or_emptyValues {scope : Scope} {loaded : List String}
    {relations : List Relation} {relation : Relation} (member : relation ∈ relations)
    (admitted : scope.admits relation.name = true) :
    relation.name ∈ loaded
      ∨ relation.name ∈ (emptyValues scope loaded relations).map fun entry => entry.1 := by
  induction relations generalizing loaded with
  | nil => cases member
  | cons first rest inductionHypothesis =>
      rw [emptyValues]
      by_cases known : relation.name ∈ loaded
      · exact .inl known
      right
      split
      · rw [List.map_cons]
        rcases List.mem_cons.1 member with rfl | later
        · exact List.mem_cons_self
        · rcases inductionHypothesis later with here | below
          · rcases List.mem_cons.1 here with same | isKnown
            · rw [same]
              exact List.mem_cons_self
            · exact absurd isKnown known
          · exact List.mem_cons_of_mem _ below
      · rename_i notEmptied
        rcases List.mem_cons.1 member with rfl | later
        · simp [admitted, known] at notEmptied
        · exact (inductionHypothesis later).resolve_left known

theorem nodup_emptyValues {scope : Scope} {loaded : List String} {relations : List Relation} :
    ((emptyValues scope loaded relations).map fun entry => entry.1).Nodup := by
  induction relations generalizing loaded with
  | nil => exact List.nodup_nil
  | cons first rest inductionHypothesis =>
      rw [emptyValues]
      split
      · rw [List.map_cons, List.nodup_cons]
        refine ⟨?_, inductionHypothesis⟩
        intro repeated
        obtain ⟨entry, member, sameName⟩ := List.mem_map.1 repeated
        obtain ⟨relation, _, _, fresh, rfl⟩ := exists_relation_of_mem_emptyValues member
        have same : relation.name = first.name := sameName
        rw [same] at fresh
        exact fresh List.mem_cons_self
      · exact inductionHypothesis

/-! ## Entries after a step -/

/-- An entry that a step adds to a record of a type: the empty value of a relation in
the scope that it cuts. -/
def Step.Empties (schema : Schema) (entity : String) : Step → String × Attached Hydrated → Prop
  | .follow _, _ => False
  | .cut _ scope, entry => ∃ relation ∈ schema.relationsFrom entity,
      scope.admits relation.name = true ∧ entry = (relation.name, Attached.empty relation.kind)

theorem Step.Empties.exists_relation {schema : Schema} {entity : String} {step : Step}
    {entry : String × Attached Hydrated} (isEmpty : step.Empties schema entity entry) :
    ∃ relation ∈ schema.relationsFrom entity, relation.name = entry.1
      ∧ entry.2 = Attached.empty relation.kind := by
  cases step with
  | follow tree => cases isEmpty
  | cut tree scope =>
      obtain ⟨relation, declared, _, rfl⟩ := isEmpty
      exact ⟨relation, declared, rfl, rfl⟩

theorem Step.Empties.toList_eq_nil {schema : Schema} {entity : String} {step : Step}
    {entry : String × Attached Hydrated} (isEmpty : step.Empties schema entity entry) :
    entry.2.toList = [] := by
  obtain ⟨relation, _, _, isValue⟩ := isEmpty.exists_relation
  rw [isValue]
  exact Attached.toList_empty relation.kind

theorem mem_relations_finish {schema : Schema} {step : Step} {hydrated : Hydrated}
    {entry : String × Attached Hydrated}
    (member : entry ∈ (step.finish schema hydrated).relations) :
    entry ∈ hydrated.relations ∨ step.Empties schema hydrated.entity entry := by
  cases step with
  | follow tree => exact .inl member
  | cut tree scope =>
      rcases List.mem_append.1 member with loaded | isEmpty
      · exact .inl loaded
      · obtain ⟨relation, declared, admitted, _, isEntry⟩ :=
          exists_relation_of_mem_emptyValues isEmpty
        exact .inr ⟨relation, declared, admitted, isEntry⟩

theorem mem_relations_finish_of_mem {schema : Schema} (step : Step) {hydrated : Hydrated}
    {entry : String × Attached Hydrated} (member : entry ∈ hydrated.relations) :
    entry ∈ (step.finish schema hydrated).relations := by
  cases step with
  | follow tree => exact member
  | cut tree scope => exact List.mem_append_left _ member

theorem mem_names_finish {schema : Schema} {step : Step} {hydrated : Hydrated} {name : String} :
    name ∈ (step.finish schema hydrated).names
      ↔ name ∈ hydrated.names ∨ ∃ value, step.Empties schema hydrated.entity (name, value) := by
  constructor
  · intro member
    obtain ⟨value, member⟩ := Hydrated.mem_names.1 member
    rcases mem_relations_finish member with loaded | isEmpty
    · exact .inl (Hydrated.mem_names.2 ⟨value, loaded⟩)
    · exact .inr ⟨value, isEmpty⟩
  · intro either
    rcases either with loaded | ⟨value, isEmpty⟩
    · obtain ⟨value, member⟩ := Hydrated.mem_names.1 loaded
      exact Hydrated.mem_names.2 ⟨value, mem_relations_finish_of_mem step member⟩
    · cases step with
      | follow tree => cases isEmpty
      | cut tree scope =>
          obtain ⟨relation, declared, admitted, isEntry⟩ := isEmpty
          obtain ⟨rfl, rfl⟩ := Prod.mk.inj isEntry
          show relation.name ∈ List.map _ (hydrated.relations ++ _)
          rw [List.map_append]
          exact List.mem_append.2 (mem_loaded_or_emptyValues declared admitted)

theorem nodup_names_finish {schema : Schema} {step : Step} {hydrated : Hydrated}
    (distinct : hydrated.names.Nodup) : (step.finish schema hydrated).names.Nodup := by
  cases step with
  | follow tree => exact distinct
  | cut tree scope =>
      show (List.map _ (hydrated.relations ++ _)).Nodup
      rw [List.map_append]
      refine List.Nodup.append distinct nodup_emptyValues ?_
      intro name loaded isEmpty
      obtain ⟨entry, member, rfl⟩ := List.mem_map.1 isEmpty
      obtain ⟨relation, _, _, fresh, rfl⟩ := exists_relation_of_mem_emptyValues member
      exact fresh loaded

/-! ## Distinct siblings along a descent -/

theorem distinct_step {context : Context} {branch : List Ancestor} {tree : InclusionTree}
    {node : IncludeNode} {related : Record} (distinct : InclusionTree.Distinct tree)
    (member : node ∈ tree) :
    InclusionTree.Distinct (context.step branch node related).tree := by
  have below := distinct.children member
  rcases step_cases context branch node related with
    ⟨_, isStep⟩ | ⟨rule, _, _, isStep⟩ | ⟨rule, _, _, isStep⟩
  · rw [isStep]
    exact below
  · rw [isStep]
    exact below
  · rw [isStep]
    exact InclusionTree.distinct_merge below (InclusionTree.distinct_recursiveLevel _ _ _)

theorem nodup_names_load {context : Context} {entity : String} {record : Record}
    {tree : InclusionTree} {chain : List Ancestor} (distinct : InclusionTree.Distinct tree) :
    (load context entity record tree chain).names.Nodup := by
  rw [names_load]
  exact distinct.names.sublist (List.filter_sublist.map IncludeNode.name)

end Hydration

end EagerLoad
