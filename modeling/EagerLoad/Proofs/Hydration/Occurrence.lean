import EagerLoad.Proofs.Hydration.Entry
import EagerLoad.Proofs.Hydration.Indexing
import EagerLoad.Proofs.Hydration.Value
import Mathlib.Data.List.Forall2

/-!
Contract: every record in a result shows the values of the relations requested of it.

Owns: the occurrences of records in a result with the step that leads to each, what the
entries of a record have to be after a step, and that they are so at every occurrence.

Does not own: the values of relations (`Value.lean`) or which records occur.
-/

set_option autoImplicit false

namespace EagerLoad

/-- A value with other records in it. -/
def Attached.map {α β : Type} (change : α → β) : Attached α → Attached β
  | .one value => .one (value.map change)
  | .many values => .many (values.map change)

theorem Attached.map_ofList {α β : Type} (change : α → β) (kind : RelationKind)
    (values : List α) : (ofList kind values).map change = ofList kind (values.map change) := by
  unfold ofList
  cases kind.isPlural with
  | true => rfl
  | false => exact congrArg Attached.one List.head?_map.symm

namespace Hydration

/-- The occurrences of records in a result: the record, the step by which the descent
arrived there, and the branch above it. The step holds the tree that is applied to the
record. -/
inductive Occurs (context : Context) (requested : InclusionTree) (top : Hydrated) :
    Hydrated → Step → List Ancestor → Prop
  | root : Occurs context requested top top (.follow requested) []
  | under {parent child : Hydrated} {step : Step} {chain : List Ancestor} {node : IncludeNode}
      {value : Attached Hydrated} (above : Occurs context requested top parent step chain)
      (member : node ∈ step.tree) (ofType : node.relation.source = parent.entity)
      (entry : (node.name, value) ∈ parent.relations) (attached : child ∈ value.toList) :
      Occurs context requested top child
        (context.step (⟨parent.entity, parent.record.key⟩ :: chain) node child.record)
        (⟨parent.entity, parent.record.key⟩ :: chain)

/-- The entries of a record after a step: one for every node of its type, with the value
of the relation, one for every relation that the step empties, and no others. No two of
them have one name. -/
structure ShowsValues (schema : Schema) (store : Store) (step : Step) (hydrated : Hydrated) :
    Prop where
  requested : ∀ node ∈ step.tree, node.relation.source = hydrated.entity →
    ∃ value, hydrated.relations.filter (fun entry => entry.1 == node.name) = [(node.name, value)]
      ∧ node.relation.Value schema store hydrated.record (value.map Hydrated.record)
      ∧ ∀ child ∈ value.toList, child.entity = node.relation.target
  emptied : ∀ entry, step.Empties schema hydrated.entity entry → entry.1 ∈ hydrated.names
  only : ∀ entry ∈ hydrated.relations,
    (∃ node ∈ step.tree, node.relation.source = hydrated.entity ∧ node.name = entry.1)
      ∨ step.Empties schema hydrated.entity entry
  once : hydrated.names.Nodup

/-- A hydrated root of a type is the root, every record attached anywhere below it occurs,
and shows the values of what is requested of it. -/
structure ShowsValuesEverywhere (context : Context) (store : Store) (entity : String)
    (requested : InclusionTree) (root : Record) (hydrated : Hydrated) : Prop where
  entity_eq : hydrated.entity = entity
  record_eq : hydrated.record = root
  occurs : ∀ trail last, hydrated.Reaches trail last →
    ∃ step chain, Occurs context requested hydrated last step chain
  shows : ∀ last step chain, Occurs context requested hydrated last step chain →
    ShowsValues context.schema store step last

/-- What a descent leaves at an occurrence: the record is loaded along the tree of the
step, and that tree has different siblings. -/
structure Placed (context : Context) (hydrated : Hydrated) (step : Step)
    (chain : List Ancestor) : Prop where
  distinct : InclusionTree.Distinct step.tree
  loaded : hydrated = step.finish context.schema
    (load context hydrated.entity hydrated.record step.tree chain)

variable {context : Context} {hydrated : Hydrated} {step : Step} {chain : List Ancestor}

theorem Placed.nodup_names (placed : Placed context hydrated step chain) :
    hydrated.names.Nodup := by
  rw [placed.loaded]
  exact nodup_names_finish (nodup_names_load placed.distinct)

/-- A node of the type of the record has one entry, which holds what it attaches. -/
theorem Placed.filter_relations (placed : Placed context hydrated step chain)
    {node : IncludeNode} (member : node ∈ step.tree)
    (ofType : node.relation.source = hydrated.entity) :
    hydrated.relations.filter (fun entry => entry.1 == node.name)
      = [(node.name, Attached.ofList node.relation.kind
          ((node.relation.yields context.schema context.view hydrated.record).map
            (loadStep context (⟨hydrated.entity, hydrated.record.key⟩ :: chain) node)))] := by
  apply Hydrated.filter_relations_eq placed.nodup_names
  rw [congrArg Hydrated.relations placed.loaded]
  apply mem_relations_finish_of_mem
  exact mem_relations_load.2 ⟨node, member, ofType, rfl⟩

/-- A record under a node is what the node attaches for a record that its relation yields. -/
theorem Placed.exists_yielded (placed : Placed context hydrated step chain) {node : IncludeNode}
    {value : Attached Hydrated} {child : Hydrated} (member : node ∈ step.tree)
    (ofType : node.relation.source = hydrated.entity)
    (entry : (node.name, value) ∈ hydrated.relations) (attached : child ∈ value.toList) :
    ∃ related ∈ node.relation.yields context.schema context.view hydrated.record,
      child = loadStep context (⟨hydrated.entity, hydrated.record.key⟩ :: chain) node related := by
  have selected : (node.name, value) ∈
      hydrated.relations.filter (fun entry => entry.1 == node.name) :=
    List.mem_filter.2 ⟨entry, beq_self_eq_true node.name⟩
  rw [placed.filter_relations member ofType, List.mem_singleton] at selected
  obtain ⟨_, rfl⟩ := Prod.mk.inj selected
  rw [toList_entry] at attached
  obtain ⟨related, yielded, isChild⟩ := List.mem_map.1 attached
  exact ⟨related, yielded, isChild.symm⟩

/-- What is loaded along a tree is placed at the top of the result. -/
theorem placed_load (context : Context) {tree : InclusionTree}
    (distinct : InclusionTree.Distinct tree) (entity : String) (record : Record) :
    Placed context (load context entity record tree []) (.follow tree) [] := by
  refine ⟨distinct, ?_⟩
  rw [entity_load, record_load]
  rfl

/-- The step from a record to one below it keeps the invariant. -/
theorem Placed.below (placed : Placed context hydrated step chain) {node : IncludeNode}
    {value : Attached Hydrated} {child : Hydrated} (member : node ∈ step.tree)
    (ofType : node.relation.source = hydrated.entity)
    (entry : (node.name, value) ∈ hydrated.relations) (attached : child ∈ value.toList) :
    Placed context child
      (context.step (⟨hydrated.entity, hydrated.record.key⟩ :: chain) node child.record)
      (⟨hydrated.entity, hydrated.record.key⟩ :: chain) := by
  obtain ⟨related, _, rfl⟩ := placed.exists_yielded member ofType entry attached
  rw [record_loadStep]
  refine ⟨distinct_step placed.distinct member, ?_⟩
  rw [record_loadStep, entity_loadStep]
  rfl

theorem Occurs.placed {requested : InclusionTree} {top : Hydrated}
    (atTop : Placed context top (.follow requested) [])
    (occurs : Occurs context requested top hydrated step chain) :
    Placed context hydrated step chain := by
  induction occurs with
  | root => exact atTop
  | under _ member ofType entry attached inductionHypothesis =>
      exact inductionHypothesis.below member ofType entry attached

/-- An entry is that of a node of the type of the record, or the step emptied it. -/
theorem Placed.requested_or_emptied (placed : Placed context hydrated step chain)
    {entry : String × Attached Hydrated} (member : entry ∈ hydrated.relations) :
    (∃ node ∈ step.tree, node.relation.source = hydrated.entity ∧ node.name = entry.1)
      ∨ step.Empties context.schema hydrated.entity entry := by
  rw [placed.loaded] at member
  rcases mem_relations_finish member with loaded | isEmpty
  · obtain ⟨node, nodeMember, ofType, rfl⟩ := mem_relations_load.1 loaded
    exact .inl ⟨node, nodeMember, ofType, rfl⟩
  · rw [entity_load] at isEmpty
    exact .inr isEmpty

/-- **The entries of a placed record.** They are those of the relations requested of it,
with their values, and those that its step empties. -/
theorem Placed.showsValues {store : Store} (placed : Placed context hydrated step chain)
    (ofStore : context.view = store.view) :
    ShowsValues context.schema store step hydrated where
  requested := by
    intro node member ofType
    refine ⟨_, placed.filter_relations member ofType, ?_, ?_⟩
    · rw [Attached.map_ofList, map_record_loadStep, ofStore]
      exact node.relation.value_yields context.schema store hydrated.record
    · intro child attached
      have entry : _ ∈ hydrated.relations.filter fun entry => entry.1 == node.name :=
        placed.filter_relations member ofType ▸ List.mem_singleton_self _
      obtain ⟨related, _, rfl⟩ :=
        placed.exists_yielded member ofType (List.mem_filter.1 entry).1 attached
      exact entity_loadStep context _ node related
  emptied := by
    intro holds isEmpty
    rcases holds with ⟨name, value⟩
    rw [placed.loaded, mem_names_finish]
    rw [entity_load]
    exact .inr ⟨value, isEmpty⟩
  only := fun _ member => placed.requested_or_emptied member
  once := placed.nodup_names

/-- The record at the end of a trail from a record that occurs, occurs. -/
theorem Occurs.exists_of_reaches {requested : InclusionTree} {top last : Hydrated}
    {trail : Hydrated.Trail} (atTop : Placed context top (.follow requested) [])
    (occurs : Occurs context requested top hydrated step chain)
    (reaches : hydrated.Reaches trail last) :
    ∃ step chain, Occurs context requested top last step chain := by
  induction trail generalizing hydrated step chain with
  | nil =>
      have same : last = hydrated := reaches
      exact ⟨step, chain, same ▸ occurs⟩
  | cons first rest inductionHypothesis =>
      obtain ⟨name, record⟩ := first
      obtain ⟨value, entry, child, attached, _, below⟩ := reaches
      rcases (occurs.placed atTop).requested_or_emptied entry with
        ⟨node, member, ofType, rfl⟩ | isEmpty
      · exact inductionHypothesis (occurs.under member ofType entry attached) below
      · rw [isEmpty.toList_eq_nil] at attached
        cases attached

end Hydration

namespace Resolver

open Hydration

/-- **Every record shows the values requested of it**, wherever it occurs in a result. -/
theorem resolve_shows_values (schema : Schema) (store : Store) (settings : Settings)
    (earlier : List Call) (entity : String) (roots : List Record) {tree : InclusionTree}
    (distinct : InclusionTree.Distinct tree) :
    List.Forall₂
      (ShowsValuesEverywhere (start store.view schema settings).context store entity tree)
      roots (((start store.view schema settings).serve earlier).resolve entity roots tree).1 := by
  rw [resolve_serve, List.forall₂_map_right_iff, List.forall₂_same]
  intro root _
  have atTop := placed_load (start store.view schema settings).context distinct entity root
  refine ⟨entity_load _ _ _ _ _, record_load _ _ _ _ _, ?_, ?_⟩
  · intro trail last reaches
    exact Occurs.root.exists_of_reaches atTop reaches
  · intro last step chain occurs
    exact (occurs.placed atTop).showsValues rfl

end Resolver

namespace Sample

/-- A part lists the parts made of it. -/
def parts : Relation where
  name := "parts"
  source := "part"
  target := "part"
  kind := .oneToMany
  foreignKey := "whole"

/-- A part names the part that it belongs to. -/
def whole : Relation where
  name := "whole"
  source := "part"
  target := "part"
  kind := .belongsTo
  foreignKey := "whole"

/-- A part of a whole. -/
def part (key whole : String) : Record where
  key := ⟨key⟩
  identity := .string key
  fields := [("id", .string key), ("whole", .string whole)]

def schema : Schema := { entities := [{ name := "part" }], relations := [parts, whole] }

/-- Two parts, each a part of the other. -/
def store : Store :=
  (({} : Store).put "part" (part "hull" "mast")).put "part" (part "mast" "hull")

theorem records_store : store.records "part" = [part "hull" "mast", part "mast" "hull"] := by
  unfold store
  rw [Store.records_put_self, Store.records_put_self]
  rfl

/-- All parts of parts, without a limit, and the whole of the first of them. -/
def tree : InclusionTree := [.mk parts [.plain whole] (some ⟨.only ["parts"], .unbounded⟩)]

theorem distinct_tree : InclusionTree.Distinct tree := by
  refine .intro (by decide) ?_
  intro node member
  rw [List.mem_singleton.1 member]
  refine .intro (by decide) ?_
  intro child childMember
  rw [List.mem_singleton.1 childMember]
  exact InclusionTree.distinct_nil

end Sample

/-- The parts of two parts of each other show their values. -/
theorem Resolver.resolve_shows_values_parts :
    InclusionTree.Distinct Sample.tree
      ∧ List.Forall₂
          (Hydration.ShowsValuesEverywhere
            (Resolver.start Sample.store.view Sample.schema {}).context Sample.store "part"
            Sample.tree)
          [Sample.part "hull" "mast"]
          (((Resolver.start Sample.store.view Sample.schema {}).serve
            [⟨"part", [Sample.part "mast" "hull"], Sample.tree⟩]).resolve "part"
            [Sample.part "hull" "mast"] Sample.tree).1 :=
  ⟨Sample.distinct_tree, Resolver.resolve_shows_values _ _ _ _ _ _ Sample.distinct_tree⟩

end EagerLoad
