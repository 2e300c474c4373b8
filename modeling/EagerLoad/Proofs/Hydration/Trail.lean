import EagerLoad.Proofs.Hydration.Levels

/-!
Contract: what is attached below a hydrated record.

Owns: trails of relation names and records, the record that a trail reaches, and the
trails of a loaded record in terms of the trails of the records it attaches.

Does not own: which trails there are for given requests.
-/

set_option autoImplicit false

namespace EagerLoad

namespace Attached

variable {α : Type}

theorem toList_ofList {kind : RelationKind} {values : List α}
    (single : kind.isPlural = false → values.length ≤ 1) :
    (ofList kind values).toList = values := by
  unfold ofList
  cases plural : kind.isPlural with
  | true => rfl
  | false =>
      have short := single plural
      match values with
      | [] => rfl
      | [value] => rfl
      | _ :: _ :: _ => simp at short

theorem toList_empty (kind : RelationKind) : (empty kind : Attached α).toList = [] :=
  toList_ofList fun _ => Nat.zero_le 1

end Attached

/-- A relation of a singular kind yields at most one record. -/
theorem Relation.length_yields_le {schema : Schema} {view : RecordView} {relation : Relation}
    {record : Record} (singular : relation.kind.isPlural = false) :
    (relation.yields schema view record).length ≤ 1 := by
  unfold Relation.yields Relation.related
  cases isKind : relation.kind with
  | oneToMany =>
      rw [isKind] at singular
      cases singular
  | oneToOne => exact List.length_take_le 1 _
  | belongsTo =>
      show (Option.toList _).length ≤ 1
      generalize relation.owner? (m := Id) schema view _ record = owner
      cases (owner : Option Record) with
      | none => exact Nat.zero_le 1
      | some _ => exact Nat.le_refl 1

namespace Hydrated

/-- A way down from a hydrated record: the name of a relation and one of the records
attached under it, again and again. -/
abbrev Trail := List (String × Record)

/-- `last` is attached at the end of a trail. -/
def Reaches (hydrated : Hydrated) : Trail → Hydrated → Prop
  | [], last => last = hydrated
  | (name, record) :: rest, last =>
      ∃ value, (name, value) ∈ hydrated.relations
        ∧ ∃ child ∈ value.toList, child.record = record ∧ child.Reaches rest last

/-- Some record is attached at the end of a trail. -/
def Contains (hydrated : Hydrated) (trail : Trail) : Prop := ∃ last, hydrated.Reaches trail last

end Hydrated

namespace Hydration

open Hydrated (Trail)

/-- Empty values hold no record, so that a trail never leads through one. -/
theorem mem_toList_emptyValues {scope : Scope} {loaded : List String} {relations : List Relation}
    {entry : String × Attached Hydrated} {child : Hydrated}
    (member : entry ∈ emptyValues scope loaded relations) : child ∉ entry.2.toList := by
  induction relations generalizing loaded with
  | nil => cases member
  | cons relation rest inductionHypothesis =>
      rw [emptyValues] at member
      split at member
      · rcases List.mem_cons.1 member with rfl | later
        · rw [Attached.toList_empty]
          exact List.not_mem_nil
        · exact inductionHypothesis later
      · exact inductionHypothesis member

theorem reaches_finish_cons {schema : Schema} {step : Step} {hydrated last : Hydrated}
    {first : String × Record} {rest : Trail} :
    (step.finish schema hydrated).Reaches (first :: rest) last
      ↔ hydrated.Reaches (first :: rest) last := by
  cases step with
  | follow tree => exact Iff.rfl
  | cut tree scope =>
      constructor
      · intro holds
        rcases holds with ⟨value, member, child, isChild, sameRecord, below⟩
        rcases List.mem_append.1 member with loaded | isEmpty
        · exact ⟨value, loaded, child, isChild, sameRecord, below⟩
        · exact absurd isChild (mem_toList_emptyValues isEmpty)
      · intro holds
        rcases holds with ⟨value, member, below⟩
        exact ⟨value, List.mem_append_left _ member, below⟩

theorem contains_finish {schema : Schema} {step : Step} {hydrated : Hydrated} {trail : Trail} :
    (step.finish schema hydrated).Contains trail ↔ hydrated.Contains trail := by
  cases trail with
  | nil => exact ⟨fun _ => ⟨_, rfl⟩, fun _ => ⟨_, rfl⟩⟩
  | cons first rest => exact exists_congr fun last => reaches_finish_cons

@[simp] theorem record_finish (schema : Schema) (step : Step) (hydrated : Hydrated) :
    (step.finish schema hydrated).record = hydrated.record := by
  cases step <;> rfl

@[simp] theorem entity_finish (schema : Schema) (step : Step) (hydrated : Hydrated) :
    (step.finish schema hydrated).entity = hydrated.entity := by
  cases step <;> rfl

@[simp] theorem record_load (context : Context) (entity : String) (record : Record)
    (tree : InclusionTree) (chain : List Ancestor) :
    (load context entity record tree chain).record = record := by
  rw [load_eq]
  rfl

@[simp] theorem entity_load (context : Context) (entity : String) (record : Record)
    (tree : InclusionTree) (chain : List Ancestor) :
    (load context entity record tree chain).entity = entity := by
  rw [load_eq]
  rfl

@[simp] theorem record_loadStep (context : Context) (branch : List Ancestor) (node : IncludeNode)
    (related : Record) : (loadStep context branch node related).record = related := by
  unfold loadStep
  rw [record_finish, record_load]

theorem map_record_loadStep (context : Context) (branch : List Ancestor) (node : IncludeNode)
    (records : List Record) :
    (records.map (loadStep context branch node)).map Hydrated.record = records := by
  rw [List.map_map]
  exact List.map_id'' (record_loadStep context branch node) records

@[simp] theorem entity_loadStep (context : Context) (branch : List Ancestor) (node : IncludeNode)
    (related : Record) :
    (loadStep context branch node related).entity = node.relation.target := by
  unfold loadStep
  rw [entity_finish, entity_load]

/-- The records under a node are what it attaches for those that its relation yields. -/
theorem toList_entry {context : Context} (relation : Relation) (record : Record)
    (attached : Record → Hydrated) :
    (Attached.ofList relation.kind
        ((relation.yields context.schema context.view record).map attached)).toList
      = (relation.yields context.schema context.view record).map attached := by
  apply Attached.toList_ofList
  intro singular
  rw [List.length_map]
  exact Relation.length_yields_le singular

theorem mem_relations_load {context : Context} {entity : String} {record : Record}
    {tree : InclusionTree} {chain : List Ancestor} {entry : String × Attached Hydrated} :
    entry ∈ (load context entity record tree chain).relations
      ↔ ∃ node ∈ tree, node.relation.source = entity
          ∧ entry = (node.name, Attached.ofList node.relation.kind
              ((node.relation.yields context.schema context.view record).map
                (loadStep context (⟨entity, record.key⟩ :: chain) node))) := by
  rw [load_eq]
  exact mem_entriesOf

/-- **The first step of a trail.** A trail leads from a loaded record to one that the
relation of a node yields, and goes on from what that node attaches. -/
theorem reaches_load_cons {context : Context} {entity name : String} {record related : Record}
    {tree : InclusionTree} {chain : List Ancestor} {rest : Trail} {last : Hydrated} :
    (load context entity record tree chain).Reaches ((name, related) :: rest) last
      ↔ ∃ node ∈ tree, node.relation.source = entity ∧ node.name = name
          ∧ related ∈ node.relation.yields context.schema context.view record
          ∧ (loadStep context (⟨entity, record.key⟩ :: chain) node related).Reaches rest last := by
  constructor
  · intro reaches
    obtain ⟨value, entry, child, isChild, sameRecord, below⟩ := reaches
    obtain ⟨node, member, ofType, isEntry⟩ := mem_relations_load.1 entry
    obtain ⟨sameName, rfl⟩ := Prod.mk.inj isEntry
    rw [toList_entry] at isChild
    obtain ⟨found, yielded, rfl⟩ := List.mem_map.1 isChild
    rw [record_loadStep] at sameRecord
    subst sameRecord
    exact ⟨node, member, ofType, sameName.symm, yielded, below⟩
  · intro holds
    rcases holds with ⟨node, member, ofType, rfl, yielded, below⟩
    refine ⟨_, mem_relations_load.2 ⟨node, member, ofType, rfl⟩,
      loadStep context (⟨entity, record.key⟩ :: chain) node related, ?_,
      record_loadStep _ _ _ _, below⟩
    rw [toList_entry]
    exact List.mem_map_of_mem yielded

end Hydration

end EagerLoad
