import EagerLoad.Hydration.Direct

/-!
Contract: the value of a relation on a record, said without the way it is found.

Owns: selections and first records of a table, the records that a forward relation
joins, the value of a relation of every kind, and that it is what a relation yields.

Does not own: which relations of a record are loaded, or how deep.
-/

set_option autoImplicit false

namespace EagerLoad

namespace Table

/-- `chosen` are the records of a table that meet a condition: each once, and in table
order. -/
structure Selects (table : Table) (condition : Record → Prop) (chosen : List Record) : Prop where
  inOrder : List.Sublist chosen table
  once : (keys chosen).Nodup
  member_iff : ∀ record, record ∈ chosen ↔ record ∈ table ∧ condition record

/-- The first record of a table that meets a condition, or none where none does. -/
def IsFirst (table : Table) (condition : Record → Prop) : Option Record → Prop
  | some record => ∃ before after, table = before ++ record :: after ∧ condition record
      ∧ ∀ other ∈ before, ¬ condition other
  | none => ∀ record ∈ table, ¬ condition record

variable {table : Table} {condition : Record → Prop} {test : Record → Bool}

theorem selects_filter (distinct : table.keys.Nodup)
    (decides : ∀ record, test record = true ↔ condition record) :
    table.Selects condition (table.filter test) where
  inOrder := List.filter_sublist
  once := distinct.sublist (List.filter_sublist.map Record.key)
  member_iff record := by rw [List.mem_filter, decides]

theorem selects_nil (never : ∀ record, ¬ condition record) : table.Selects condition [] where
  inOrder := List.nil_sublist table
  once := List.nodup_nil
  member_iff record := ⟨fun member => absurd member List.not_mem_nil,
    fun selected => absurd selected.2 (never record)⟩

theorem isFirst_find? (decides : ∀ record, test record = true ↔ condition record) :
    table.IsFirst condition (table.find? test) := by
  cases found : table.find? test with
  | none =>
      intro record member holds
      exact List.find?_eq_none.1 found record member ((decides record).2 holds)
  | some record =>
      obtain ⟨passes, before, after, split, earlier⟩ := List.find?_eq_some_iff_append.1 found
      refine ⟨before, after, split, (decides record).1 passes, ?_⟩
      intro other member holds
      have failed := earlier other member
      rw [(decides other).2 holds] at failed
      cases failed

theorem isFirst_head?_filter (decides : ∀ record, test record = true ↔ condition record) :
    table.IsFirst condition (table.filter test).head? := by
  rw [List.head?_filter]
  exact isFirst_find? decides

theorem isFirst_none (never : ∀ record, ¬ condition record) : table.IsFirst condition none :=
  fun record _ => never record

end Table

namespace Relation

/-- A forward relation joins `other` to `record`: the foreign key of `other` is the key
of `record`, or that of its local key field where the relation names one. -/
def Joins (relation : Relation) (record other : Record) : Prop :=
  ∃ key, other.keyOf relation.foreignKey = some key
    ∧ match relation.localKey with
      | none => key = record.key
      | some field => record.keyOf field = some key

/-- The value of a relation on a record.

A `belongsTo` relation with an owner key other than the identity field of its target
finds the owner by that field, and any other one by the key it is stored under. -/
inductive Value (schema : Schema) (store : Store) (relation : Relation) (record : Record) :
    Attached Record → Prop
  | dependents {chosen : List Record} (kind : relation.kind = .oneToMany)
      (selected : (store.records relation.target).Selects (relation.Joins record) chosen) :
      Value schema store relation record (.many chosen)
  | dependent {found : Option Record} (kind : relation.kind = .oneToOne)
      (first : (store.records relation.target).IsFirst (relation.Joins record) found) :
      Value schema store relation record (.one found)
  | noOwner (kind : relation.kind = .belongsTo)
      (keyless : record.keyOf relation.foreignKey = none) :
      Value schema store relation record (.one none)
  | ownerByField {key : RecordKey} {field : String} {found : Option Record}
      (kind : relation.kind = .belongsTo)
      (foreign : record.keyOf relation.foreignKey = some key)
      (named : relation.ownerKey = some field)
      (notIdentity : field ≠ schema.identityField relation.target)
      (first : (store.records relation.target).IsFirst (fun owner => owner.keyOf field = some key)
        found) :
      Value schema store relation record (.one found)
  | ownerByKey {key : RecordKey} {found : Option Record} (kind : relation.kind = .belongsTo)
      (foreign : record.keyOf relation.foreignKey = some key)
      (identity : ∀ field, relation.ownerKey = some field →
        field = schema.identityField relation.target)
      (first : (store.records relation.target).IsFirst (fun owner => owner.key = key) found) :
      Value schema store relation record (.one found)

theorem joins_iff {relation : Relation} {record other : Record} {key : RecordKey}
    (isKey : relation.forwardKey? record = some key) :
    decide (other.keyOf relation.foreignKey = some key) = true ↔ relation.Joins record other := by
  unfold forwardKey? at isKey
  unfold Joins
  rw [decide_eq_true_eq]
  cases isLocal : relation.localKey with
  | none =>
      rw [isLocal] at isKey
      cases isKey
      exact ⟨fun holds => ⟨_, holds, rfl⟩, fun ⟨_, holds, same⟩ => same ▸ holds⟩
  | some field =>
      rw [isLocal] at isKey
      refine ⟨fun holds => ⟨key, holds, isKey⟩, ?_⟩
      intro holds
      rcases holds with ⟨other, holds, same⟩
      rw [holds, ← same]
      exact isKey

theorem not_joins {relation : Relation} {record : Record}
    (keyless : relation.forwardKey? record = none) (other : Record) :
    ¬ relation.Joins record other := by
  intro holds
  rcases holds with ⟨key, _, same⟩
  unfold forwardKey? at keyless
  cases isLocal : relation.localKey with
  | none =>
      rw [isLocal] at keyless
      cases keyless
  | some field =>
      rw [isLocal] at keyless same
      have sameKey : record.keyOf field = some key := same
      have noKey : record.keyOf field = none := keyless
      rw [noKey] at sameKey
      cases sameKey

/-- **A relation yields its value.** -/
theorem value_yields (schema : Schema) (store : Store) (relation : Relation) (record : Record) :
    relation.Value schema store record
      (Attached.ofList relation.kind (relation.yields schema store.view record)) := by
  unfold yields related
  cases kind : relation.kind with
  | oneToMany =>
      show relation.Value schema store record (.many (relation.dependents (m := Id) _ record))
      unfold dependents
      apply Value.dependents kind
      cases isKey : relation.forwardKey? record with
      | none => exact Table.selects_nil (not_joins isKey)
      | some key =>
          exact Table.selects_filter (store.nodup_keys_records relation.target)
            fun other => joins_iff isKey
  | oneToOne =>
      show relation.Value schema store record
        (.one ((relation.dependents (m := Id) _ record : List Record).take 1).head?)
      unfold dependents
      apply Value.dependent kind
      cases isKey : relation.forwardKey? record with
      | none => exact Table.isFirst_none (not_joins isKey)
      | some key =>
          rw [List.head?_take]
          exact Table.isFirst_head?_filter fun other => joins_iff isKey
  | belongsTo =>
      show relation.Value schema store record
        (.one (Option.toList (relation.owner? (m := Id) schema store.view _ record)).head?)
      rw [Option.head?_toList]
      unfold owner?
      cases foreign : record.keyOf relation.foreignKey with
      | none => exact .noOwner kind foreign
      | some key =>
          have stored : (store.records relation.target).IsFirst (fun owner => owner.key = key)
              (store.get? relation.target key) := by
            rw [Store.get?_eq]
            exact Table.isFirst_find? fun owner => decide_eq_true_iff
          cases named : relation.ownerKey with
          | none =>
              refine .ownerByKey kind foreign ?_ stored
              intro field isNamed
              rw [named] at isNamed
              cases isNamed
          | some field =>
              show relation.Value schema store record
                (.one (if field = schema.identityField relation.target then
                    store.get? relation.target key
                  else (store.view.scanByField relation.target field key).head?))
              by_cases identity : field = schema.identityField relation.target
              · rw [if_pos identity]
                refine .ownerByKey kind foreign ?_ stored
                intro other isNamed
                rw [named] at isNamed
                cases isNamed
                exact identity
              · rw [if_neg identity]
                exact .ownerByField kind foreign named identity
                  (Table.isFirst_head?_filter fun owner => decide_eq_true_iff)

end Relation

end EagerLoad
