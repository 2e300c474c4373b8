import EagerLoad.Store.Basic
import Mathlib.Data.List.Induction
import Mathlib.Data.List.Nodup

/-!
Contract: what a store holds after any calls that store into it.

Owns: the calls and the record that each of them writes, what a table holds after some
writes, and the agreement of a store with the writes to each type, whatever calls were
refused in between.

Does not own: the agreement of positions with records (`Store/Table.lean`), or calls that
check the type first (`Graph.lean`).

Authority boundary: `Table.Holds` speaks of the list of writes only: keys in the order in which
they were written first, and under each of them the record that was written last. It does not say
how a table gets there.
-/

set_option autoImplicit false

namespace EagerLoad

open Json (Value Members)

/-! ## Tables and the records written to them -/

/-- One more item changes the first occurrences only if it is new. -/
theorem eraseDups_concat {α : Type} [DecidableEq α] (items : List α) (item : α) :
    (items ++ [item]).eraseDups
      = if item ∈ items.eraseDups then items.eraseDups else items.eraseDups ++ [item] := by
  rw [List.eraseDups_append, List.removeAll, List.filter_singleton]
  by_cases known : item ∈ items
  · rw [if_pos (List.mem_eraseDups.2 known), List.elem_eq_true_of_mem known]
    exact List.append_nil _
  · rw [if_neg (mt List.mem_eraseDups.1 known), Bool.eq_false_iff.2 (mt List.elem_iff.1 known)]
    rfl

namespace Table

theorem get?_eq_some_iff {table : Table} (distinct : table.keys.Nodup) {key : RecordKey}
    {record : Record} : table.get? key = some record ↔ record ∈ table ∧ record.key = key := by
  constructor
  · intro found
    have passes := List.find?_some (show List.find? _ table = some record from found)
    exact ⟨mem_of_get? found, of_decide_eq_true passes⟩
  · intro stored
    obtain ⟨member, rfl⟩ := stored
    obtain ⟨position, isAt⟩ := List.mem_iff_getElem?.1 member
    have known : table.keys[position]? = some record.key := by
      unfold keys
      rw [List.getElem?_map, isAt]
      rfl
    rw [get?_of_getElem? distinct known, isAt]

theorem nodup_keys_put {table : Table} (record : Record) (distinct : table.keys.Nodup) :
    (put record table).keys.Nodup := by
  rw [keys_put]
  by_cases known : record.key ∈ table.keys
  · rw [if_pos known]
    exact distinct
  · rw [if_neg known]
    simpa using distinct.concat known

/-- To store a record leaves the records of other keys, in their order. -/
theorem filter_put (table : Table) (record : Record) :
    (put record table).filter (fun other => other.key ≠ record.key)
      = table.filter fun other => other.key ≠ record.key := by
  induction table with
  | nil => simp [put]
  | cons other rest inductionHypothesis =>
      unfold put
      by_cases same : other.key = record.key
      · simp [same]
      · rw [if_neg same, List.filter_cons, List.filter_cons, inductionHypothesis]

theorem mem_put_iff {table : Table} (distinct : table.keys.Nodup) {record other : Record} :
    other ∈ put record table ↔ other = record ∨ other ∈ table ∧ other.key ≠ record.key := by
  constructor
  · intro member
    by_cases same : other.key = record.key
    · have found := (get?_eq_some_iff (nodup_keys_put record distinct)).2 ⟨member, same⟩
      rw [get?_put_self] at found
      exact .inl (Option.some.inj found).symm
    · have kept : other ∈ (put record table).filter fun other => other.key ≠ record.key :=
        List.mem_filter.2 ⟨member, decide_eq_true same⟩
      rw [filter_put] at kept
      exact .inr ⟨(List.mem_filter.1 kept).1, same⟩
  · rintro (rfl | ⟨member, differs⟩)
    · exact mem_of_get? (get?_put_self table other)
    · have kept : other ∈ (put record table).filter fun other => other.key ≠ record.key := by
        rw [filter_put]
        exact List.mem_filter.2 ⟨member, decide_eq_true differs⟩
      exact List.mem_of_mem_filter kept

@[simp] theorem isEmpty_put (table : Table) (record : Record) :
    (put record table).isEmpty = false := by
  cases table with
  | nil => rfl
  | cons other rest =>
      unfold put
      split <;> rfl

/-- The last of some written records that has the key of this one is this one. -/
def IsLast (written : List Record) (record : Record) : Prop :=
  ∃ before after, written = before ++ record :: after ∧ ∀ later ∈ after, later.key ≠ record.key

/-- A table holds what was written to it: each key once, in the order in which the keys were
first written, and under it the record that was last written. -/
structure Holds (table : Table) (written : List Record) : Prop where
  keys : table.keys = (written.map Record.key).eraseDups
  last : ∀ record ∈ table, IsLast written record

theorem holds_nil : Holds [] [] where
  keys := rfl
  last _ member := absurd member List.not_mem_nil

namespace Holds

variable {table : Table} {written : List Record}

theorem mem_written (holds : table.Holds written) {record : Record} (member : record ∈ table) :
    record ∈ written := by
  obtain ⟨before, after, split, _⟩ := holds.last record member
  rw [split]
  exact List.mem_append_right _ List.mem_cons_self

/-- One more write: its key keeps its place or comes last, and its record is the last of the
key. -/
theorem put (holds : table.Holds written) (distinct : table.keys.Nodup) (record : Record) :
    (Table.put record table).Holds (written ++ [record]) := by
  constructor
  · rw [keys_put, holds.keys, List.map_append, List.map_singleton, eraseDups_concat]
  · intro other member
    rcases (mem_put_iff distinct).1 member with rfl | ⟨stored, differs⟩
    · exact ⟨written, [], rfl, fun _ later => absurd later List.not_mem_nil⟩
    · obtain ⟨before, after, split, isLast⟩ := holds.last other stored
      refine ⟨before, after ++ [record], ?_, ?_⟩
      · rw [split, List.append_assoc]
        rfl
      · intro later isLater
        rcases List.mem_append.1 isLater with earlier | isRecord
        · exact isLast later earlier
        · rw [List.mem_singleton.1 isRecord]
          exact differs.symm

end Holds

end Table

/-! ## Calls -/

namespace Store

/-- A call that stores under a type, by an identity field: the fields of a record, or a value. -/
inductive Call where
  | ofFields (entity identityField : String) (fields : Members)
  | ofValue (entity identityField : String) (value : Value)

namespace Call

def entity : Call → String
  | .ofFields entity _ _ => entity
  | .ofValue entity _ _ => entity

def identityField : Call → String
  | .ofFields _ identityField _ => identityField
  | .ofValue _ identityField _ => identityField

def content : Call → Value
  | .ofFields _ _ fields => .object fields
  | .ofValue _ _ value => value

def run (store : Store) : Call → Store × Except DataError RecordKey
  | .ofFields entity identityField fields => store.insertFields entity identityField fields
  | .ofValue entity identityField value => store.insert entity identityField value

/-- A call writes a record: its content is an object with the fields of the record, and the
identity field is there, holds the identity of the record and gives its key. -/
structure Writes (call : Call) (record : Record) : Prop where
  isObject : call.content = .object record.fields
  identity : record.fields.get? call.identityField = some record.identity
  key : RecordKey.ofValue? record.identity = some record.key

def record? (call : Call) : Option Record :=
  match call.content with
  | .object fields => Record.keyedBy? call.identityField fields
  | _ => none

theorem record?_eq_some_iff {call : Call} {record : Record} :
    call.record? = some record ↔ call.Writes record := by
  unfold record?
  constructor
  · intro isRecord
    split at isRecord
    · rename_i fields isObject
      unfold Record.keyedBy? at isRecord
      simp only [bind, Option.bind_eq_some_iff] at isRecord
      obtain ⟨identity, isIdentity, key, isKey, same⟩ := isRecord
      cases same
      exact ⟨isObject, isIdentity, isKey⟩
    · cases isRecord
  · intro writes
    rw [writes.isObject]
    simp only [Record.keyedBy?, bind, writes.identity, writes.key, Option.bind_some]

theorem not_writes_of_record?_eq_none {call : Call} (noRecord : call.record? = none)
    (record : Record) : ¬ call.Writes record := by
  intro writes
  rw [record?_eq_some_iff.2 writes] at noRecord
  cases noRecord

/-- Why a call that has no record to write is refused. -/
def refusal (call : Call) : DataError :=
  match call.content with
  | .object _ => .missingIdentity call.entity call.identityField
  | value => .recordNotObject call.entity value

/-- A call stores its record; where it has none it is refused, and hands back the store that it
was given. -/
theorem run_eq (store : Store) (call : Call) :
    call.run store
      = match call.record? with
        | some record => (store.put call.entity record, .ok record.key)
        | none => (store, .error call.refusal) := by
  cases call with
  | ofFields entity identityField fields => rfl
  | ofValue entity identityField value => cases value <;> rfl

/-- The store that a call hands back, whether it was refused or not. -/
def perform (store : Store) (call : Call) : Store := (call.run store).1

theorem perform_of_record? {call : Call} {record : Record} (isRecord : call.record? = some record)
    (store : Store) : call.perform store = store.put call.entity record := by
  rw [perform, run_eq, isRecord]

theorem perform_of_none {call : Call} (noRecord : call.record? = none) (store : Store) :
    call.perform store = store := by
  rw [perform, run_eq, noRecord]

/-- What a call does. It stores its record under the key of the record, in the table of its type,
and nothing else changes; or it has no record, is refused, and nothing changes at all. -/
inductive Performs (store : Store) (call : Call) : Store → Prop
  | stores {record : Record} {next : Store} (writes : call.Writes record)
      (succeeds : call.run store = (next, .ok record.key))
      (found : next.get? call.entity record.key = some record)
      (otherKeys : (next.records call.entity).filter (fun other => other.key ≠ record.key)
        = (store.records call.entity).filter fun other => other.key ≠ record.key)
      (otherTypes : ∀ entity, entity ≠ call.entity → next.records entity = store.records entity) :
      Performs store call next
  | refused (writesNothing : ∀ record, ¬ call.Writes record)
      (fails : call.run store = (store, .error call.refusal)) : Performs store call store

theorem performs_perform (store : Store) (call : Call) :
    call.Performs store (call.perform store) := by
  cases isRecord : call.record? with
  | none =>
      rw [perform_of_none isRecord]
      refine .refused (not_writes_of_record?_eq_none isRecord) ?_
      rw [run_eq, isRecord]
  | some record =>
      rw [perform_of_record? isRecord]
      refine .stores (record?_eq_some_iff.1 isRecord) ?_ ?_ ?_ ?_
      · rw [run_eq, isRecord]
      · rw [get?_eq, records_put_self, Table.get?_put_self]
      · rw [records_put_self, Table.filter_put]
      · intro entity differs
        exact records_put_of_ne store record differs

end Call

/-! ## After any calls -/

/-- The store after some calls, one after the other, from an empty one. -/
def after (calls : List Call) : Store :=
  calls.foldl (fun store call => call.perform store) {}

/-- The records that some calls write to a type, in order. -/
def written (calls : List Call) (entity : String) : List Record :=
  (calls.filter fun call => call.entity = entity).filterMap Call.record?

theorem mem_written {calls : List Call} {entity : String} {record : Record} :
    record ∈ written calls entity ↔ ∃ call ∈ calls, call.entity = entity ∧ call.Writes record := by
  unfold written
  rw [List.mem_filterMap]
  constructor
  · intro isWritten
    obtain ⟨call, member, isRecord⟩ := isWritten
    obtain ⟨isCall, ofType⟩ := List.mem_filter.1 member
    exact ⟨call, isCall, of_decide_eq_true ofType, Call.record?_eq_some_iff.1 isRecord⟩
  · intro isWritten
    obtain ⟨call, isCall, ofType, writes⟩ := isWritten
    exact ⟨call, List.mem_filter.2 ⟨isCall, decide_eq_true ofType⟩,
      Call.record?_eq_some_iff.2 writes⟩

theorem after_concat (calls : List Call) (call : Call) :
    after (calls ++ [call]) = call.perform (after calls) :=
  List.foldl_concat _ _ _ _

theorem written_concat (calls : List Call) (call : Call) (entity : String) :
    written (calls ++ [call]) entity
      = written calls entity ++ if call.entity = entity then call.record?.toList else [] := by
  unfold written
  rw [List.filter_append, List.filterMap_append, List.filter_singleton]
  by_cases same : call.entity = entity
  · rw [if_pos same, decide_eq_true same]
    cases isRecord : call.record? with
    | none => exact congrArg _ (List.filterMap_cons_none isRecord)
    | some record => exact congrArg _ (List.filterMap_cons_some isRecord)
  · rw [if_neg same, decide_eq_false same]
    rfl

/-- What one call keeps: the table of every type holds what was written to the type. -/
theorem holds_perform {store : Store} {entity : String} {records : List Record}
    (holds : (store.records entity).Holds records) (call : Call) :
    ((call.perform store).records entity).Holds
      (records ++ if call.entity = entity then call.record?.toList else []) := by
  cases isRecord : call.record? with
  | none =>
      rw [Call.perform_of_none isRecord, Option.toList_none, ite_self, List.append_nil]
      exact holds
  | some record =>
      rw [Call.perform_of_record? isRecord, Option.toList_some]
      by_cases same : call.entity = entity
      · subst same
        rw [if_pos rfl, records_put_self]
        exact holds.put (store.nodup_keys_records _) record
      · rw [if_neg same, List.append_nil, records_put_of_ne store record (Ne.symm same)]
        exact holds

theorem holds_after (calls : List Call) (entity : String) :
    ((after calls).records entity).Holds (written calls entity) := by
  induction calls using List.reverseRecOn with
  | nil => exact Table.holds_nil
  | append_singleton earlier call inductionHypothesis =>
      rw [after_concat, written_concat]
      exact holds_perform inductionHypothesis call

theorem isEmpty_put (store : Store) (entity : String) (record : Record) :
    (store.put entity record).isEmpty = false := by
  have notEmpty : ∀ table : IndexedTable, (table.put record).records.isEmpty = false := by
    intro table
    rw [← Array.isEmpty_toList]
    show (table.put record).toTable.isEmpty = false
    rw [IndexedTable.toTable_put, Table.isEmpty_put]
  unfold isEmpty put
  show (putIn entity record store.tables).all _ = false
  induction store.tables with
  | nil => simp [putIn, notEmpty]
  | cons entry rest inductionHypothesis =>
      obtain ⟨other, table⟩ := entry
      unfold putIn
      by_cases same : other = entity
      · simp [same, notEmpty]
      · rw [if_neg same, List.all_cons, inductionHypothesis, Bool.and_false]

theorem isEmpty_after_iff (calls : List Call) :
    (after calls).isEmpty = true ↔ ∀ call ∈ calls, ∀ record, ¬ call.Writes record := by
  induction calls using List.reverseRecOn with
  | nil => simp [after, isEmpty]
  | append_singleton earlier call inductionHypothesis =>
      rw [after_concat, List.forall_mem_append, List.forall_mem_singleton]
      cases isRecord : call.record? with
      | none =>
          rw [Call.perform_of_none isRecord, inductionHypothesis,
            and_iff_left (Call.not_writes_of_record?_eq_none isRecord)]
      | some record =>
          rw [Call.perform_of_record? isRecord, isEmpty_put]
          constructor
          · intro impossible
            cases impossible
          · intro writeNothing
            exact absurd (Call.record?_eq_some_iff.1 isRecord) (writeNothing.2 record)

theorem get?_eq_some_iff {store : Store} {entity : String} {key : RecordKey} {record : Record} :
    store.get? entity key = some record
      ↔ record ∈ store.records entity ∧ record.key = key := by
  rw [get?_eq, Table.get?_eq_some_iff (store.nodup_keys_records entity)]

/-- **A store is a map from keys to records, in order of insertion.** After any calls, refused ones
among them, the table of every type lists each key once, in the order of its first write and with
its last record; a look-up finds the listed record of a key and nothing else; all counts agree; and
the store is empty if and only if nothing was written. One more call changes its own key of its own
type, and a call that has no record to write changes nothing. -/
theorem after_refines_map (calls : List Call) :
    (∀ entity, ((after calls).records entity).Holds (written calls entity)
        ∧ (∀ key record, (after calls).get? entity key = some record
            ↔ record ∈ (after calls).records entity ∧ record.key = key)
        ∧ (after calls).count entity = ((after calls).records entity).length
        ∧ (after calls).view.count entity = ((after calls).records entity).length)
      ∧ ((after calls).isEmpty = true ↔ ∀ call ∈ calls, ∀ record, ¬ call.Writes record)
      ∧ ∀ call : Call, call.Performs (after calls) (after (calls ++ [call])) := by
  refine ⟨?_, isEmpty_after_iff calls, ?_⟩
  · intro entity
    exact ⟨holds_after calls entity, fun key record => get?_eq_some_iff,
      count_eq _ entity, rfl⟩
  · intro call
    rw [after_concat]
    exact call.performs_perform (after calls)

end Store

end EagerLoad
