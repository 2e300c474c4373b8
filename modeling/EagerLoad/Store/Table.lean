import Std.Data.HashMap
import EagerLoad.Store.Record

/-!
Contract: the records of one type.

Owns: tables as lists of records with one record a key, in order of first insertion, and
the same tables as arrays with the position of every key beside them.

Does not own: which type a table is of (`Store/Basic.lean`).

`Table.put` and `Table.get?` search a list and say what is stored and found.
`IndexedTable` is what a store keeps: it finds a record by the position of its key. That
the positions are those of the records is part of an indexed table, and each operation on
it does to its records what the operation on lists does.
-/

set_option autoImplicit false

namespace EagerLoad

/-- The records of one type in order of the first insertion of their keys. -/
abbrev Table := List Record

namespace Table

/-- Stores a record, in place of the one with its key if there is one. -/
def put (record : Record) : Table → Table
  | [] => [record]
  | other :: rest => if other.key = record.key then record :: rest else other :: put record rest

def get? (table : Table) (key : RecordKey) : Option Record :=
  table.find? fun record => decide (record.key = key)

def keys (table : Table) : List RecordKey := table.map Record.key

@[simp] theorem keys_nil : keys [] = [] := rfl

@[simp] theorem keys_cons (record : Record) (rest : Table) :
    keys (record :: rest) = record.key :: keys rest := rfl

@[simp] theorem get?_put_self (table : Table) (record : Record) :
    (put record table).get? record.key = some record := by
  induction table with
  | nil => simp [put, get?]
  | cons other rest inductionHypothesis =>
    unfold put
    by_cases same : other.key = record.key
    · simp [same, get?]
    · rw [if_neg same]
      simpa [get?, same] using inductionHypothesis

theorem get?_put_of_ne (table : Table) (record : Record) {key : RecordKey}
    (distinct : record.key ≠ key) : (put record table).get? key = table.get? key := by
  induction table with
  | nil => simp [put, get?, distinct]
  | cons other rest inductionHypothesis =>
    unfold put
    by_cases same : other.key = record.key
    · have otherDistinct : other.key ≠ key := by rw [same]; exact distinct
      simp [same, get?, distinct]
    · rw [if_neg same]
      by_cases found : other.key = key
      · simp [get?, found]
      · simpa [get?, found] using inductionHypothesis

/-- Storing a record keeps the keys in order; a key that was not there comes last. -/
theorem keys_put (table : Table) (record : Record) :
    (put record table).keys
      = if record.key ∈ table.keys then table.keys else table.keys ++ [record.key] := by
  induction table with
  | nil => simp [put]
  | cons other rest inductionHypothesis =>
    unfold put
    by_cases same : other.key = record.key
    · simp [same]
    · have distinct : record.key ≠ other.key := fun equal => same equal.symm
      rw [if_neg same, keys_cons, inductionHypothesis]
      by_cases known : record.key ∈ keys rest
      · simp [known]
      · simp [known, distinct]

theorem mem_of_get? {table : Table} {key : RecordKey} {record : Record}
    (found : table.get? key = some record) : record ∈ table :=
  List.mem_of_find?_eq_some found

/-- A record whose key is new goes to the end. -/
theorem put_of_not_mem {table : Table} {record : Record} (unknown : record.key ∉ table.keys) :
    put record table = table ++ [record] := by
  induction table with
  | nil => rfl
  | cons other rest inductionHypothesis =>
    rw [keys_cons, List.mem_cons, not_or] at unknown
    unfold put
    rw [if_neg (fun same => unknown.1 same.symm), inductionHypothesis unknown.2]
    rfl

/-- A record whose key is at a position goes there. -/
theorem put_of_getElem? {table : Table} {record : Record} {position : Nat}
    (distinct : table.keys.Nodup) (known : table.keys[position]? = some record.key) :
    put record table = table.set position record := by
  induction table generalizing position with
  | nil => simp at known
  | cons other rest inductionHypothesis =>
    obtain ⟨fresh, restDistinct⟩ := List.nodup_cons.1 distinct
    unfold put
    cases position with
    | zero =>
      have same : other.key = record.key := Option.some.inj known
      rw [if_pos same]
      rfl
    | succ position =>
      have restKnown : (keys rest)[position]? = some record.key := known
      have differs : other.key ≠ record.key := by
        intro same
        rw [same] at fresh
        exact fresh (List.mem_of_getElem? restKnown)
      rw [if_neg differs, inductionHypothesis restDistinct restKnown]
      rfl

/-- With one record a key, the record of a key is the one at the position of the key. -/
theorem get?_of_getElem? {table : Table} {key : RecordKey} {position : Nat}
    (distinct : table.keys.Nodup) (known : table.keys[position]? = some key) :
    table.get? key = table[position]? := by
  induction table generalizing position with
  | nil => simp at known
  | cons other rest inductionHypothesis =>
    obtain ⟨fresh, restDistinct⟩ := List.nodup_cons.1 distinct
    cases position with
    | zero =>
      have same : other.key = key := Option.some.inj known
      simp [get?, same]
    | succ position =>
      have restKnown : (keys rest)[position]? = some key := known
      have differs : other.key ≠ key := by
        intro same
        rw [same] at fresh
        exact fresh (List.mem_of_getElem? restKnown)
      simpa [get?, differs] using inductionHypothesis restDistinct restKnown

theorem get?_eq_none_iff {table : Table} {key : RecordKey} :
    table.get? key = none ↔ key ∉ table.keys := by
  unfold get? keys
  rw [List.find?_eq_none, List.mem_map]
  constructor
  · intro absent member
    obtain ⟨record, isRecord, same⟩ := member
    exact absent record isRecord (decide_eq_true same)
  · intro absent record isRecord same
    exact absent ⟨record, isRecord, of_decide_eq_true same⟩

end Table

/-- A table with the position of every key. The position of a key is that of the record
with this key. -/
structure IndexedTable where
  records : Array Record
  positions : Std.HashMap RecordKey Nat
  located : ∀ key position,
    positions[key]? = some position ↔ records[position]?.map Record.key = some key

namespace IndexedTable

def empty : IndexedTable where
  records := #[]
  positions := ∅
  located key position := by
    rw [Std.HashMap.getElem?_empty, Array.getElem?_empty]
    exact ⟨nofun, nofun⟩

theorem located_set {records : Array Record} {positions : Std.HashMap RecordKey Nat}
    (located : ∀ key position,
      positions[key]? = some position ↔ records[position]?.map Record.key = some key)
    {record : Record} {place : Nat} (found : positions[record.key]? = some place) :
    ∀ key position, positions[key]? = some position
      ↔ (records.setIfInBounds place record)[position]?.map Record.key = some key := by
  intro key position
  have atPlace := (located record.key place).1 found
  have sameKeys : (records.setIfInBounds place record)[position]?.map Record.key
      = records[position]?.map Record.key := by
    rw [Array.getElem?_setIfInBounds]
    by_cases isPlace : place = position
    · subst isPlace
      rw [if_pos rfl, atPlace]
      split
      · rfl
      · rename_i beyond
        rw [Array.getElem?_eq_none (Nat.le_of_not_lt beyond)] at atPlace
        cases atPlace
    · rw [if_neg isPlace]
  rw [located, sameKeys]

theorem located_push {records : Array Record} {positions : Std.HashMap RecordKey Nat}
    (located : ∀ key position,
      positions[key]? = some position ↔ records[position]?.map Record.key = some key)
    {record : Record} (absent : positions[record.key]? = none) :
    ∀ key position, (positions.insert record.key records.size)[key]? = some position
      ↔ (records.push record)[position]?.map Record.key = some key := by
  intro key position
  rw [Std.HashMap.getElem?_insert, Array.getElem?_push]
  by_cases same : record.key = key <;> by_cases isLast : position = records.size
  · simp [same, isLast]
  · have elsewhere := located key position
    rw [← same, absent] at elsewhere
    rw [same] at elsewhere
    simpa [same, isLast, Ne.symm isLast] using elsewhere
  · have elsewhere := located key position
    rw [isLast, Array.getElem?_eq_none (Nat.le_refl _)] at elsewhere
    simpa [same, isLast] using elsewhere
  · have elsewhere := located key position
    simpa [same, isLast] using elsewhere

/-- Stores a record, in place of the one with its key if there is one, else at the end. -/
def put (record : Record) (table : IndexedTable) : IndexedTable :=
  match found : table.positions[record.key]? with
  | some position =>
      { records := table.records.setIfInBounds position record
        positions := table.positions
        located := located_set table.located found }
  | none =>
      { records := table.records.push record
        positions := table.positions.insert record.key table.records.size
        located := located_push table.located found }

/-- The record at the position of a key. -/
def get? (table : IndexedTable) (key : RecordKey) : Option Record :=
  table.positions[key]?.bind fun position => table.records[position]?

def toTable (table : IndexedTable) : Table := table.records.toList

theorem getElem?_keys (table : IndexedTable) (position : Nat) :
    table.toTable.keys[position]? = table.records[position]?.map Record.key := by
  unfold toTable Table.keys
  rw [List.getElem?_map, Array.getElem?_toList]

theorem getElem?_keys_iff (table : IndexedTable) (key : RecordKey) (position : Nat) :
    table.toTable.keys[position]? = some key ↔ table.positions[key]? = some position := by
  rw [getElem?_keys, table.located]

theorem mem_keys_iff (table : IndexedTable) (key : RecordKey) :
    key ∈ table.toTable.keys ↔ ∃ position, table.positions[key]? = some position := by
  rw [List.mem_iff_getElem?]
  exact exists_congr fun position => table.getElem?_keys_iff key position

/-- No key has two positions, so no two records have one key. -/
theorem nodup_keys (table : IndexedTable) : table.toTable.keys.Nodup := by
  rw [List.Nodup, List.pairwise_iff_getElem]
  intro first second firstLt secondLt inOrder same
  have atFirst := (table.getElem?_keys_iff _ first).1 (List.getElem?_eq_getElem firstLt)
  have atSecond := (table.getElem?_keys_iff _ second).1 (List.getElem?_eq_getElem secondLt)
  rw [same, atSecond] at atFirst
  exact Nat.ne_of_gt inOrder (Option.some.inj atFirst)

/-- To store a record does to the list of records what storing in a list does. -/
@[simp] theorem toTable_put (table : IndexedTable) (record : Record) :
    (table.put record).toTable = table.toTable.put record := by
  unfold put
  split
  · rename_i position found
    have known := (table.getElem?_keys_iff record.key position).2 found
    rw [Table.put_of_getElem? table.nodup_keys known]
    exact Array.toList_setIfInBounds
  · rename_i absent
    have unknown : record.key ∉ table.toTable.keys := by
      rw [mem_keys_iff, absent]
      intro found
      obtain ⟨_, impossible⟩ := found
      cases impossible
    rw [Table.put_of_not_mem unknown]
    exact Array.toList_push

/-- The record at the position of a key is the one that a search of the list finds. -/
theorem get?_eq (table : IndexedTable) (key : RecordKey) :
    table.get? key = table.toTable.get? key := by
  unfold get?
  cases found : table.positions[key]? with
  | none =>
    have unknown : key ∉ table.toTable.keys := by
      rw [mem_keys_iff, found]
      intro known
      obtain ⟨_, impossible⟩ := known
      cases impossible
    exact (Table.get?_eq_none_iff.2 unknown).symm
  | some position =>
    have known := (table.getElem?_keys_iff key position).2 found
    rw [Table.get?_of_getElem? table.nodup_keys known]
    exact Array.getElem?_toList.symm

end IndexedTable

end EagerLoad
