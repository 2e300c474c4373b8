import EagerLoad.Store.Error
import EagerLoad.Store.Table

/-!
Contract: records in memory, by type.

Owns: the store that holds a table a type, and the view of a store that loading works
on. That types are distinct is part of a store, and storing keeps it.

Does not own: the tables (`Store/Table.lean`), and which types may be stored
(`Graph.lean`).
-/

set_option autoImplicit false

namespace EagerLoad

/-- What loading needs to know of stored records: the table of a type, and the
record of a type with a given key, which is one of the table. -/
structure RecordView where
  records : String → Table
  get? : String → RecordKey → Option Record
  mem_of_get? : ∀ entity key record, get? entity key = some record → record ∈ records entity

namespace RecordView

def count (view : RecordView) (entity : String) : Nat := (view.records entity).length

/-- The records whose field gives a key, in table order. -/
def scanByField (view : RecordView) (entity field : String) (key : RecordKey) : List Record :=
  (view.records entity).filter fun record => decide (record.keyOf field = some key)

end RecordView

namespace Store

def putIn (entity : String) (record : Record) :
    List (String × IndexedTable) → List (String × IndexedTable)
  | [] => [(entity, IndexedTable.empty.put record)]
  | (other, table) :: rest =>
      if other = entity then (other, table.put record) :: rest
      else (other, table) :: putIn entity record rest

/-- Storing a record keeps the types in order; a type that was not there comes last. -/
theorem types_putIn (entity : String) (record : Record) (tables : List (String × IndexedTable)) :
    (putIn entity record tables).map Prod.fst
      = if entity ∈ tables.map Prod.fst then tables.map Prod.fst
        else tables.map Prod.fst ++ [entity] := by
  induction tables with
  | nil => rfl
  | cons entry rest inductionHypothesis =>
    obtain ⟨other, table⟩ := entry
    unfold putIn
    by_cases same : other = entity
    · simp [same]
    · have distinct : entity ≠ other := fun equal => same equal.symm
      rw [if_neg same, List.map_cons, List.map_cons, inductionHypothesis]
      by_cases known : entity ∈ rest.map Prod.fst
      · simp only [known, List.mem_cons, or_true, if_true]
      · simp only [known, distinct, List.mem_cons, or_self, if_false, List.cons_append]

theorem nodup_types_putIn {entity : String} (record : Record)
    {tables : List (String × IndexedTable)} (distinct : (tables.map Prod.fst).Nodup) :
    ((putIn entity record tables).map Prod.fst).Nodup := by
  rw [types_putIn]
  by_cases known : entity ∈ tables.map Prod.fst
  · rw [if_pos known]
    exact distinct
  · rw [if_neg known, (List.perm_append_singleton entity _).nodup_iff]
    exact List.nodup_cons.2 ⟨known, distinct⟩

end Store

/-- Records in memory: one table for each type that a record was stored under. -/
structure Store where
  tables : List (String × IndexedTable) := []
  distinctTypes : (tables.map Prod.fst).Nodup := by exact List.nodup_nil

namespace Store

def records (store : Store) (entity : String) : Table :=
  match store.tables.lookup entity with
  | some table => table.toTable
  | none => []

def get? (store : Store) (entity : String) (key : RecordKey) : Option Record :=
  (store.tables.lookup entity).bind fun table => table.get? key

def count (store : Store) (entity : String) : Nat :=
  match store.tables.lookup entity with
  | some table => table.records.size
  | none => 0

def isEmpty (store : Store) : Bool := store.tables.all fun entry => entry.2.records.isEmpty

def size (store : Store) : Nat :=
  store.tables.foldr (fun entry total => entry.2.records.size + total) 0

def put (store : Store) (entity : String) (record : Record) : Store where
  tables := putIn entity record store.tables
  distinctTypes := nodup_types_putIn record store.distinctTypes

theorem nodup_keys_records (store : Store) (entity : String) :
    (store.records entity).keys.Nodup := by
  unfold records
  split
  · exact IndexedTable.nodup_keys _
  · exact List.nodup_nil

/-- Finding a record by its key is searching the table of the type. -/
theorem get?_eq (store : Store) (entity : String) (key : RecordKey) :
    store.get? entity key = (store.records entity).get? key := by
  unfold get? records
  cases store.tables.lookup entity with
  | none => rfl
  | some table => exact table.get?_eq key

theorem count_eq (store : Store) (entity : String) :
    store.count entity = (store.records entity).length := by
  unfold count records
  cases store.tables.lookup entity with
  | none => rfl
  | some table => rfl

theorem lookup_putIn_self (entity : String) (record : Record)
    (tables : List (String × IndexedTable)) :
    (putIn entity record tables).lookup entity
      = some (((tables.lookup entity).getD .empty).put record) := by
  induction tables with
  | nil => exact List.lookup_cons_self
  | cons entry rest inductionHypothesis =>
    obtain ⟨other, table⟩ := entry
    unfold putIn
    by_cases same : other = entity
    · subst same
      rw [if_pos rfl, List.lookup_cons_self, List.lookup_cons_self, Option.getD_some]
    · have unequal : (entity == other) = false := by simpa using fun equal => same equal.symm
      rw [if_neg same]
      simpa [List.lookup_cons, unequal] using inductionHypothesis

theorem lookup_putIn_of_ne {entity queried : String} (record : Record)
    (tables : List (String × IndexedTable)) (distinct : queried ≠ entity) :
    (putIn entity record tables).lookup queried = tables.lookup queried := by
  induction tables with
  | nil =>
    have unequal : (queried == entity) = false := by simpa using distinct
    simp [putIn, List.lookup_cons, unequal]
  | cons entry rest inductionHypothesis =>
    obtain ⟨other, table⟩ := entry
    unfold putIn
    by_cases same : other = entity
    · subst same
      have unequal : (queried == other) = false := by simpa using distinct
      simp [List.lookup_cons, unequal]
    · rw [if_neg same]
      simp only [List.lookup_cons, inductionHypothesis]

/-- Storing a record stores it in the table of its type. -/
@[simp] theorem records_put_self (store : Store) (entity : String) (record : Record) :
    (store.put entity record).records entity = Table.put record (store.records entity) := by
  unfold records put
  rw [lookup_putIn_self]
  show (IndexedTable.put record _).toTable = _
  rw [IndexedTable.toTable_put]
  cases store.tables.lookup entity with
  | none => rfl
  | some table => rfl

theorem records_put_of_ne (store : Store) {entity queried : String} (record : Record)
    (distinct : queried ≠ entity) :
    (store.put entity record).records queried = store.records queried := by
  unfold records put
  rw [lookup_putIn_of_ne record store.tables distinct]

/-- Stores the record with these fields; its identity field must give a key, which is
looked for before anything is written. -/
def insertFields (store : Store) (entity identityField : String) (fields : Json.Members) :
    Store × Except DataError RecordKey :=
  match Record.keyedBy? identityField fields with
  | some record => (store.put entity record, .ok record.key)
  | none => (store, .error (.missingIdentity entity identityField))

/-- Stores a value as a record; it must be an object. -/
def insert (store : Store) (entity identityField : String) (value : Json.Value) :
    Store × Except DataError RecordKey :=
  match value with
  | .object fields => store.insertFields entity identityField fields
  | value => (store, .error (.recordNotObject entity value))

def view (store : Store) : RecordView where
  records := store.records
  get? := store.get?
  mem_of_get? entity key _ found := Table.mem_of_get? (store.get?_eq entity key ▸ found)

end Store

end EagerLoad
