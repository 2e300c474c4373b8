import EagerLoad.Graph
import EagerLoad.Proofs.Store.History

/-!
Contract: the items of a document, and what single insertions make of a graph.

Owns: the items in the order in which they are looked at, which of them a schema accepts and why
the others are refused, and what successive insertions of records change and leave alone.

Does not own: what a load makes of the items (`Graph/Loading.lean`), or what a store holds after
calls that know of no schema (`Store/History.lean`).

Authority boundary: `Item.Accepted` and `Item.Refused` speak of a schema and one item. They know
nothing of the store, or of the items before.
-/

set_option autoImplicit false

namespace EagerLoad

open Json (Value Members)

/-! ## Records of a type -/

/-- A value that can identify a record: a text, a number or a flag. -/
inductive Identifies : Value → Prop
  | string (text : String) : Identifies (.string text)
  | number (content : Json.Number) : Identifies (.number content)
  | bool (flag : Bool) : Identifies (.bool flag)

theorem identifies_iff {value : Value} :
    Identifies value ↔ ∃ key, RecordKey.ofValue? value = some key := by
  constructor
  · intro identifies
    cases identifies with
    | string text => exact ⟨_, rfl⟩
    | number content => exact ⟨_, rfl⟩
    | bool flag => cases flag <;> exact ⟨_, rfl⟩
  · intro hasKey
    obtain ⟨key, isKey⟩ := hasKey
    cases value with
    | null | array _ | object _ => cases isKey
    | bool flag => exact .bool flag
    | number content => exact .number content
    | string text => exact .string text

/-- An object that holds a usable identity under the identity field. -/
def IsRecord (identityField : String) (value : Value) : Prop :=
  ∃ fields identity, value = .object fields ∧ Members.get? fields identityField = some identity
    ∧ Identifies identity

theorem isRecord_iff {entity identityField : String} {value : Value} :
    IsRecord identityField value
      ↔ ∃ record, (Store.Call.ofValue entity identityField value).Writes record := by
  constructor
  · intro isRecord
    obtain ⟨fields, identity, isObject, found, identifies⟩ := isRecord
    obtain ⟨key, isKey⟩ := identifies_iff.1 identifies
    exact ⟨⟨key, identity, fields⟩, ⟨isObject, found, isKey⟩⟩
  · intro writesRecord
    obtain ⟨record, writes⟩ := writesRecord
    exact ⟨record.fields, record.identity, writes.isObject, writes.identity,
      identifies_iff.2 ⟨record.key, writes.key⟩⟩

namespace Graph

/-! ## Items -/

/-- What is looked at while data is taken in: a document, a table, or a record of a table. -/
inductive Item where
  | document (content : Value)
  | table (entity : String) (content : Value)
  | record (entity : String) (value : Value)

namespace Item

/-- A table, and then the records in it. -/
def ofTable : String × Value → List Item
  | (entity, .array values) => .table entity (.array values) :: values.map (.record entity)
  | (entity, content) => [.table entity content]

/-- A document, and then each of its tables. -/
def ofDocument : Value → List Item
  | .object tables => .document (.object tables) :: tables.flatMap ofTable
  | content => [.document content]

theorem ofTable_array (entity : String) (values : List Value) :
    ofTable (entity, .array values)
      = .table entity (.array values) :: values.map (.record entity) := rfl

theorem ofDocument_object (tables : Members) :
    ofDocument (.object tables) = .document (.object tables) :: tables.flatMap ofTable := rfl

def record? : Item → Option (String × Value)
  | .record entity value => some (entity, value)
  | .document _ | .table _ _ => none

def tableName? : Item → Option String
  | .table entity _ => some entity
  | .document _ | .record _ _ => none

/-- What an item must be: an object of tables, an array under a declared type, or a record of a
declared type. -/
inductive Accepted (schema : Schema) : Item → Prop
  | document (tables : Members) : Accepted schema (.document (.object tables))
  | table {entity : String} {declared : Entity} (values : List Value)
      (isDeclared : schema.entity? entity = some declared) :
      Accepted schema (.table entity (.array values))
  | record {entity : String} {declared : Entity} {value : Value}
      (isDeclared : schema.entity? entity = some declared)
      (isRecord : IsRecord declared.identityField value) :
      Accepted schema (.record entity value)

/-- Why an item is not accepted. -/
inductive Refused (schema : Schema) : Item → DataError → Prop
  | document {content : Value} (notObject : ∀ tables, content ≠ .object tables) :
      Refused schema (.document content) .dataNotObject
  | notArray {entity : String} {content : Value} (notArray : ∀ values, content ≠ .array values) :
      Refused schema (.table entity content) (.tableNotArray entity)
  | tableOfUndeclared {entity : String} (values : List Value)
      (undeclared : schema.entity? entity = none) :
      Refused schema (.table entity (.array values)) (.unknownEntity entity)
  | recordOfUndeclared {entity : String} (value : Value)
      (undeclared : schema.entity? entity = none) :
      Refused schema (.record entity value) (.unknownEntity entity)
  | notObject {entity : String} {declared : Entity} {value : Value}
      (isDeclared : schema.entity? entity = some declared)
      (notObject : ∀ fields, value ≠ .object fields) :
      Refused schema (.record entity value) (.recordNotObject entity value)
  | noIdentity {entity : String} {declared : Entity} {fields : Members}
      (isDeclared : schema.entity? entity = some declared)
      (notRecord : ¬ IsRecord declared.identityField (.object fields)) :
      Refused schema (.record entity (.object fields))
        (.missingIdentity entity declared.identityField)

theorem Refused.not_accepted {schema : Schema} {item : Item} {refusal : DataError}
    (refused : item.Refused schema refusal) : ¬ item.Accepted schema := by
  intro accepted
  cases refused with
  | document notObject =>
      cases accepted with
      | document tables => exact notObject tables rfl
  | notArray notArray =>
      cases accepted with
      | table values _ => exact notArray values rfl
  | tableOfUndeclared values undeclared =>
      cases accepted with
      | table _ isDeclared => exact Option.some_ne_none _ (isDeclared.symm.trans undeclared)
  | recordOfUndeclared value undeclared =>
      cases accepted with
      | record isDeclared _ => exact Option.some_ne_none _ (isDeclared.symm.trans undeclared)
  | notObject _ notObject =>
      cases accepted with
      | record _ isRecord =>
          obtain ⟨fields, _, isObject, _⟩ := isRecord
          exact notObject fields isObject
  | noIdentity isDeclared notRecord =>
      cases accepted with
      | record isDeclared' isRecord =>
          rw [Option.some.inj (isDeclared.symm.trans isDeclared')] at notRecord
          exact notRecord isRecord

theorem record?_ofTable_array (entity : String) (values : List Value) :
    (ofTable (entity, .array values)).filterMap record? = values.map (Prod.mk entity) := by
  rw [ofTable_array, List.filterMap_cons_none rfl, List.filterMap_map, ← List.filterMap_eq_map]
  rfl

theorem tableName?_ofTable (table : String × Value) :
    (ofTable table).filterMap tableName? = [table.1] := by
  obtain ⟨entity, content⟩ := table
  cases content with
  | array values =>
      have noTables : (values.map (record entity)).filterMap tableName? = [] := by
        rw [List.filterMap_map]
        exact List.filterMap_eq_nil_iff.2 fun _ _ => rfl
      exact congrArg (entity :: ·) noTables
  | null | bool _ | number _ | string _ | object _ => rfl

/-- The tables of a document are looked at in the order in which it lists them. -/
theorem tableName?_ofDocument (tables : Members) :
    (ofDocument (.object tables)).filterMap tableName? = tables.map Prod.fst := by
  rw [ofDocument_object, List.filterMap_cons_none rfl, List.filterMap_flatMap]
  simp only [tableName?_ofTable]
  exact List.flatMap_pure_eq_map Prod.fst tables

end Item

/-! ## Single insertions -/

/-- What an insertion does. It stores the record of a declared type under its key, or it is refused
for what the item lacks and hands back the graph that it was given. -/
theorem insert_spec (graph : Graph) (entity : String) (value : Value) :
    (∃ declared record, graph.schema.entity? entity = some declared
        ∧ IsRecord declared.identityField value
        ∧ graph.insert entity value
          = ({ graph with store := graph.store.put entity record }, .ok record.key))
      ∨ ∃ refusal, (Item.record entity value).Refused graph.schema refusal
        ∧ graph.insert entity value = (graph, .error refusal) := by
  unfold insert
  cases isDeclared : graph.schema.entity? entity with
  | none => exact .inr ⟨_, .recordOfUndeclared value isDeclared, rfl⟩
  | some declared =>
      let call := Store.Call.ofValue entity declared.identityField value
      have runs : graph.store.insert entity declared.identityField value = _ :=
        call.run_eq graph.store
      dsimp only
      rw [runs]
      cases isRecord : call.record? with
      | some record =>
          have writes := Store.Call.record?_eq_some_iff.1 isRecord
          exact .inl ⟨declared, record, rfl, isRecord_iff.2 ⟨record, writes⟩, rfl⟩
      | none =>
          have notRecord : ¬ IsRecord declared.identityField value := by
            intro isRecord'
            obtain ⟨record, writes⟩ := isRecord_iff.1 isRecord'
            exact Store.Call.not_writes_of_record?_eq_none isRecord record writes
          refine .inr ⟨call.refusal, ?_, rfl⟩
          cases value with
          | object fields => exact .noIdentity isDeclared notRecord
          | null | bool _ | number _ | string _ | array _ =>
              exact .notObject isDeclared fun fields isObject => by cases isObject

/-- An insertion that succeeds stores a record under the key that it answers with. -/
theorem exists_put_of_insert {graph next : Graph} {entity : String} {value : Value}
    {key : RecordKey} (succeeds : graph.insert entity value = (next, .ok key)) :
    ∃ record, record.key = key ∧ next = { graph with store := graph.store.put entity record } := by
  rcases graph.insert_spec entity value with ⟨_, record, _, _, stores⟩ | ⟨_, _, fails⟩
  · rw [stores] at succeeds
    cases succeeds
    exact ⟨record, rfl, rfl⟩
  · rw [fails] at succeeds
    cases succeeds

/-- Single insertions, one after the other, each of which succeeds. -/
inductive Steps : Graph → List (String × Value) → List RecordKey → Graph → Prop
  | done (graph : Graph) : Steps graph [] [] graph
  | step {graph middle last : Graph} {entity : String} {value : Value} {key : RecordKey}
      {records : List (String × Value)} {keys : List RecordKey}
      (first : graph.insert entity value = (middle, .ok key))
      (rest : Steps middle records keys last) :
      Steps graph ((entity, value) :: records) (key :: keys) last

/-- What a graph becomes by single insertions of exactly these records. What is not among them
stays: the schema, the settings, the tables of other types, and the records of other keys. -/
structure Inserts (graph : Graph) (records : List (String × Value)) (keys : List RecordKey)
    (next : Graph) : Prop where
  steps : graph.Steps records keys next
  schema : next.schema = graph.schema
  settings : next.settings = graph.settings
  otherTypes : ∀ entity, entity ∉ records.map Prod.fst →
    next.store.records entity = graph.store.records entity
  otherKeys : ∀ entity key, (entity, key) ∉ (records.map Prod.fst).zip keys →
    next.store.get? entity key = graph.store.get? entity key

namespace Steps

variable {graph middle next : Graph} {records more : List (String × Value)}
variable {keys moreKeys : List RecordKey}

theorem append (first : graph.Steps records keys middle)
    (rest : middle.Steps more moreKeys next) :
    graph.Steps (records ++ more) (keys ++ moreKeys) next := by
  induction first with
  | done graph => exact rest
  | step insertion _ inductionHypothesis => exact .step insertion (inductionHypothesis rest)

theorem length_keys (steps : graph.Steps records keys next) : keys.length = records.length := by
  induction steps with
  | done graph => rfl
  | step _ _ inductionHypothesis => exact congrArg Nat.succ inductionHypothesis

theorem inserts (steps : graph.Steps records keys next) : graph.Inserts records keys next := by
  induction steps with
  | done graph => exact ⟨.done graph, rfl, rfl, fun _ _ => rfl, fun _ _ _ => rfl⟩
  | @step graph middle last entity value key records keys first rest inductionHypothesis =>
      obtain ⟨record, sameKey, isPut⟩ := exists_put_of_insert first
      subst sameKey isPut
      constructor
      · exact .step first rest
      · exact inductionHypothesis.schema
      · exact inductionHypothesis.settings
      · intro other notNamed
        obtain ⟨differs, notLater⟩ := List.ne_and_not_mem_of_not_mem_cons notNamed
        rw [inductionHypothesis.otherTypes other notLater]
        exact Store.records_put_of_ne graph.store record differs
      · intro other otherKey notNamed
        obtain ⟨differs, notLater⟩ := List.ne_and_not_mem_of_not_mem_cons notNamed
        rw [inductionHypothesis.otherKeys other otherKey notLater]
        show (graph.store.put entity record).get? other otherKey = _
        rw [Store.get?_eq, Store.get?_eq]
        by_cases same : other = entity
        · subst same
          have otherThanRecord : record.key ≠ otherKey := fun equal => differs (equal ▸ rfl)
          rw [Store.records_put_self, Table.get?_put_of_ne _ record otherThanRecord]
        · rw [Store.records_put_of_ne graph.store record same]

end Steps

end Graph

end EagerLoad
