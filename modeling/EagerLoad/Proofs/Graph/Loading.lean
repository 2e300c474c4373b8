import EagerLoad.Fixture
import EagerLoad.Proofs.Graph.Items
import EagerLoad.Proofs.Fixture.Rereading
import Mathlib.Data.List.Permutation

/-!
Contract: what a graph takes in of a document, and where it stops.

Owns: the agreement of insertion in order, of loading and of the graph of a fixture with single
insertions up to the first refused item, and which documents are taken in as a whole.

Does not own: the items and why they are refused (`Graph/Items.lean`), or the order in which
readers leave the members of an object (`Json/Ordered.lean`).
-/

set_option autoImplicit false

namespace EagerLoad

open Json (Value Members Document)

namespace Graph

/-! ## Items one after the other -/

/-- How a graph takes in items. It takes all of them when each is accepted, and otherwise those
before the first that is refused, with the cause of that one. Either way it becomes what single
insertions of the records among the items that it took make of it. -/
inductive Takes (graph : Graph) (items : List Item) :
    Graph × Except DataError (List RecordKey) → Prop
  | all {keys : List RecordKey} {next : Graph}
      (accepted : ∀ item ∈ items, item.Accepted graph.schema)
      (inserts : graph.Inserts (items.filterMap Item.record?) keys next) :
      Takes graph items (next, .ok keys)
  | upTo {before : List Item} {offender : Item} {after : List Item} {refusal : DataError}
      {keys : List RecordKey} {next : Graph}
      (split : items = before ++ offender :: after)
      (accepted : ∀ item ∈ before, item.Accepted graph.schema)
      (refused : offender.Refused graph.schema refusal)
      (inserts : graph.Inserts (before.filterMap Item.record?) keys next) :
      Takes graph items (next, .error refusal)

namespace Takes

variable {graph middle next : Graph} {items : List Item}

theorem refused {item : Item} {refusal : DataError} (refused : item.Refused graph.schema refusal)
    (more : List Item) : graph.Takes (item :: more) (graph, .error refusal) :=
  .upTo (List.nil_append _).symm (fun _ member => absurd member List.not_mem_nil) refused
    (Steps.done graph).inserts

theorem nothing (graph : Graph) : graph.Takes [] (graph, .ok []) :=
  .all (fun _ member => absurd member List.not_mem_nil) (Steps.done graph).inserts

/-- An item that is accepted and is no record is passed over. -/
theorem pass {item : Item} {outcome : Graph × Except DataError (List RecordKey)}
    (accepted : item.Accepted graph.schema) (noRecord : item.record? = none)
    (rest : graph.Takes items outcome) : graph.Takes (item :: items) outcome := by
  cases rest with
  | all restAccepted inserts =>
      refine .all (List.forall_mem_cons.2 ⟨accepted, restAccepted⟩) ?_
      rw [List.filterMap_cons_none noRecord]
      exact inserts
  | @upTo before offender after _ keys _ split beforeAccepted refused inserts =>
      refine @upTo _ _ (item :: before) offender after _ keys _ ?_
        (List.forall_mem_cons.2 ⟨accepted, beforeAccepted⟩) refused ?_
      · rw [split, List.cons_append]
      · rw [List.filterMap_cons_none noRecord]
        exact inserts

theorem append {keys : List RecordKey} {more : List Item}
    {outcome : Graph × Except DataError (List RecordKey)}
    (first : graph.Takes items (middle, .ok keys)) (rest : middle.Takes more outcome) :
    graph.Takes (items ++ more) (outcome.1, outcome.2.map (keys ++ ·)) := by
  cases first with
  | all acceptedFirst insertsFirst =>
      have sameSchema := insertsFirst.schema
      cases rest with
      | all acceptedRest insertsRest =>
          refine .all ?_ ?_
          · rw [sameSchema] at acceptedRest
            exact List.forall_mem_append.2 ⟨acceptedFirst, acceptedRest⟩
          · rw [List.filterMap_append]
            exact (insertsFirst.steps.append insertsRest.steps).inserts
      | @upTo before offender after _ moreKeys _ split acceptedRest refused insertsRest =>
          rw [sameSchema] at acceptedRest refused
          refine @upTo _ _ (items ++ before) offender after _ (keys ++ moreKeys) _ ?_ ?_ refused ?_
          · rw [split, List.append_assoc]
          · exact List.forall_mem_append.2 ⟨acceptedFirst, acceptedRest⟩
          · rw [List.filterMap_append]
            exact (insertsFirst.steps.append insertsRest.steps).inserts

theorem append_of_error {refusal : DataError} (stops : graph.Takes items (next, .error refusal))
    (more : List Item) : graph.Takes (items ++ more) (next, .error refusal) := by
  cases stops with
  | @upTo before offender after _ keys _ split accepted refused inserts =>
      refine @upTo _ _ before offender (after ++ more) _ keys _ ?_ accepted refused inserts
      rw [split, List.append_assoc, List.cons_append]

/-- Items are taken without an error if and only if each of them is accepted. -/
theorem exists_ok_iff {outcome : Graph × Except DataError (List RecordKey)}
    (takes : graph.Takes items outcome) :
    (∃ keys, outcome.2 = .ok keys) ↔ ∀ item ∈ items, item.Accepted graph.schema := by
  cases takes with
  | all accepted _ => exact ⟨fun _ => accepted, fun _ => ⟨_, rfl⟩⟩
  | upTo split accepted refused _ =>
      constructor
      · intro isOk
        obtain ⟨keys, impossible⟩ := isOk
        cases impossible
      · intro allAccepted
        rw [split] at allAccepted
        exact absurd (allAccepted _ List.mem_append_cons_self) refused.not_accepted

theorem length_keys {keys : List RecordKey} (takes : graph.Takes items (next, .ok keys)) :
    keys.length = (items.filterMap Item.record?).length := by
  cases takes with
  | all _ inserts => exact inserts.steps.length_keys

end Takes

/-! ## Insertion in order, and tables -/

/-- An insertion stores one record and nothing else, or it is refused and hands back the graph as
it was. -/
theorem insert_cases (graph : Graph) (entity : String) (value : Value) :
    (∃ key next, graph.insert entity value = (next, .ok key)
        ∧ (Item.record entity value).Accepted graph.schema
        ∧ graph.Inserts [(entity, value)] [key] next)
      ∨ ∃ refusal, graph.insert entity value = (graph, .error refusal)
        ∧ (Item.record entity value).Refused graph.schema refusal
        ∧ graph.insertMany entity [value] = (graph, .error refusal) := by
  rcases graph.insert_spec entity value with
    ⟨declared, record, isDeclared, isRecord, stores⟩ | ⟨refusal, refused, fails⟩
  · exact .inl ⟨_, _, stores, .record isDeclared isRecord, (Steps.step stores (.done _)).inserts⟩
  · refine .inr ⟨refusal, fails, refused, ?_⟩
    rw [insertMany]
    split
    · rename_i undeclared
      rw [insert, undeclared] at fails
      cases fails
      rfl
    · rw [insertInOrder, fails]

/-- A single insertion, with its key as the only one. -/
theorem takes_insert (graph : Graph) (entity : String) (value : Value) :
    graph.Takes [.record entity value]
      ((graph.insert entity value).1, (graph.insert entity value).2.map fun key => [key]) := by
  rcases graph.insert_cases entity value with
    ⟨key, next, succeeds, accepted, inserts⟩ | ⟨refusal, fails, refused, _⟩
  · rw [succeeds]
    exact .all (List.forall_mem_singleton.2 accepted) inserts
  · rw [fails]
    exact .refused refused []

theorem takes_insertInOrder (graph : Graph) (entity : String) (values : List Value) :
    graph.Takes (values.map (.record entity)) (graph.insertInOrder entity values) := by
  induction values generalizing graph with
  | nil => exact .nothing graph
  | cons value rest inductionHypothesis =>
      have first := takes_insert graph entity value
      rw [insertInOrder]
      split
      · rename_i next refusal fails
        rw [fails] at first
        exact first.append_of_error _
      · rename_i next key succeeds
        rw [succeeds] at first
        exact first.append (inductionHypothesis next)

theorem takes_insertMany (graph : Graph) (entity : String) (values : List Value) :
    graph.Takes (Item.ofTable (entity, .array values)) (graph.insertMany entity values) := by
  rw [Item.ofTable_array, insertMany]
  split
  · rename_i undeclared
    exact .refused (.tableOfUndeclared values undeclared) _
  · rename_i declared isDeclared
    exact .pass (.table values isDeclared) rfl (takes_insertInOrder graph entity values)

/-- Tables are taken in one after the other, and the records of all of them are counted. -/
theorem takes_loadTables (graph : Graph) (tables : Members) :
    ∃ outcome, graph.Takes (tables.flatMap Item.ofTable) outcome
      ∧ graph.loadTables tables = (outcome.1, outcome.2.map List.length) := by
  induction tables generalizing graph with
  | nil => exact ⟨(graph, .ok []), .nothing graph, rfl⟩
  | cons table rest inductionHypothesis =>
      obtain ⟨entity, content⟩ := table
      cases content with
      | null | bool _ | number _ | string _ | object _ =>
          refine ⟨(graph, .error (.tableNotArray entity)), .refused (.notArray ?_) _, rfl⟩
          intro values isArray
          cases isArray
      | array values =>
          have first := takes_insertMany graph entity values
          rw [loadTables]
          split
          · rename_i next refusal fails
            rw [fails] at first
            exact ⟨(next, .error refusal), first.append_of_error _, rfl⟩
          · rename_i next keys succeeds
            rw [succeeds] at first
            obtain ⟨outcome, takes, isOutcome⟩ := inductionHypothesis next
            refine ⟨_, first.append takes, ?_⟩
            rw [isOutcome]
            obtain ⟨last, result⟩ := outcome
            cases result with
            | error refusal => rfl
            | ok moreKeys =>
                show (last, Except.ok _) = (last, Except.ok _)
                rw [List.length_append]

theorem takes_load (graph : Graph) (document : Value) :
    ∃ outcome, graph.Takes (Item.ofDocument document) outcome
      ∧ graph.load document = (outcome.1, outcome.2.map List.length) := by
  cases document with
  | null | bool _ | number _ | string _ | array _ =>
      refine ⟨(graph, .error .dataNotObject), .refused (.document ?_) [], rfl⟩
      intro tables isObject
      cases isObject
  | object tables =>
      obtain ⟨outcome, takes, isOutcome⟩ := takes_loadTables graph tables
      exact ⟨outcome, .pass (.document tables) rfl takes, isOutcome⟩

/-! ## Documents that are taken in as a whole -/

/-- An array under a declared type, with nothing but records of it. -/
def IsLoadableTable (schema : Schema) (table : String × Value) : Prop :=
  ∃ values declared, table.2 = .array values ∧ schema.entity? table.1 = some declared
    ∧ ∀ value ∈ values, IsRecord declared.identityField value

/-- An object of tables that can be taken in as a whole. -/
def IsLoadable (schema : Schema) (document : Value) : Prop :=
  ∃ tables, document = .object tables ∧ ∀ table ∈ tables, IsLoadableTable schema table

def arrayLength : Value → Nat
  | .array values => values.length
  | _ => 0

/-- The lengths of all arrays of a document, added up. -/
def recordCount : Value → Nat
  | .object tables => tables.foldr (fun table total => arrayLength table.2 + total) 0
  | _ => 0

namespace Item

theorem accepted_ofTable_iff {schema : Schema} {table : String × Value} :
    (∀ item ∈ ofTable table, item.Accepted schema) ↔ IsLoadableTable schema table := by
  obtain ⟨entity, content⟩ := table
  constructor
  · intro accepted
    cases content with
    | null | bool _ | number _ | string _ | object _ =>
        cases accepted _ List.mem_cons_self
    | array values =>
        rw [ofTable_array, List.forall_mem_cons] at accepted
        obtain ⟨tableAccepted, recordsAccepted⟩ := accepted
        cases tableAccepted with
        | table _ isDeclared =>
            refine ⟨values, _, rfl, isDeclared, ?_⟩
            intro value member
            cases recordsAccepted _ (List.mem_map_of_mem member) with
            | record isDeclared' isRecord =>
                rw [Option.some.inj (isDeclared.symm.trans isDeclared')]
                exact isRecord
  · intro loadable
    obtain ⟨values, declared, isArray, isDeclared, areRecords⟩ := loadable
    dsimp only at isArray isDeclared
    subst isArray
    rw [ofTable_array, List.forall_mem_cons]
    refine ⟨.table values isDeclared, ?_⟩
    intro item member
    obtain ⟨value, isValue, rfl⟩ := List.mem_map.1 member
    exact .record isDeclared (areRecords value isValue)

theorem accepted_ofDocument_iff {schema : Schema} {document : Value} :
    (∀ item ∈ ofDocument document, item.Accepted schema) ↔ IsLoadable schema document := by
  constructor
  · intro accepted
    cases document with
    | null | bool _ | number _ | string _ | array _ => cases accepted _ List.mem_cons_self
    | object tables =>
        refine ⟨tables, rfl, fun table isTable => accepted_ofTable_iff.1 ?_⟩
        intro item member
        exact accepted item
          (List.mem_cons_of_mem _ (List.mem_flatMap.2 ⟨table, isTable, member⟩))
  · intro loadable
    obtain ⟨tables, isObject, areLoadable⟩ := loadable
    subst isObject
    rw [ofDocument_object, List.forall_mem_cons]
    refine ⟨.document tables, ?_⟩
    intro item member
    obtain ⟨table, isTable, isItem⟩ := List.mem_flatMap.1 member
    exact accepted_ofTable_iff.2 (areLoadable table isTable) item isItem

theorem length_records_ofTable (table : String × Value) :
    ((ofTable table).filterMap record?).length = arrayLength table.2 := by
  obtain ⟨entity, content⟩ := table
  cases content with
  | null | bool _ | number _ | string _ | object _ => rfl
  | array values =>
      rw [record?_ofTable_array, List.length_map]
      rfl

theorem length_records_ofDocument (document : Value) :
    ((ofDocument document).filterMap record?).length = recordCount document := by
  cases document with
  | null | bool _ | number _ | string _ | array _ => rfl
  | object tables =>
      rw [ofDocument_object, List.filterMap_cons_none rfl]
      unfold recordCount
      induction tables with
      | nil => rfl
      | cons table rest inductionHypothesis =>
          rw [List.flatMap_cons, List.filterMap_append, List.length_append, inductionHypothesis,
            length_records_ofTable]
          rfl

end Item

/-- A load succeeds if and only if the document can be taken in as a whole, and its total is the
number of all records of the document. -/
theorem load_eq_ok_iff (graph : Graph) (document : Value) (total : Nat) :
    (graph.load document).2 = .ok total
      ↔ IsLoadable graph.schema document ∧ total = recordCount document := by
  obtain ⟨⟨last, result⟩, takes, isOutcome⟩ := takes_load graph document
  rw [isOutcome, ← Item.accepted_ofDocument_iff, ← takes.exists_ok_iff,
    ← Item.length_records_ofDocument]
  cases result with
  | error refusal =>
      constructor
      · intro impossible
        cases impossible
      · intro succeeds
        obtain ⟨⟨keys, impossible⟩, _⟩ := succeeds
        cases impossible
  | ok keys =>
      show Except.ok keys.length = Except.ok total ↔ _
      rw [takes.length_keys, Except.ok.injEq]
      exact ⟨fun same => ⟨⟨keys, rfl⟩, same.symm⟩, fun both => both.2.symm⟩

end Graph

/-! ## The graph of a fixture -/

namespace Fixture

/-- The graph of a fixture before any record is stored. -/
def blankGraph (fixture : Fixture) : Graph :=
  { schema := fixture.schema, settings := fixture.settings.getD {} }

theorem toGraph_takes (fixture : Fixture) :
    ∃ outcome, fixture.blankGraph.Takes (Graph.Item.ofDocument (.object fixture.data)) outcome
      ∧ fixture.toGraph = outcome.2.map fun _ => outcome.1 := by
  obtain ⟨outcome, takes, isOutcome⟩ := fixture.blankGraph.takes_load (.object fixture.data)
  refine ⟨outcome, takes, ?_⟩
  unfold toGraph
  change fixture.blankGraph.load (.object fixture.data) = _ at isOutcome
  unfold blankGraph at isOutcome
  dsimp only
  rw [isOutcome]
  obtain ⟨last, result⟩ := outcome
  cases result <;> rfl

/-- The tables of a fixture that is read from a text are in order. -/
theorem ascending_of_ofText {text : String} {fixture : Fixture}
    (isRead : Fixture.ofText text = .ok fixture) : fixture.data.Ascending := by
  obtain ⟨document, readsForm⟩ := Json.Reading.exists_of_ofText isRead
  exact (data_of_read readsForm).1.ascending

end Fixture

/-! ## The law of loading -/

namespace Graph

/-- The tables that are looked at while a document is taken in, one after the other. -/
def visitedTables (document : Value) : List String :=
  (Item.ofDocument document).filterMap Item.tableName?

theorem pairwise_visitedTables {tables : Members} (ascending : tables.Ascending) :
    (visitedTables (.object tables)).Pairwise (· < ·) := by
  unfold visitedTables
  rw [Item.tableName?_ofDocument]
  exact List.pairwise_map.2 ascending

theorem pairwise_visitedTables_of_text {room : Nat} {text : String} {document : Value}
    (isRead : Document.valueOfText? room text = some document) :
    (visitedTables document).Pairwise (· < ·) := by
  cases document with
  | null | bool _ | number _ | string _ | array _ => exact List.Pairwise.nil
  | object tables => exact pairwise_visitedTables (Document.ascending_of_valueOfText? isRead)

/-- **Data is taken in up to the first item that is refused.** A load looks at the document, and
at each of its tables and then the records of that table. It becomes what single insertions of the
records before the first refused item make of the graph, it answers with the cause of that item,
and nothing else changes. Where no item is refused it counts the records; that is so exactly for
objects of arrays of records of declared types. Insertion of several records follows the same law
on the items of one table, and the graph of a fixture follows it from an empty store; a single
insertion that is refused changes nothing. The tables are looked at in ascending order of their
names, in every object built member by member and in whatever is read from a text. -/
theorem load_takes_until_refused :
    (∀ (graph : Graph) (document : Value),
        (∃ outcome, graph.Takes (Item.ofDocument document) outcome
            ∧ graph.load document = (outcome.1, outcome.2.map List.length))
          ∧ ∀ total, (graph.load document).2 = .ok total
              ↔ IsLoadable graph.schema document ∧ total = recordCount document)
      ∧ (∀ fixture : Fixture,
          ∃ outcome, fixture.blankGraph.Takes (Item.ofDocument (.object fixture.data)) outcome
            ∧ fixture.toGraph = outcome.2.map fun _ => outcome.1)
      ∧ (∀ (graph : Graph) (entity : String) (values : List Value),
          graph.Takes (Item.ofTable (entity, .array values)) (graph.insertMany entity values))
      ∧ (∀ (graph : Graph) (entity : String) (value : Value),
          (∃ key next, graph.insert entity value = (next, .ok key)
              ∧ (Item.record entity value).Accepted graph.schema
              ∧ graph.Inserts [(entity, value)] [key] next)
            ∨ ∃ refusal, graph.insert entity value = (graph, .error refusal)
              ∧ (Item.record entity value).Refused graph.schema refusal
              ∧ graph.insertMany entity [value] = (graph, .error refusal))
      ∧ (∀ entries, (visitedTables (.object (Members.ofList entries))).Pairwise (· < ·))
      ∧ (∀ room text document, Document.valueOfText? room text = some document →
          (visitedTables document).Pairwise (· < ·))
      ∧ ∀ text fixture, Fixture.ofText text = .ok fixture →
          (visitedTables (.object fixture.data)).Pairwise (· < ·) := by
  refine ⟨?_, Fixture.toGraph_takes, takes_insertMany, insert_cases, ?_, ?_, ?_⟩
  · intro graph document
    exact ⟨graph.takes_load document, graph.load_eq_ok_iff document⟩
  · intro entries
    exact pairwise_visitedTables (Members.ascending_ofList entries)
  · intro room text document isRead
    exact pairwise_visitedTables_of_text isRead
  · intro text fixture isRead
    exact pairwise_visitedTables (Fixture.ascending_of_ofText isRead)

/-- A graph with authors, and books by their numbers. -/
def shelf : Graph where
  schema := { entities := [{ name := "author" }, { name := "book", identityField := "isbn" }] }

/-- No author, a book, and something that is no book. -/
def delivery : Members :=
  [("author", .array []), ("book", .array [.object [("isbn", .string "7")], .null])]

/-- The delivery with its tables in the other order. -/
def deliveryText : String := "\x7b\"book\":[\x7b\"isbn\":\"7\"\x7d,null],\"author\":[]\x7d"

def deliveryDocument : Document :=
  .object
    [(some "book", .array [.object [(some "isbn", .string (some "7"))] true, .null] true),
      (some "author", .array [] true)]
    true

def fixtureText : String := "\x7b\"data\":" ++ deliveryText ++ "\x7d"

theorem ofText_deliveryText : Document.ofText deliveryText = (deliveryDocument, true) := by cbv

theorem ofText_fixtureText :
    Document.ofText fixtureText = (.object [(some "data", deliveryDocument)] true, true) := by cbv

/-- The tables of the delivery are looked at in order, whatever their order in the text, and the
delivery is not taken in as a whole. -/
theorem load_takes_until_refused_shelf :
    let fixture : Fixture := { data := delivery }
    Document.valueOfText? 3 deliveryText = some (.object delivery)
      ∧ (visitedTables (.object delivery)).Pairwise (· < ·)
      ∧ Fixture.ofText fixtureText = .ok fixture
      ∧ (visitedTables (.object fixture.data)).Pairwise (· < ·)
      ∧ ∀ total, (shelf.load (.object delivery)).2 ≠ .ok total := by
  intro fixture
  have isRead : Document.valueOfText? 3 deliveryText = some (.object delivery) := by
    unfold Document.valueOfText?
    rw [ofText_deliveryText]
    rfl
  have fixtureRead : Fixture.ofText fixtureText = .ok fixture := by
    unfold Fixture.ofText Json.Reading.ofText
    rw [ofText_fixtureText]
    rfl
  obtain ⟨loads, _, _, _, _, ofText, ofFixture⟩ := load_takes_until_refused
  refine ⟨isRead, ofText 3 deliveryText (.object delivery) isRead, fixtureRead,
    ofFixture fixtureText fixture fixtureRead, ?_⟩
  intro total succeeds
  obtain ⟨⟨tables, same, loadable⟩, _⟩ := ((loads shelf (.object delivery)).2 total).1 succeeds
  cases same
  obtain ⟨values, declared, isArray, _, areRecords⟩ :=
    loadable ("book", _) (List.mem_cons_of_mem _ List.mem_cons_self)
  cases isArray
  obtain ⟨fields, _, isObject, _⟩ := areRecords .null (List.mem_cons_of_mem _ List.mem_cons_self)
  cases isObject

/-- The book before the refused item stays. -/
example :
    shelf.load (.object delivery)
      = ({ shelf with
            store := shelf.store.put "book" ⟨⟨"7"⟩, .string "7", [("isbn", .string "7")]⟩ },
        .error (.recordNotObject "book" .null)) := rfl

end Graph

end EagerLoad
