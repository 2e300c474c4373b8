import EagerLoad.Fixture
import EagerLoad.Proofs.Json.Forms

/-!
Contract: what is read of the JSON form of schemas, settings and fixtures.

Owns: that a reader gives back whatever the writer of the same type wrote, whichever optional
fields are set; how deep what a writer writes can nest; and that whatever a reader accepts is
read again from what is written for it.

Does not own: the mechanics of reading records (`Json/Forms.lean`).
-/

set_option autoImplicit false

namespace EagerLoad

open Json
open Json.Reading (RecordForm Gives gives_text gives_flag gives_count gives_optional gives_listOf
  gives_members optional text)

/-! ## Entity types and relations -/

theorem Entity.gives_toValue (entity : Entity) : Gives Entity.read entity.toValue entity := by
  have takes : form.Takes form.blank
      [("identity_field", .string entity.identityField), ("name", .string entity.name)]
      { name := some entity.name, identityField := some entity.identityField } :=
    .component rfl rfl (gives_text _) (.component rfl rfl (gives_text _) (.done _))
  exact takes.gives rfl

theorem RelationKind.gives_toValue (kind : RelationKind) :
    Gives RelationKind.read kind.toValue kind := by
  intro room _
  cases kind <;> rfl

namespace Relation

/-- An optional key is written only when it is set. An unset one leaves the draft as it is. -/
theorem takes_optionalMember (name : String) {get : Draft → Option (Option String)}
    {set : Draft → Option String → Draft} {draft : Draft}
    (isSlot : form.slots.find? (fun slot => slot.name == name)
      = some (.component name get set fun _ => optional text))
    (isOpen : get draft = none) (key : Option String) :
    form.Takes draft (optionalMember name key)
      (key.elim draft fun content => set draft (some content)) := by
  cases key with
  | none => exact .done _
  | some content =>
      have gives := (gives_text content).optional_some Value.noConfusion
      exact .component isSlot isOpen gives (.done _)

theorem gives_toValue (relation : Relation) : Gives Relation.read relation.toValue relation := by
  obtain ⟨name, source, target, kind, foreignKey, localKey, ownerKey⟩ := relation
  have first : form.Takes form.blank
      [("foreign_key", .string foreignKey), ("from_entity", .string source),
        ("kind", kind.toValue)]
      { foreignKey := some foreignKey, source := some source, kind := some kind } :=
    .component rfl rfl (gives_text _) (.component rfl rfl (gives_text _)
      (.component rfl rfl kind.gives_toValue (.done _)))
  have takesName : ∀ draft : Draft, draft.name = none → form.Takes draft
      [("name", .string name)] { draft with name := some name } :=
    fun _ isOpen => .component rfl isOpen (gives_text name) (.done _)
  have takesTarget : ∀ draft : Draft, draft.target = none → form.Takes draft
      [("to_entity", .string target)] { draft with target := some target } :=
    fun _ isOpen => .component rfl isOpen (gives_text target) (.done _)
  have withLocalKey := first.append (takes_optionalMember "local_key" rfl rfl localKey)
  have withName := withLocalKey.append (takesName _ (by cases localKey <;> rfl))
  have withOwnerKey := withName.append
    (takes_optionalMember "owner_key" rfl (by cases localKey <;> rfl) ownerKey)
  have takes := withOwnerKey.append (takesTarget _ (by cases localKey <;> cases ownerKey <;> rfl))
  exact takes.gives (by cases localKey <;> cases ownerKey <;> rfl)

end Relation

/-! ## Schemas -/

theorem Schema.gives_toValue (schema : Schema) : Gives Schema.read schema.toValue schema := by
  have entities := gives_listOf fun entity (_ : entity ∈ schema.entities) => entity.gives_toValue
  have relations := gives_listOf
    fun relation (_ : relation ∈ schema.relations) => relation.gives_toValue
  have takes : form.Takes form.blank
      [("entities", .array (schema.entities.map Entity.toValue)),
        ("relations", .array (schema.relations.map Relation.toValue))]
      { entities := some schema.entities, relations := some schema.relations } :=
    .component rfl rfl entities (.component rfl rfl relations (.done _))
  exact takes.gives rfl

/-! ## Settings -/

namespace Settings

theorem toValue_eq (settings : Settings) : settings.toValue = .object
    [("fill_unloaded_relations", .bool settings.fillUnloadedRelations),
      ("hash_join_threshold", countValue settings.hashJoinThreshold),
      ("max_recursion_depth", settings.maxRecursionDepth.elim .null countValue),
      ("synthetic_id_field", .string settings.syntheticIdField)] := by
  obtain ⟨_, _, maxRecursionDepth, _⟩ := settings
  cases maxRecursionDepth <;> rfl

theorem gives_toValue (settings : Settings) : Gives Settings.read settings.toValue settings := by
  have depth := gives_optional gives_count (fun _ => Value.noConfusion) settings.maxRecursionDepth
  have takes : form.Takes form.blank
      [("fill_unloaded_relations", .bool settings.fillUnloadedRelations),
        ("hash_join_threshold", countValue settings.hashJoinThreshold),
        ("max_recursion_depth", settings.maxRecursionDepth.elim .null countValue),
        ("synthetic_id_field", .string settings.syntheticIdField)]
      { fillUnloadedRelations := some settings.fillUnloadedRelations
        hashJoinThreshold := some settings.hashJoinThreshold
        maxRecursionDepth := some settings.maxRecursionDepth
        syntheticIdField := some settings.syntheticIdField } :=
    .component rfl rfl (gives_flag _) (.component rfl rfl (gives_count _)
      (.component rfl rfl depth (.component rfl rfl (gives_text _) (.done _))))
  rw [toValue_eq]
  exact takes.gives rfl

end Settings

/-! ## Fixtures -/

namespace Fixture

theorem toValue_eq (fixture : Fixture) : fixture.toValue = .object
    [("config", fixture.settings.elim .null Settings.toValue), ("data", .object fixture.data),
      ("schema", fixture.schema.toValue)] := by
  obtain ⟨_, _, settings⟩ := fixture
  cases settings <;> rfl

theorem gives_toValue {fixture : Fixture} (ordered : (Value.object fixture.data).Ordered) :
    Gives Fixture.read fixture.toValue fixture := by
  have config := gives_optional Settings.gives_toValue (fun _ => Value.noConfusion)
    fixture.settings
  have takes : form.Takes form.blank
      [("config", fixture.settings.elim .null Settings.toValue), ("data", .object fixture.data),
        ("schema", fixture.schema.toValue)]
      { settings := some fixture.settings, data := some fixture.data,
        schema := some fixture.schema } :=
    .component rfl rfl config (.component rfl rfl (gives_members ordered)
      (.component rfl rfl fixture.schema.gives_toValue (.done _)))
  rw [toValue_eq]
  exact takes.gives rfl

/-- The data of a fixture that is read are in order, and nest less deep than the fixture. -/
theorem data_of_read {room : Nat} {document : Document} {fixture : Fixture}
    (isRead : Fixture.read room document = .ok fixture) :
    (Value.object fixture.data).Ordered ∧ (Value.object fixture.data).nesting < max room 2 := by
  have slotsKeep : ∀ inner < room, ∀ slot ∈ form.slots, RecordForm.SlotKeeps
      (fun draft : Draft => ∀ data, draft.data = some data →
        (Value.object data).Ordered ∧ (Value.object data).nesting < room) inner slot := by
    intro inner isLess slot isSlot
    simp only [form, List.mem_cons, List.not_mem_nil, or_false] at isSlot
    rcases isSlot with rfl | rfl | rfl
    · exact .component fun _ _ _ kept _ => kept
    · refine .component fun _ _ content _ isContent data isData => ?_
      cases isData
      have fits := Reading.fits_of_members isContent
      exact ⟨fits.ordered, fits.nests.trans_lt isLess⟩
    · exact .component fun _ _ _ kept _ => kept
  obtain ⟨draft, kept, isFinished⟩ := RecordForm.exists_finish_of_read slotsKeep
    (fun _ impossible => nomatch impossible) isRead
  cases isFinished
  show (Value.object (draft.data.getD [])).Ordered
    ∧ (Value.object (draft.data.getD [])).nesting < max room 2
  cases isData : draft.data with
  | none => exact ⟨Value.ordered_object_nil, lt_max_of_lt_right (Nat.lt_succ_self 1)⟩
  | some data =>
      obtain ⟨ordered, nests⟩ := kept data isData
      exact ⟨ordered, lt_max_of_lt_left nests⟩

end Fixture

/-! ## How deep the forms nest -/

theorem Entity.nesting_toValue (entity : Entity) : entity.toValue.nesting = 1 := rfl

theorem Relation.nesting_toValue (relation : Relation) : relation.toValue.nesting = 1 := by
  obtain ⟨_, _, _, _, _, localKey, ownerKey⟩ := relation
  cases localKey <;> cases ownerKey <;> rfl

theorem Schema.nesting_toValue_le (schema : Schema) : schema.toValue.nesting ≤ 3 := by
  have entitiesNest : Value.itemsNesting (schema.entities.map Entity.toValue) ≤ 1 := by
    refine Value.itemsNesting_le.2 (List.forall_mem_map.2 fun entity _ => ?_)
    exact entity.nesting_toValue.le
  have relationsNest : Value.itemsNesting (schema.relations.map Relation.toValue) ≤ 1 := by
    refine Value.itemsNesting_le.2 (List.forall_mem_map.2 fun relation _ => ?_)
    exact relation.nesting_toValue.le
  simp only [toValue, Value.nesting, Value.membersNesting]
  omega

theorem Settings.nesting_toValue (settings : Settings) : settings.toValue.nesting = 1 := by
  obtain ⟨_, _, maxRecursionDepth, _⟩ := settings
  cases maxRecursionDepth <;> rfl

theorem Fixture.nesting_toValue_le {fixture : Fixture} {room : Nat}
    (nests : (Value.object fixture.data).nesting < max room 2) :
    fixture.toValue.nesting ≤ max room 4 := by
  obtain ⟨schema, data, settings⟩ := fixture
  have schemaNests := schema.nesting_toValue_le
  cases settings with
  | none =>
      simp only [toValue, Value.nesting, Value.membersNesting] at nests ⊢
      omega
  | some settings =>
      have settingsNest := settings.nesting_toValue
      simp only [toValue, Value.nesting, Value.membersNesting] at nests ⊢
      omega

/-! ## Reading and writing in turn -/

/-- Whatever a reader accepts, in whatever form and room, it reads again from what is written for
it, and what is written for it then is the same. Where the room was four levels or more, which is
all that a written form takes up apart from data, the written form is read in the same room. -/
def Rereads {α : Type} (read : Nat → Document → Reading α) (write : α → Value) : Prop :=
  ∀ room document content, read room document = .ok content →
    Reading.ofValue read (write content) = .ok content
      ∧ (Reading.ofValue read (write content)).map write = .ok (write content)
      ∧ (4 ≤ room → read room (Document.ofValue (write content)) = .ok content)

theorem rereads_of_gives {α : Type} {read : Nat → Document → Reading α} {write : α → Value}
    (give : ∀ room document content, read room document = .ok content →
      Gives read (write content) content ∧ (write content).nesting ≤ max room 4) :
    Rereads read write := by
  intro room document content isRead
  obtain ⟨gives, nests⟩ := give room document content isRead
  refine ⟨gives.ofValue, ?_, fun enough => gives room (nests.trans_eq (max_eq_left enough))⟩
  rw [gives.ofValue]
  rfl

/-- **Whatever is written is read back, and whatever is read is read again.** The reader of each
type gives back what the type's writer wrote, whichever optional fields are set. So a document in
any form that a reader accepts comes down to one written form, which is read as the same content
and written the same way again. Only the data of a fixture must have the keys of every object in
order, as all data that are read from a document have. -/
theorem written_forms_reread :
    (∀ entity : Entity, Reading.ofValue Entity.read entity.toValue = .ok entity)
      ∧ (∀ relation : Relation, Reading.ofValue Relation.read relation.toValue = .ok relation)
      ∧ (∀ schema : Schema, Reading.ofValue Schema.read schema.toValue = .ok schema)
      ∧ (∀ settings : Settings, Reading.ofValue Settings.read settings.toValue = .ok settings)
      ∧ (∀ fixture : Fixture, (Value.object fixture.data).Ordered →
          Reading.ofValue Fixture.read fixture.toValue = .ok fixture)
      ∧ Rereads Entity.read Entity.toValue ∧ Rereads Relation.read Relation.toValue
      ∧ Rereads Schema.read Schema.toValue ∧ Rereads Settings.read Settings.toValue
      ∧ Rereads Fixture.read Fixture.toValue := by
  refine ⟨fun entity => entity.gives_toValue.ofValue,
    fun relation => relation.gives_toValue.ofValue, fun schema => schema.gives_toValue.ofValue,
    fun settings => settings.gives_toValue.ofValue,
    fun fixture ordered => (Fixture.gives_toValue ordered).ofValue,
    ?entity, ?relation, ?schema, ?settings, ?fixture⟩
  case entity =>
    refine rereads_of_gives fun room _ entity _ => ⟨entity.gives_toValue, ?_⟩
    exact entity.nesting_toValue.trans_le (by omega)
  case relation =>
    refine rereads_of_gives fun room _ relation _ => ⟨relation.gives_toValue, ?_⟩
    exact relation.nesting_toValue.trans_le (by omega)
  case schema =>
    refine rereads_of_gives fun room _ schema _ => ⟨schema.gives_toValue, ?_⟩
    exact schema.nesting_toValue_le.trans (by omega)
  case settings =>
    refine rereads_of_gives fun room _ settings _ => ⟨settings.gives_toValue, ?_⟩
    exact settings.nesting_toValue.trans_le (by omega)
  case fixture =>
    refine rereads_of_gives fun room _ fixture isRead => ?_
    obtain ⟨ordered, nests⟩ := Fixture.data_of_read isRead
    exact ⟨Fixture.gives_toValue ordered, Fixture.nesting_toValue_le nests⟩

namespace Library

/-- A fixture with records as arrays of their fields and as objects, keys that are missing or
`null`, a table before the one that it comes after, and a field of no meaning. -/
def shelves : Value :=
  .object
    [("schema", .array
        [.array [.array [.string "author"]],
          .array
            [.array [.string "books", .string "author", .string "book", .string "one_to_many",
                .string "author", .null],
              .object
                [("foreign_key", .string "author"), ("from_entity", .string "book"),
                  ("kind", .object [("belongs_to", .null)]), ("name", .string "author"),
                  ("owner_key", .string "penname"), ("to_entity", .string "author")]]]),
      ("data", .object [("book", .array []), ("author", .object [("7", .null)])]),
      ("config", .object [("max_recursion_depth", .number (.integer 2))]),
      ("note", .bool true)]

def stock : Fixture where
  schema :=
    { entities := [{ name := "author" }]
      relations :=
        [{ name := "books", source := "author", target := "book", kind := .oneToMany
           foreignKey := "author" },
         { name := "author", source := "book", target := "author", kind := .belongsTo
           foreignKey := "author", ownerKey := some "penname" }] }
  data := [("author", .object [("7", .null)]), ("book", .array [])]
  settings := some { maxRecursionDepth := some 2 }

theorem read_shelves :
    Fixture.read Document.nestingLimit (Document.ofValue shelves) = .ok stock := rfl

end Library

/-- A fixture in mixed forms is read, and read again from its one written form. -/
theorem written_forms_reread_library :
    Fixture.read Document.nestingLimit (Document.ofValue Library.shelves) = .ok Library.stock
      ∧ (Value.object Library.stock.data).Ordered
      ∧ Reading.ofValue Fixture.read Library.stock.toValue = .ok Library.stock
      ∧ (Reading.ofValue Fixture.read Library.stock.toValue).map Fixture.toValue
          = .ok Library.stock.toValue
      ∧ Fixture.read Document.nestingLimit (Document.ofValue Library.stock.toValue)
          = .ok Library.stock := by
  have ordered := (Fixture.data_of_read Library.read_shelves).1
  obtain ⟨-, -, -, -, readsFixture, -, -, -, -, rereads⟩ := written_forms_reread
  obtain ⟨-, sameForm, sameRoom⟩ := rereads _ _ _ Library.read_shelves
  exact ⟨Library.read_shelves, ordered, readsFixture Library.stock ordered, sameForm,
    sameRoom (by decide)⟩

/-- Data that no document denotes come back in order. -/
example :
    let disordered : Fixture := { data := [("book", .null), ("author", .null)] }
    Reading.ofValue Fixture.read disordered.toValue
      = .ok { data := [("author", .null), ("book", .null)] } := rfl

end EagerLoad
