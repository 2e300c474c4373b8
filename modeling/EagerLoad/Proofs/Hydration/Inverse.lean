import EagerLoad.Proofs.Hydration.Occurrence
import EagerLoad.Proofs.Store.History

/-!
Contract: a relation and its inverse attach the same pairs of records.

Owns: which relations are inverse to each other, what a resolver attaches to one record for one
node, and the agreement of both directions on stores whose records are keyed by the schema.

Does not own: the value of one relation (`Hydration/Value.lean`), or what a store holds after
calls (`Store/History.lean`).

The two directions look different fields up. Forward, the foreign key of the target is compared
with a key of the record. Back, the owner is looked up by the key that it is stored under, or by a
field. What makes them agree is that a record is stored under the key of its identity field.
-/

set_option autoImplicit false

namespace EagerLoad

theorem Table.IsFirst.congr {table : Table} {condition other : Record → Prop}
    {found : Option Record} (first : table.IsFirst condition found)
    (same : ∀ record ∈ table, condition record ↔ other record) : table.IsFirst other found := by
  cases found with
  | none => exact fun record member holds => first record member ((same record member).2 holds)
  | some record =>
      obtain ⟨before, after, split, holds, earlier⟩ := first
      have inTable : ∀ item ∈ before ++ record :: after, item ∈ table :=
        fun _ member => split ▸ member
      refine ⟨before, after, split, ?_, ?_⟩
      · exact (same record (inTable record List.mem_append_cons_self)).1 holds
      · intro item member isOther
        exact earlier item member
          ((same item (inTable item (List.mem_append_left _ member))).2 isOther)

theorem Table.IsFirst.eq_none_iff {table : Table} {condition : Record → Prop}
    {found : Option Record} (first : table.IsFirst condition found) :
    found = none ↔ ∀ record ∈ table, ¬ condition record := by
  cases found with
  | none => exact ⟨fun _ => first, fun _ => rfl⟩
  | some record =>
      obtain ⟨before, after, split, holds, _⟩ := first
      constructor
      · intro impossible
        cases impossible
      · intro never
        have member : record ∈ table := split ▸ List.mem_append_cons_self
        exact absurd holds (never record member)

/-! ## Stores keyed by a schema -/

/-- Every record is stored under the key of the identity field of its type. -/
def Store.KeyedBy (schema : Schema) (store : Store) : Prop :=
  ∀ entity, ∀ record ∈ store.records entity,
    record.keyOf (schema.identityField entity) = some record.key

theorem Store.keyedBy_after {schema : Schema} {calls : List Store.Call}
    (identified : ∀ call ∈ calls, ∀ record, call.Writes record →
      call.identityField = schema.identityField call.entity) :
    (Store.after calls).KeyedBy schema := by
  intro entity record stored
  have isWritten := (Store.holds_after calls entity).mem_written stored
  obtain ⟨call, isCall, ofType, writes⟩ := Store.mem_written.1 isWritten
  rw [← ofType, ← identified call isCall record writes]
  unfold Record.keyOf
  rw [writes.identity]
  exact writes.key

/-! ## Inverse relations -/

/-- A `belongsTo` relation goes back along a relation to many: both have the same foreign key, and
name the same field for it to be compared with, or both name none. -/
structure Relation.Inverse (inverse forward : Relation) : Prop where
  belongsTo : inverse.kind = .belongsTo
  oneToMany : forward.kind = .oneToMany
  source : inverse.source = forward.target
  target : inverse.target = forward.source
  foreignKey : inverse.foreignKey = forward.foreignKey
  comparedWith : inverse.ownerKey = forward.localKey

namespace Relation

variable {schema : Schema} {store : Store} {inverse forward : Relation}

/-- A record is joined to another by the key that the foreign key of the other holds. -/
theorem joins_iff_of_foreignKey {relation : Relation} {record other : Record} {key : RecordKey}
    (foreign : other.keyOf relation.foreignKey = some key) :
    relation.Joins record other ↔ relation.forwardKey? record = some key := by
  unfold Joins forwardKey?
  rw [foreign]
  cases relation.localKey with
  | none =>
      constructor
      · intro joins
        obtain ⟨_, same, isKey⟩ := joins
        exact isKey ▸ same.symm
      · intro isKey
        exact ⟨key, rfl, (Option.some.inj isKey).symm⟩
  | some field =>
      constructor
      · intro joins
        obtain ⟨_, same, isKey⟩ := joins
        exact isKey.trans same.symm
      · intro isKey
        exact ⟨key, rfl, isKey⟩

/-- The owner of a record is the first one that the forward relation joins to it. -/
theorem Inverse.isFirst_owner (isInverse : inverse.Inverse forward) (keyed : store.KeyedBy schema)
    {dependent : Record} {value : Attached Record}
    (isValue : inverse.Value schema store dependent value) :
    ∃ owner, value = .one owner
      ∧ (store.records forward.source).IsFirst (fun record => forward.Joins record dependent)
        owner := by
  have sameForeign := isInverse.foreignKey
  have sameField := isInverse.comparedWith
  have sameTarget := isInverse.target
  cases isValue with
  | dependents kind _ => exact absurd (isInverse.belongsTo.symm.trans kind) (by decide)
  | dependent kind _ => exact absurd (isInverse.belongsTo.symm.trans kind) (by decide)
  | noOwner _ keyless =>
      refine ⟨none, rfl, Table.isFirst_none ?_⟩
      intro record joins
      obtain ⟨key, isForeign, _⟩ := joins
      rw [sameForeign, isForeign] at keyless
      cases keyless
  | @ownerByField key field found _ foreign named _ first =>
      rw [sameTarget] at first
      rw [sameForeign] at foreign
      refine ⟨found, rfl, first.congr ?_⟩
      intro record _
      have isForward : forward.forwardKey? record = record.keyOf field := by
        unfold forwardKey?
        rw [← sameField, named]
      rw [joins_iff_of_foreignKey foreign, isForward]
  | @ownerByKey key found _ foreign identity first =>
      rw [sameTarget] at first identity
      rw [sameForeign] at foreign
      refine ⟨found, rfl, first.congr ?_⟩
      intro record stored
      -- a local key can only be the identity field, and the record is stored under it
      have isForward : forward.forwardKey? record = some record.key := by
        unfold forwardKey?
        rw [← sameField]
        cases named : inverse.ownerKey with
        | none => rfl
        | some field =>
            rw [identity field named]
            exact keyed forward.source record stored
      rw [joins_iff_of_foreignKey foreign, isForward, Option.some.injEq]

/-- With the key of the record on one side, at most one stored record is joined to another. -/
theorem eq_of_joins {table : Table} (distinct : table.keys.Nodup) (byKey : forward.localKey = none)
    {first second dependent : Record} (stored : first ∈ table) (otherStored : second ∈ table)
    (joins : forward.Joins first dependent) (otherJoins : forward.Joins second dependent) :
    first = second := by
  unfold Joins at joins otherJoins
  rw [byKey] at joins otherJoins
  obtain ⟨key, isForeign, rfl⟩ := joins
  obtain ⟨otherKey, otherForeign, sameKey⟩ := otherJoins
  have same : second.key = first.key :=
    sameKey.symm.trans (Option.some.inj (otherForeign.symm.trans isForeign))
  have found := (Table.get?_eq_some_iff distinct).2 ⟨stored, rfl⟩
  have otherFound := (Table.get?_eq_some_iff distinct).2 ⟨otherStored, same⟩
  exact Option.some.inj (found.symm.trans otherFound)

end Relation

/-! ## What a resolver attaches for one node -/

namespace Resolver

open Hydration

/-- The records that are attached to a record for a node, when nothing else is requested. -/
def attached (resolver : Resolver) (node : IncludeNode) (record : Record) :
    Option (Attached Record) := do
  let hydrated ← (resolver.resolve node.relation.source [record] [node]).1.head?
  let value ← hydrated.relation? node.name
  some (value.map Hydrated.record)

/-- A resolver attaches what the relation of the node yields, whatever the node requests below. -/
theorem attached_serve (view : RecordView) (schema : Schema) (settings : Settings)
    (earlier : List Call) (node : IncludeNode) (record : Record) :
    ((start view schema settings).serve earlier).attached node record
      = some (Attached.ofList node.relation.kind (node.relation.yields schema view record)) := by
  unfold attached
  rw [resolve_serve, List.map_singleton, load_eq]
  have ofSource : [node].filter (fun other => other.relation.source == node.relation.source)
      = [node] := List.filter_cons_of_pos (beq_self_eq_true node.relation.source)
  unfold entriesOf
  rw [ofSource, List.map_singleton]
  show (List.lookup node.name [(node.name, _)]).bind _ = _
  rw [List.lookup_cons_self]
  show some (Attached.map Hydrated.record (Attached.ofList _ _)) = _
  rw [Attached.map_ofList, map_record_loadStep]
  rfl

/-- A record attaches another for a node: it is in the list that the record gets. -/
def Attaches (resolver : Resolver) (node : IncludeNode) (record other : Record) : Prop :=
  ∃ records, resolver.attached node record = some (.many records) ∧ other ∈ records

theorem attaches_iff {schema : Schema} {store : Store} {settings : Settings} {earlier : List Call}
    {node : IncludeNode} (plural : node.relation.kind = .oneToMany) {record other : Record}
    (stored : other ∈ store.records node.relation.target) :
    ((start store.view schema settings).serve earlier).Attaches node record other
      ↔ node.relation.Joins record other := by
  have isValue := node.relation.value_yields schema store record
  unfold Attaches
  rw [attached_serve, plural]
  rw [plural] at isValue
  cases isValue with
  | dependents _ selected =>
      constructor
      · intro attaches
        obtain ⟨records, same, member⟩ := attaches
        cases same
        exact ((selected.member_iff other).1 member).2
      · intro joins
        exact ⟨_, rfl, (selected.member_iff other).2 ⟨stored, joins⟩⟩

/-- **A relation and its inverse agree.** In a store whose records were each inserted under the
identity field of their type, the inverse relation attaches to a record the earliest record of the
other type that attaches it by the forward relation, and nothing if and only if there is none; the
earliest is the first of the table, whose keys are in the order of their first insertion. Where the
relations are not compared with a field there is one at most. Nothing depends on what the two
nodes request below, on the settings, or on what the resolver has served before. -/
theorem resolve_inverse {schema : Schema} {calls : List Store.Call}
    (identified : ∀ call ∈ calls, ∀ record, call.Writes record →
      call.identityField = schema.identityField call.entity)
    {back forth : IncludeNode} (isInverse : back.relation.Inverse forth.relation)
    (settings : Settings) (earlier : List Call) {dependent : Record}
    (stored : dependent ∈ (Store.after calls).records back.relation.source) :
    let resolver := (start (Store.after calls).view schema settings).serve earlier
    let owners := (Store.after calls).records back.relation.target
    Table.keys owners
        = ((Store.written calls back.relation.target).map Record.key).eraseDups
      ∧ (∃ owner, resolver.attached back dependent = some (.one owner)
          ∧ Table.IsFirst owners (fun record => resolver.Attaches forth record dependent) owner
          ∧ (owner = none ↔ ∀ record ∈ owners, ¬ resolver.Attaches forth record dependent))
      ∧ (forth.relation.localKey = none → ∀ first ∈ owners, ∀ second ∈ owners,
          resolver.Attaches forth first dependent → resolver.Attaches forth second dependent →
            first = second) := by
  intro resolver owners
  rw [isInverse.source] at stored
  have attaches : ∀ record, resolver.Attaches forth record dependent
      ↔ forth.relation.Joins record dependent :=
    fun record => attaches_iff isInverse.oneToMany stored
  have isValue := back.relation.value_yields schema (Store.after calls) dependent
  refine ⟨(Store.holds_after calls back.relation.target).keys, ?_, ?_⟩
  · obtain ⟨owner, isOwner, isFirst⟩ :=
      isInverse.isFirst_owner (Store.keyedBy_after identified) isValue
    rw [← isInverse.target] at isFirst
    have firstAttaching := isFirst.congr fun record _ => (attaches record).symm
    refine ⟨owner, ?_, firstAttaching, firstAttaching.eq_none_iff⟩
    rw [attached_serve, isOwner]
  · intro byKey first isStored second otherStored joins otherJoins
    exact Relation.eq_of_joins (Store.nodup_keys_records _ _) byKey isStored otherStored
      ((attaches first).1 joins) ((attaches second).1 otherJoins)

end Resolver

namespace Sample

/-- The calls that store two parts of each other. -/
def calls : List Store.Call :=
  [.ofFields "part" "id" (part "hull" "mast").fields,
    .ofFields "part" "id" (part "mast" "hull").fields]

theorem after_calls : Store.after calls = store := rfl

theorem inverse_whole_parts : whole.Inverse parts := ⟨rfl, rfl, rfl, rfl, rfl, rfl⟩

theorem identified_calls : ∀ call ∈ calls, ∀ record, call.Writes record →
    call.identityField = schema.identityField call.entity := by
  intro call isCall record _
  simp only [calls, List.mem_cons, List.not_mem_nil, or_false] at isCall
  rcases isCall with rfl | rfl <;> rfl

end Sample

/-- The whole of the hull is the mast, which has the hull among its parts. -/
theorem Resolver.resolve_inverse_parts :
    let resolver := (Resolver.start (Store.after Sample.calls).view Sample.schema {}).serve []
    let owners := (Store.after Sample.calls).records "part"
    Sample.whole.Inverse Sample.parts
      ∧ Sample.part "hull" "mast" ∈ owners
      ∧ resolver.Attaches (.plain Sample.parts) (Sample.part "mast" "hull")
        (Sample.part "hull" "mast")
      ∧ resolver.attached (.plain Sample.whole) (Sample.part "hull" "mast")
        = some (.one (some (Sample.part "mast" "hull"))) := by
  intro resolver owners
  have isTable : owners = [Sample.part "hull" "mast", Sample.part "mast" "hull"] := by
    show (Store.after Sample.calls).records "part" = _
    rw [Sample.after_calls, Sample.records_store]
  have hullStored : Sample.part "hull" "mast" ∈ owners := by
    rw [isTable]
    exact List.mem_cons_self
  have mastStored : Sample.part "mast" "hull" ∈ owners := by
    rw [isTable]
    exact List.mem_cons_of_mem _ List.mem_cons_self
  have isInverse : (IncludeNode.plain Sample.whole).relation.Inverse
      (IncludeNode.plain Sample.parts).relation := Sample.inverse_whole_parts
  obtain ⟨_, ⟨owner, isOwner, isFirst, isNone⟩, atMostOne⟩ :=
    Resolver.resolve_inverse Sample.identified_calls isInverse {} [] hullStored
  have attaches : resolver.Attaches (.plain Sample.parts) (Sample.part "mast" "hull")
      (Sample.part "hull" "mast") :=
    (Resolver.attaches_iff rfl hullStored).2 ⟨⟨"mast"⟩, rfl, rfl⟩
  refine ⟨Sample.inverse_whole_parts, hullStored, attaches, ?_⟩
  cases owner with
  | none => exact absurd attaches (isNone.1 rfl _ mastStored)
  | some owner =>
      obtain ⟨before, after, split, ownerAttaches, _⟩ := isFirst
      have isSplit : owners = before ++ owner :: after := split
      have ownerStored : owner ∈ owners := by
        rw [isSplit]
        exact List.mem_append_cons_self
      rw [isOwner, atMostOne rfl owner ownerStored _ mastStored ownerAttaches attaches]

end EagerLoad
