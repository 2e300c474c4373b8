import EagerLoad.Proofs.Hydration.Inverse
import EagerLoad.Proofs.Hydration.Simulation
import EagerLoad.Proofs.Query.Reordering

/-!
Contract: the key of a relation that names none is the identity field.

Owns: schemas that spell out the default keys of another, the look-up of a record by its key as a
search by the identity field, and that queries over both schemas answer the same.

Does not own: when the records of a store are keyed by a schema (`Hydration/Inverse.lean`).

A relation without a local key joins on the key that the record is stored under, and one without
an owner key looks the owner up by that key. With the keys spelled out the same is read from
fields. A forward relation then finds the same records only because a stored record has the key of
its identity field, so that the roots of a query must be stored too.
-/

set_option autoImplicit false

namespace EagerLoad

open Json (Value)

/-! ## Look-up by the identity field -/

theorem Table.filter_key_eq {table : Table} (distinct : table.keys.Nodup) (key : RecordKey) :
    table.filter (fun record => decide (record.key = key)) = (table.get? key).toList :=
  filter_eq_find?_of_nodup distinct key

/-- A search by the identity field finds the record of the key and nothing else. -/
theorem Store.scanByField_identityField {schema : Schema} {store : Store}
    (keyed : store.KeyedBy schema) (entity : String) (key : RecordKey) :
    store.view.scanByField entity (schema.identityField entity) key
      = (store.get? entity key).toList := by
  rw [store.get?_eq, ← Table.filter_key_eq (store.nodup_keys_records entity)]
  apply List.filter_congr
  intro record stored
  rw [decide_eq_decide, keyed entity record stored, Option.some.injEq]

/-! ## Default keys spelled out -/

/-- A relation as it is, or with the key spelled out that it has by default: the local key of a
forward relation, or the owner key of a `belongsTo` relation. -/
inductive Relation.Spells (schema : Schema) : Relation → Relation → Prop
  | same (relation : Relation) : Spells schema relation relation
  | localKey {relation : Relation} (forward : relation.kind ≠ .belongsTo)
      (unset : relation.localKey = none) :
      Spells schema relation
        { relation with localKey := some (schema.identityField relation.source) }
  | ownerKey {relation : Relation} (backward : relation.kind = .belongsTo)
      (unset : relation.ownerKey = none) :
      Spells schema relation
        { relation with ownerKey := some (schema.identityField relation.target) }

/-- A schema spells out default keys of another, of whichever relations. -/
structure Schema.SpellsOut (schema other : Schema) : Prop where
  entities : other.entities = schema.entities
  relations : List.Forall₂ (Relation.Spells schema) schema.relations other.relations

namespace Relation.Spells

variable {schema : Schema} {relation other : Relation}

theorem name (spells : relation.Spells schema other) : other.name = relation.name := by
  cases spells <;> rfl

theorem source (spells : relation.Spells schema other) : other.source = relation.source := by
  cases spells <;> rfl

theorem target (spells : relation.Spells schema other) : other.target = relation.target := by
  cases spells <;> rfl

theorem kind (spells : relation.Spells schema other) : other.kind = relation.kind := by
  cases spells <;> rfl

theorem foreignKey (spells : relation.Spells schema other) :
    other.foreignKey = relation.foreignKey := by
  cases spells <;> rfl

/-- From a record that is stored under its identity field the keys are the same. -/
theorem forwardKey?_eq (spells : relation.Spells schema other) {record : Record}
    (forward : relation.kind ≠ .belongsTo)
    (keyed : record.keyOf (schema.identityField relation.source) = some record.key) :
    other.forwardKey? record = relation.forwardKey? record := by
  cases spells with
  | same => rfl
  | localKey _ unset =>
      unfold forwardKey?
      rw [unset]
      exact keyed
  | ownerKey backward _ => exact absurd backward forward

theorem owner?_eq (spells : relation.Spells schema other) {m : Type → Type} [Monad m]
    (view : RecordView) (matching : Matching m) (record : Record)
    (backward : relation.kind = .belongsTo) :
    other.owner? schema view matching record = relation.owner? schema view matching record := by
  cases spells with
  | same => rfl
  | localKey forward _ => exact absurd backward forward
  | ownerKey _ unset =>
      unfold owner?
      cases record.keyOf relation.foreignKey with
      | none => rfl
      | some key =>
          dsimp only
          rw [unset, if_pos rfl]

/-- **The relation yields the same** from a record that is stored under its identity field. -/
theorem yields_eq (spells : relation.Spells schema other) (view : RecordView) {record : Record}
    (keyed : record.keyOf (schema.identityField relation.source) = some record.key) :
    other.yields schema view record = relation.yields schema view record := by
  have dependents : relation.kind ≠ .belongsTo → ∀ matching : Matching Id,
      other.dependents matching record = relation.dependents matching record := by
    intro forward matching
    unfold Relation.dependents
    rw [spells.forwardKey?_eq forward keyed, spells.target, spells.foreignKey]
  unfold yields related
  rw [spells.kind]
  cases isKind : relation.kind with
  | belongsTo =>
      dsimp only
      rw [spells.owner?_eq view _ record isKind]
  | oneToOne =>
      dsimp only
      rw [dependents (by rw [isKind]; decide)]
  | oneToMany =>
      dsimp only
      rw [dependents (by rw [isKind]; decide)]

end Relation.Spells

namespace Schema.SpellsOut

variable {schema other : Schema}

theorem identityField (spellsOut : schema.SpellsOut other) (entity : String) :
    other.identityField entity = schema.identityField entity := by
  unfold Schema.identityField entity?
  rw [spellsOut.entities]

theorem relationsFrom (spellsOut : schema.SpellsOut other) (entity : String) :
    List.Forall₂ (Relation.Spells schema) (schema.relationsFrom entity)
      (other.relationsFrom entity) := by
  refine List.rel_filter ?_ spellsOut.relations
  intro relation otherRelation spells
  show (relation.source == entity) = true ↔ (otherRelation.source == entity) = true
  rw [spells.source]

theorem yields_eq (spellsOut : schema.SpellsOut other) (relation : Relation) (view : RecordView)
    (record : Record) :
    relation.yields other view record = relation.yields schema view record := by
  unfold Relation.yields Relation.related Relation.owner?
  rw [spellsOut.identityField]

theorem unloaded_eq (spellsOut : schema.SpellsOut other) (settings : Settings) (entity : String) :
    Hydrated.unloaded other settings entity = Hydrated.unloaded schema settings entity := by
  have spelled := spellsOut.relationsFrom entity
  unfold Hydrated.unloaded
  generalize schema.relationsFrom entity = relations at spelled
  generalize other.relationsFrom entity = others at spelled
  congr 1
  induction spelled with
  | nil => rfl
  | cons spells rest inductionHypothesis =>
      rw [List.map_cons, List.map_cons, spells.name, spells.kind, inductionHypothesis]

end Schema.SpellsOut

/-! ## Queries -/

namespace Hydrated

variable {schema other : Schema} {settings otherSettings : Settings}

mutual

/-- A record shows the same under schemas and settings by which the same is filled in. -/
theorem toValue_congr
    (sameUnloaded : unloaded other otherSettings = unloaded schema settings)
    (sameField : otherSettings.syntheticIdField = settings.syntheticIdField) :
    (hydrated : Hydrated) →
      toValue other otherSettings hydrated = toValue schema settings hydrated
  | .mk entity record relations => by
      rw [toValue, toValue, relationValues_congr sameUnloaded sameField relations]
      unfold shown
      rw [sameUnloaded, sameField]

theorem relationValues_congr
    (sameUnloaded : unloaded other otherSettings = unloaded schema settings)
    (sameField : otherSettings.syntheticIdField = settings.syntheticIdField) :
    (relations : List (String × Attached Hydrated)) →
      relationValues other otherSettings relations = relationValues schema settings relations
  | [] => rfl
  | (name, .one none) :: rest => by
      rw [relationValues, relationValues, relationValues_congr sameUnloaded sameField rest]
  | (name, .one (some hydrated)) :: rest => by
      rw [relationValues, relationValues, toValue_congr sameUnloaded sameField hydrated,
        relationValues_congr sameUnloaded sameField rest]
  | (name, .many records) :: rest => by
      rw [relationValues, relationValues, toValues_congr sameUnloaded sameField records,
        relationValues_congr sameUnloaded sameField rest]

theorem toValues_congr
    (sameUnloaded : unloaded other otherSettings = unloaded schema settings)
    (sameField : otherSettings.syntheticIdField = settings.syntheticIdField) :
    (records : List Hydrated) →
      toValues other otherSettings records = toValues schema settings records
  | [] => rfl
  | hydrated :: rest => by
      rw [toValues, toValues, toValue_congr sameUnloaded sameField hydrated,
        toValues_congr sameUnloaded sameField rest]

end

end Hydrated

namespace Schema.SpellsOut

open Hydration InclusionTree

variable {schema other : Schema}

theorem alike (schema : Schema) : Alike (Relation.Spells schema) Eq where
  name := Relation.Spells.name
  source := Relation.Spells.source
  target := Relation.Spells.target
  kind := Relation.Spells.kind
  scope := by
    rintro rule _ rfl
    rfl
  union := by
    rintro rule _ added _ rfl rfl
    rfl

/-- A descent over the one schema goes where a descent over the other goes. -/
theorem simulation (spellsOut : schema.SpellsOut other) {store : Store}
    (keyed : store.KeyedBy schema) (maxDepth : Option Nat) :
    Simulation ⟨store.view, schema, maxDepth⟩ ⟨store.view, other, maxDepth⟩
      (Relation.Spells schema) (fun _ => Eq) (fun entity record => record ∈ store.records entity)
    where
  alike _ := alike schema
  declared := spellsOut.relationsFrom
  stored := id
  yields := by
    intro relation otherRelation record spells stored
    rw [spellsOut.yields_eq]
    exact spells.yields_eq store.view (keyed relation.source record stored)
  stops := by
    rintro branch rule _ entity record _ rfl
    rfl
  onward _ := id
  next := by
    rintro branch rule _ entity record _ rfl _
    rfl

end Schema.SpellsOut

/-- **Spelled out keys show nothing new**, at whatever thresholds the indexes are built. -/
theorem Query.run_eq_of_spellsOut {schema other : Schema} (spellsOut : schema.SpellsOut other)
    {store : Store} (keyed : store.KeyedBy schema) (settings : Settings) (threshold : Nat)
    (entity : String) (loads : List Load) {roots : List Record}
    (stored : ∀ root ∈ roots, root ∈ store.records entity) :
    let query : Query := { view := store.view, schema, settings, entity, loads }
    let spelled : Query :=
      { query with
        schema := other
        settings := { settings with hashJoinThreshold := threshold } }
    spelled.run roots = query.run roots := by
  intro query spelled
  rw [run_eq, run_eq]
  apply List.map_congr_left
  intro root member
  have matched := InclusionTree.matches_build (Schema.SpellsOut.alike schema) (fun _ => rfl)
    spellsOut.relationsFrom entity loads
  have sameLoad : Hydration.load ⟨store.view, other, settings.maxRecursionDepth⟩ entity root
        spelled.inclusionTree []
      = Hydration.load ⟨store.view, schema, settings.maxRecursionDepth⟩ entity root
        query.inclusionTree [] :=
    (spellsOut.simulation keyed _).load_eq_load (stored root member) matched
  have sameUnloaded : Hydrated.unloaded other spelled.settings
      = Hydrated.unloaded schema settings := funext (spellsOut.unloaded_eq settings)
  show Hydrated.toValue other spelled.settings (Hydration.load _ entity root _ [])
    = Hydrated.toValue schema settings (Hydration.load _ entity root _ [])
  rw [← Hydrated.toValue_congr sameUnloaded rfl]
  exact congrArg _ sameLoad

/-- **Default keys are the identity field.** In a store whose records were each inserted under the
identity field of their type, the record of a key is the first one whose identity field gives the
key, and the only one. And a query answers the same for stored records whether the schema leaves a
default key unset or spells it out, at whatever thresholds its tables are indexed. -/
theorem Query.default_keys_are_identity {schema : Schema} {calls : List Store.Call}
    (identified : ∀ call ∈ calls, ∀ record, call.Writes record →
      call.identityField = schema.identityField call.entity) :
    let store := Store.after calls
    (∀ entity, (store.records entity).Holds (Store.written calls entity))
      ∧ (∀ entity key,
          let holders := store.view.scanByField entity (schema.identityField entity) key
          store.get? entity key = holders.head?
            ∧ Table.IsFirst (store.records entity)
                (fun record => record.keyOf (schema.identityField entity) = some key)
                (store.get? entity key)
            ∧ holders.length ≤ 1)
      ∧ ∀ other, schema.SpellsOut other → ∀ (settings : Settings)
          (thresholdUnset thresholdSpelled : Nat) (entity : String) (loads : List Load)
          (roots : List Record), (∀ root ∈ roots, root ∈ store.records entity) →
          let query : Query :=
            { view := store.view
              schema
              settings := { settings with hashJoinThreshold := thresholdUnset }
              entity
              loads }
          let spelled : Query :=
            { query with
              schema := other
              settings := { settings with hashJoinThreshold := thresholdSpelled } }
          spelled.run roots = query.run roots := by
  intro store
  have keyed := Store.keyedBy_after identified
  refine ⟨Store.holds_after calls, ?_, ?_⟩
  · intro entity key holders
    have isFound : holders = (store.get? entity key).toList :=
      Store.scanByField_identityField keyed entity key
    have isHead : store.get? entity key = holders.head? := by
      rw [isFound]
      cases store.get? entity key <;> rfl
    refine ⟨isHead, ?_, ?_⟩
    · rw [isHead]
      exact Table.isFirst_head?_filter fun record => decide_eq_true_iff
    · rw [isFound]
      cases store.get? entity key with
      | none => exact Nat.zero_le 1
      | some record => exact Nat.le_refl 1
  · intro other spellsOut settings thresholdUnset thresholdSpelled entity loads roots stored
    exact run_eq_of_spellsOut spellsOut keyed { settings with hashJoinThreshold := thresholdUnset }
      thresholdSpelled entity loads stored

namespace Sample

/-- The schema of parts with the keys of both relations spelled out. -/
def spelledSchema : Schema :=
  { entities := [{ name := "part" }]
    relations :=
      [{ parts with localKey := some "id" }, { whole with ownerKey := some "id" }] }

theorem spellsOut_spelledSchema : schema.SpellsOut spelledSchema where
  entities := rfl
  relations := .cons (.localKey (by decide) rfl) (.cons (.ownerKey rfl rfl) .nil)

end Sample

/-- The hull is found by its field, and a query for everything about it answers the same with the
keys spelled out and every table indexed. -/
theorem Query.default_keys_are_identity_parts :
    let store := Store.after Sample.calls
    let query : Query :=
      { view := store.view
        schema := Sample.schema
        settings := {}
        entity := "part"
        loads := [.allRecursive .unbounded] }
    let spelled : Query :=
      { query with schema := Sample.spelledSchema, settings := { hashJoinThreshold := 0 } }
    (∀ call ∈ Sample.calls, ∀ record, call.Writes record →
        call.identityField = Sample.schema.identityField call.entity)
      ∧ Sample.schema.SpellsOut Sample.spelledSchema
      ∧ Sample.part "hull" "mast" ∈ store.records "part"
      ∧ store.get? "part" ⟨"hull"⟩ = (store.view.scanByField "part" "id" ⟨"hull"⟩).head?
      ∧ spelled.run [Sample.part "hull" "mast"] = query.run [Sample.part "hull" "mast"] := by
  intro store query spelled
  have hullStored : Sample.part "hull" "mast" ∈ store.records "part" := by
    show _ ∈ (Store.after Sample.calls).records "part"
    rw [Sample.after_calls, Sample.records_store]
    exact List.mem_cons_self
  obtain ⟨_, found, answersSame⟩ := Query.default_keys_are_identity Sample.identified_calls
  refine ⟨Sample.identified_calls, Sample.spellsOut_spelledSchema, hullStored,
    (found "part" ⟨"hull"⟩).1, ?_⟩
  refine answersSame Sample.spelledSchema Sample.spellsOut_spelledSchema {} 64 0 "part"
    [.allRecursive .unbounded] _ ?_
  intro root member
  rw [List.mem_singleton.1 member]
  exact hullStored

end EagerLoad
