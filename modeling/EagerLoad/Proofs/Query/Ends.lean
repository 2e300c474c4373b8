import EagerLoad.Proofs.Query.Reordering
import EagerLoad.Proofs.Store.History

/-!
Contract: the ends of a query answer alike.

Owns: the object that a query has for one record, the records that an identity selects, and the
agreement of the end for all records with those for the first one and for an identity.

Does not own: what is loaded for a record (`Hydration/`), or what a store holds
(`Store/History.lean`).

The end for all records resolves them one after the other, with the indexes that earlier ones
left behind; the others resolve one record from the start. So the ends agree because the object
of a record is the same in whatever company the record is resolved (`Query.run_eq`), and because
no two records of a type have one key.
-/

set_option autoImplicit false

namespace EagerLoad

open Json (Value Members)

/-- A value identifies a record if it gives the key of the record. -/
def Record.IdentifiedBy (record : Record) (identity : Value) : Prop :=
  RecordKey.ofValue? identity = some record.key

namespace RootFilter

variable {store : Store} {entity : String} {identity : Value}

/-- An identity selects the record that it identifies, and no other. -/
theorem select_ofValue {record : Record} (listed : record ∈ store.records entity)
    (identified : record.IdentifiedBy identity) :
    (ofValue identity).select store.view entity = [record] := by
  have isKey : RecordKey.ofValue? identity = some record.key := identified
  have found : store.get? entity record.key = some record :=
    Store.get?_eq_some_iff.2 ⟨listed, rfl⟩
  unfold ofValue
  rw [isKey]
  show (store.get? entity record.key).toList = [record]
  rw [found, Option.toList_some]

/-- An identity that identifies no record selects none, whether it gives a key or not. -/
theorem select_ofValue_eq_nil
    (unknown : ∀ record ∈ store.records entity, ¬ record.IdentifiedBy identity) :
    (ofValue identity).select store.view entity = [] := by
  unfold ofValue
  cases isKey : RecordKey.ofValue? identity with
  | none => rfl
  | some key =>
      show (store.get? entity key).toList = []
      cases found : store.get? entity key with
      | none => rfl
      | some record =>
          obtain ⟨listed, sameKey⟩ := Store.get?_eq_some_iff.1 found
          exact absurd (isKey.trans (congrArg some sameKey.symm)) (unknown record listed)

end RootFilter

namespace Query

/-- The object that a query has for a record, whichever records are selected. -/
def objectOf (query : Query) (record : Record) : Value :=
  (Hydration.load (Resolver.start query.view query.schema query.settings).context query.entity
    record query.inclusionTree []).toValue query.schema query.settings

theorem get_eq (query : Query) :
    query.get = (query.roots.select query.view query.entity).map query.objectOf :=
  query.run_eq _

theorem find_eq (query : Query) (identity : Value) :
    query.find identity
      = (((RootFilter.ofValue identity).select query.view query.entity).map
          query.objectOf).head? :=
  congrArg List.head? (query.run_eq _)

theorem get_whereKey (query : Query) (identity : Value) :
    (query.whereKey identity).get
      = ((RootFilter.ofValue identity).select query.view query.entity).map query.objectOf :=
  (query.whereKey identity).get_eq

/-- The first of the selected records has the first of their objects. -/
theorem first_eq_head?_get (query : Query) : query.first = query.get.head? := by
  unfold first
  rw [get_eq, run_eq]
  cases query.roots.select query.view query.entity with
  | nil => rfl
  | cons record rest => rfl

/-- A value is the answer of a query for a record: it shows the identity of the record, and it is
what either end for an identity answers to whatever identifies the record. -/
structure Answers (query : Query) (record : Record) (value : Value) : Prop where
  shows : ∃ members : Members, value = .object members
    ∧ members.get? query.settings.syntheticIdField = some record.identity
  found : ∀ identity, record.IdentifiedBy identity → query.find identity = some value
  only : ∀ identity, record.IdentifiedBy identity → (query.whereKey identity).get = [value]

theorem shows_objectOf (query : Query) (record : Record) :
    ∃ members : Members, query.objectOf record = .object members
      ∧ members.get? query.settings.syntheticIdField = some record.identity := by
  refine ⟨_, Hydrated.toValue_eq _, ?_⟩
  rw [Hydrated.get?_members_identity, Hydration.record_load]

theorem answers_objectOf {query : Query} {store : Store} (isView : query.view = store.view)
    {record : Record} (listed : record ∈ store.records query.entity) :
    query.Answers record (query.objectOf record) where
  shows := query.shows_objectOf record
  found identity identified := by
    rw [find_eq, isView, RootFilter.select_ofValue listed identified]
    rfl
  only identity identified := by
    rw [get_whereKey, isView, RootFilter.select_ofValue listed identified]
    rfl

/-- **The ends of a query agree.** After any calls that store, the query for all records of a type
has one object a record, in the order in which their keys were first written. Each is what the ends
for an identity answer to the identity of the record, to its key as a text, and to whatever else
gives the key; to any other value they answer nothing. And whichever records are selected, the
first object is the first of all. -/
theorem ends_agree (calls : List Store.Call) (schema : Schema) (settings : Settings)
    (entity : String) (loads : List Load) :
    let store := Store.after calls
    let query : Query := { view := store.view, schema, settings, entity, loads }
    (store.records entity).Holds (Store.written calls entity)
      ∧ List.Forall₂ query.Answers (store.records entity) query.get
      ∧ (∀ record ∈ store.records entity,
          record.IdentifiedBy record.identity ∧ record.IdentifiedBy (.string record.key.text))
      ∧ (∀ identity, (∀ record ∈ store.records entity, ¬ record.IdentifiedBy identity) →
          query.find identity = none ∧ (query.whereKey identity).get = [])
      ∧ ∀ roots, { query with roots }.first = { query with roots }.get.head? := by
  intro store query
  have holds := Store.holds_after calls entity
  refine ⟨holds, ?_, ?_, ?_, fun roots => first_eq_head?_get _⟩
  · rw [get_eq]
    show List.Forall₂ _ _ ((store.records entity).map query.objectOf)
    rw [List.forall₂_map_right_iff, List.forall₂_same]
    intro record listed
    exact answers_objectOf rfl listed
  · intro record listed
    obtain ⟨call, _, _, writes⟩ := Store.mem_written.1 (holds.mem_written listed)
    exact ⟨writes.key, rfl⟩
  · intro identity unknown
    have selectsNone : (RootFilter.ofValue identity).select query.view query.entity = [] :=
      RootFilter.select_ofValue_eq_nil unknown
    rw [find_eq, get_whereKey, selectsNone]
    exact ⟨rfl, rfl⟩

end Query

end EagerLoad
