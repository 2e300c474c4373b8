import EagerLoad.Proofs.Hydration.Entry
import EagerLoad.Proofs.Inclusion.Lookup
import EagerLoad.Proofs.Json.Same
import EagerLoad.Query

/-!
Contract: the members under which a hydrated record shows.

Owns: the value at each key of a record's object, and a condition on the entries of two
hydrated records of one record under which they show the same.

Does not own: which entries a hydrated record has (`Hydration/Entry.lean`).

An object holds its members in ascending order of their keys, so that the order of the
entries does not show. What shows is the value at each key.
-/

set_option autoImplicit false

namespace EagerLoad

open Json (Value Members)

/-- The value under which an attached value shows. -/
def Attached.toValue (schema : Schema) (settings : Settings) : Attached Hydrated → Value
  | .one none => .null
  | .one (some hydrated) => hydrated.toValue schema settings
  | .many records => .array (records.map (Hydrated.toValue schema settings))

theorem Attached.toValue_empty (schema : Schema) (settings : Settings) (kind : RelationKind) :
    (Attached.empty kind).toValue schema settings = kind.emptyValue := by
  unfold Attached.empty Attached.ofList RelationKind.emptyValue
  cases kind.isPlural <;> rfl

namespace Hydrated

variable {schema : Schema} {settings : Settings}

theorem toValues_eq (records : List Hydrated) :
    toValues schema settings records = records.map (toValue schema settings) := by
  induction records with
  | nil => rfl
  | cons first rest inductionHypothesis =>
      rw [toValues, inductionHypothesis, List.map_cons]

theorem relationValues_cons (name : String) (value : Attached Hydrated)
    (rest : List (String × Attached Hydrated)) :
    relationValues schema settings ((name, value) :: rest)
      = (name, value.toValue schema settings) :: relationValues schema settings rest := by
  cases value with
  | one value => cases value <;> rfl
  | many records =>
      rw [relationValues, toValues_eq]
      rfl

theorem get?_relationValues (relations : List (String × Attached Hydrated)) (name : String) :
    Members.get? (relationValues schema settings relations) name
      = (relations.lookup name).map (Attached.toValue schema settings) := by
  induction relations with
  | nil => rfl
  | cons first rest inductionHypothesis =>
      obtain ⟨other, value⟩ := first
      rw [relationValues_cons]
      by_cases same : name = other
      · rw [same, Members.get?_cons_self, List.lookup_cons_self, Option.map_some]
      · have unequal : (name == other) = false := beq_false_of_ne same
        rw [Members.get?_cons_of_ne _ _ same, inductionHypothesis, List.lookup_cons, unequal]

theorem names_relationValues (relations : List (String × Attached Hydrated)) :
    (relationValues schema settings relations).map (fun entry => entry.1)
      = relations.map fun entry => entry.1 := by
  induction relations with
  | nil => rfl
  | cons first rest inductionHypothesis =>
      rw [relationValues_cons, List.map_cons, List.map_cons, inductionHypothesis]

/-! ## The value at a key -/

/-- Of the members set one after the other, that of a key is the new one if there is one. -/
theorem get?_setAll {entries : Members} (members : Members) (key : String)
    (distinct : (entries.map fun entry => entry.1).Nodup) :
    (setAll members entries).get? key = (entries.get? key).or (members.get? key) := by
  induction entries generalizing members with
  | nil => rfl
  | cons entry rest inductionHypothesis =>
      obtain ⟨name, value⟩ := entry
      obtain ⟨fresh, restDistinct⟩ := List.nodup_cons.1 distinct
      have later : (setAll members ((name, value) :: rest)).get? key
          = (Members.get? rest key).or ((members.insert name value).get? key) :=
        inductionHypothesis (members.insert name value) restDistinct
      rw [later]
      by_cases same : key = name
      · subst same
        have absent : Members.get? rest key = none := lookup_eq_none_iff_not_mem.2 fresh
        rw [absent, Option.none_or, Members.get?_insert_self, Members.get?_cons_self,
          Option.some_or]
      · rw [Members.get?_insert_of_ne members value same, Members.get?_cons_of_ne value rest same]

/-- The fields of a record, with the empty values of relations that were not requested. -/
def blank (schema : Schema) (settings : Settings) (hydrated : Hydrated) : Members :=
  setAll hydrated.record.fields (unloaded schema settings hydrated.entity)

theorem blank_congr {left right : Hydrated} (sameEntity : left.entity = right.entity)
    (sameRecord : left.record = right.record) :
    left.blank schema settings = right.blank schema settings := by
  unfold blank
  rw [sameEntity, sameRecord]

theorem nodup_names_unloaded (namesDistinct : schema.NamesDistinct) (settings : Settings)
    (entity : String) :
    ((unloaded schema settings entity).map fun entry => entry.1).Nodup := by
  unfold unloaded
  split
  · rw [List.map_map]
    exact namesDistinct.nodup_names
  · exact List.nodup_nil

/-- With unloaded relations filled in, each relation of the type has its empty value. -/
theorem get?_blank (namesDistinct : schema.NamesDistinct)
    (fills : settings.fillUnloadedRelations = true) {hydrated : Hydrated} {relation : Relation}
    (declared : relation ∈ schema.relationsFrom hydrated.entity) :
    (hydrated.blank schema settings).get? relation.name = some relation.kind.emptyValue := by
  have distinct := nodup_names_unloaded namesDistinct settings hydrated.entity
  have member : (relation.name, relation.kind.emptyValue)
      ∈ unloaded schema settings hydrated.entity := by
    unfold unloaded
    rw [if_pos fills]
    exact List.mem_map.2 ⟨relation, declared, rfl⟩
  have found : Members.get? (unloaded schema settings hydrated.entity) relation.name
      = some relation.kind.emptyValue := (lookup_eq_some_iff_of_nodup distinct).2 member
  unfold blank
  rw [get?_setAll _ _ distinct, found, Option.some_or]

/-- What shows of a record under a key other than that of the identity. -/
def valueAt? (schema : Schema) (settings : Settings) (hydrated : Hydrated) (key : String) :
    Option Value :=
  ((hydrated.relation? key).map (Attached.toValue schema settings)).or
    ((hydrated.blank schema settings).get? key)

/-- The members of the object of a record. -/
def members (schema : Schema) (settings : Settings) (hydrated : Hydrated) : Members :=
  shown schema settings hydrated.entity hydrated.record
    (relationValues schema settings hydrated.relations)

theorem toValue_eq (hydrated : Hydrated) :
    hydrated.toValue schema settings = .object (hydrated.members schema settings) := by
  obtain ⟨entity, record, relations⟩ := hydrated
  rw [toValue]
  rfl

theorem get?_members_identity (hydrated : Hydrated) :
    (hydrated.members schema settings).get? settings.syntheticIdField
      = some hydrated.record.identity :=
  Members.get?_insert_self _ _ _

theorem get?_members {hydrated : Hydrated} (distinct : hydrated.names.Nodup) {key : String}
    (other : key ≠ settings.syntheticIdField) :
    (hydrated.members schema settings).get? key = hydrated.valueAt? schema settings key := by
  have valuesDistinct : ((relationValues schema settings hydrated.relations).map
      fun entry => entry.1).Nodup := by
    rw [names_relationValues]
    exact distinct
  unfold members shown
  rw [Members.get?_insert_of_ne _ _ other, get?_setAll _ _ valuesDistinct, get?_relationValues]
  rfl

/-- **Records show the same** if they are of one record, and the same shows under every key. -/
theorem same_toValue {left right : Hydrated} (sameRecord : left.record = right.record)
    (leftDistinct : left.names.Nodup) (rightDistinct : right.names.Nodup)
    (sameAt : ∀ key, Option.Rel Value.Same (left.valueAt? schema settings key)
      (right.valueAt? schema settings key)) :
    Value.Same (left.toValue schema settings) (right.toValue schema settings) := by
  rw [toValue_eq, toValue_eq]
  apply Value.Same.object
  intro key
  by_cases isIdentity : key = settings.syntheticIdField
  · rw [isIdentity, get?_members_identity, get?_members_identity, sameRecord]
    exact Value.Same.refl? _
  · rw [get?_members leftDistinct isIdentity, get?_members rightDistinct isIdentity]
    exact sameAt key

end Hydrated

end EagerLoad
