import Std.Data.HashMap
import EagerLoad.Store.Basic

/-!
Contract: finding the records whose field gives a key.

Owns: the choice between searching a table and indexing it, indexes by key, and
the cache that keeps an index once it is built.

Does not own: which fields are joined on (`Hydration/Lookup.lean`).

A table of at most `threshold` records is searched. A greater one is indexed on
first use. Either way the answer is the records of `RecordView.scanByField`, in
the same order.
-/

set_option autoImplicit false

namespace EagerLoad

inductive JoinStrategy where
  | nestedLoop
  | hashJoin
  deriving DecidableEq, Repr

namespace JoinStrategy

/-- The strategy for a table of `count` records. -/
def select (count threshold : Nat) : JoinStrategy :=
  if threshold < count then .hashJoin else .nestedLoop

end JoinStrategy

/-- The records of a table by the key that one of their fields gives. -/
structure KeyIndex where
  buckets : Std.HashMap String (List Record)

namespace KeyIndex

/-- The index of a table by a field. Each bucket is in table order. -/
def ofTable (table : Table) (field : String) : KeyIndex where
  buckets := table.foldr
    (fun record buckets =>
      match record.keyOf field with
      | some key => buckets.insert key.text (record :: buckets.getD key.text [])
      | none => buckets)
    ∅

def get (index : KeyIndex) (key : RecordKey) : List Record := index.buckets.getD key.text []

/-- The bucket of a key holds the records whose field gives the key, in table order. -/
theorem get_ofTable (table : Table) (field : String) (key : RecordKey) :
    (ofTable table field).get key
      = table.filter fun record => decide (record.keyOf field = some key) := by
  obtain ⟨wanted⟩ := key
  unfold ofTable get
  dsimp only
  induction table with
  | nil => simp
  | cons record rest inductionHypothesis =>
    rw [List.foldr_cons, List.filter_cons]
    cases isKey : record.keyOf field with
    | none => simpa [isKey] using inductionHypothesis
    | some given =>
      obtain ⟨text⟩ := given
      rw [Std.HashMap.getD_insert, inductionHypothesis]
      by_cases same : text = wanted
      · subst same
        simp [inductionHypothesis]
      · simp [same]

end KeyIndex

/-- The indexes built so far, by type and field, and the table size beyond which a
table is indexed. -/
structure JoinCache where
  threshold : Nat
  indexes : List ((String × String) × KeyIndex)

namespace JoinCache

def empty (threshold : Nat) : JoinCache := ⟨threshold, []⟩

def indexCount (cache : JoinCache) : Nat := cache.indexes.length

/-- The records of a type whose field gives a key, and the cache afterwards. -/
def matching (cache : JoinCache) (view : RecordView) (entity field : String) (key : RecordKey) :
    List Record × JoinCache :=
  match cache.indexes.lookup (entity, field) with
  | some index => (index.get key, cache)
  | none =>
      match JoinStrategy.select (view.count entity) cache.threshold with
      | .nestedLoop => (view.scanByField entity field key, cache)
      | .hashJoin =>
          let index := KeyIndex.ofTable (view.records entity) field
          (index.get key, { cache with indexes := ((entity, field), index) :: cache.indexes })

/-- Every index of a cache answers as a search of the table would. -/
def Agrees (cache : JoinCache) (view : RecordView) : Prop :=
  ∀ entity field index, cache.indexes.lookup (entity, field) = some index →
    ∀ key, index.get key = view.scanByField entity field key

theorem agrees_empty (threshold : Nat) (view : RecordView) : (empty threshold).Agrees view := by
  intro entity field index found
  cases found

/-- A cache that agrees with the tables answers as a search would, and still agrees
with them afterwards. -/
theorem matching_of_agrees {cache : JoinCache} {view : RecordView} (agrees : cache.Agrees view)
    (entity field : String) (key : RecordKey) :
    (cache.matching view entity field key).1 = view.scanByField entity field key
      ∧ (cache.matching view entity field key).2.Agrees view := by
  unfold matching
  split
  · rename_i index found
    exact ⟨agrees entity field index found key, agrees⟩
  · split
    · exact ⟨rfl, agrees⟩
    · refine ⟨KeyIndex.get_ofTable _ _ _, ?_⟩
      intro entity' field' index found key'
      rw [List.lookup_cons] at found
      split at found
      · rename_i same
        cases found
        cases eq_of_beq same
        exact KeyIndex.get_ofTable _ _ _
      · exact agrees entity' field' index found key'

end JoinCache

end EagerLoad
