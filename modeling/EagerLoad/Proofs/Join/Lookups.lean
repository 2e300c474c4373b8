import EagerLoad.Join.Cache
import Mathlib.Data.List.Dedup

/-!
Contract: a cache of indexes over any sequence of look-ups.

Owns: look-ups on one cache, one after the other; which indexes the cache holds after them and
what each of them groups; the answers and the number of indexes that follow.

Does not own: the agreement of one index with a search of its table (`Join/Cache.lean`), or
resolvers, which keep a cache from call to call (`Hydration/Indexing.lean`).

A look-up finds an index, searches the table, or builds an index. Only the last one changes the
cache. It adds an index for a type and field that had none, so that the indexes are those of the
types and fields that were looked up in large tables, each once.
-/

set_option autoImplicit false

namespace EagerLoad

/-- Each bucket of an index holds the records of a table whose field gives the key of the bucket,
in table order. Records whose field gives no key are in no bucket. -/
def KeyIndex.Groups (index : KeyIndex) (table : Table) (field : String) : Prop :=
  ∀ key, index.get key = table.filter fun record => decide (record.keyOf field = some key)

namespace JoinCache

/-- A question to a cache: which records of a type have a field that gives a key. -/
structure Lookup where
  entity : String
  field : String
  key : RecordKey

/-- What a look-up is indexed by, whatever the key that it asks for. -/
def Lookup.indexKey (lookup : Lookup) : String × String := (lookup.entity, lookup.field)

/-- The answer to a look-up, and the cache afterwards. -/
def ask (cache : JoinCache) (view : RecordView) (lookup : Lookup) : List Record × JoinCache :=
  cache.matching view lookup.entity lookup.field lookup.key

/-- The answers to look-ups, one after the other, and the cache after the last of them. -/
def askEach (cache : JoinCache) (view : RecordView) :
    List Lookup → List (List Record) × JoinCache
  | [] => ([], cache)
  | lookup :: rest =>
      let (answer, next) := cache.ask view lookup
      let (answers, last) := next.askEach view rest
      (answer :: answers, last)

variable {cache : JoinCache} {view : RecordView} {threshold : Nat}

/-! ## One look-up -/

/-- How a cache answers: by the index that it has, by a search when the table is small, and
otherwise by a new index, which it keeps. -/
inductive Answers (cache : JoinCache) (view : RecordView) (lookup : Lookup) :
    List Record × JoinCache → Prop
  | known {index : KeyIndex} (found : cache.indexes.lookup lookup.indexKey = some index) :
      Answers cache view lookup (index.get lookup.key, cache)
  | searched (absent : cache.indexes.lookup lookup.indexKey = none)
      (small : view.count lookup.entity ≤ cache.threshold) :
      Answers cache view lookup (view.scanByField lookup.entity lookup.field lookup.key, cache)
  | built {index : KeyIndex} (absent : cache.indexes.lookup lookup.indexKey = none)
      (large : cache.threshold < view.count lookup.entity)
      (groups : index.Groups (view.records lookup.entity) lookup.field) :
      Answers cache view lookup
        (index.get lookup.key,
          { cache with indexes := (lookup.indexKey, index) :: cache.indexes })

theorem answers_ask (cache : JoinCache) (view : RecordView) (lookup : Lookup) :
    cache.Answers view lookup (cache.ask view lookup) := by
  unfold ask matching
  split
  · rename_i index found
    exact .known found
  · rename_i absent
    unfold JoinStrategy.select
    by_cases large : cache.threshold < view.count lookup.entity
    · rw [if_pos large]
      exact .built absent large fun key => KeyIndex.get_ofTable _ _ key
    · rw [if_neg large]
      exact .searched absent (Nat.le_of_not_lt large)

/-- The indexes of a cache after some types and fields were looked up. Each index groups the
table of its own type by its own field. No two indexes are for one type and field, and there is
an index for exactly those that were looked up in a table beyond the threshold. -/
structure Indexes (cache : JoinCache) (view : RecordView) (threshold : Nat)
    (asked : List (String × String)) : Prop where
  sameThreshold : cache.threshold = threshold
  groups : ∀ entity field index, ((entity, field), index) ∈ cache.indexes →
    index.Groups (view.records entity) field
  distinct : (cache.indexes.map Prod.fst).Nodup
  indexed : ∀ indexKey, indexKey ∈ cache.indexes.map Prod.fst
    ↔ indexKey ∈ asked ∧ threshold < view.count indexKey.1

theorem indexes_empty (view : RecordView) (threshold : Nat) :
    (empty threshold).Indexes view threshold [] where
  sameThreshold := rfl
  groups _ _ _ member := absurd member List.not_mem_nil
  distinct := List.nodup_nil
  indexed _ := ⟨fun member => absurd member List.not_mem_nil,
    fun holds => absurd holds.1 List.not_mem_nil⟩

theorem mem_indexes_of_lookup {indexKey : String × String} {index : KeyIndex}
    (found : cache.indexes.lookup indexKey = some index) : (indexKey, index) ∈ cache.indexes := by
  obtain ⟨before, after, split, _⟩ := List.lookup_eq_some_iff.1 found
  rw [split]
  exact List.mem_append_right before List.mem_cons_self

namespace Indexes

variable {asked : List (String × String)} {lookup : Lookup}

theorem groups_of_lookup (indexes : cache.Indexes view threshold asked) {index : KeyIndex}
    (found : cache.indexes.lookup lookup.indexKey = some index) :
    index.Groups (view.records lookup.entity) lookup.field :=
  indexes.groups _ _ _ (mem_indexes_of_lookup found)

/-- A look-up that adds no index leaves the indexes as described, if it has one or needs none. -/
theorem unchanged (indexes : cache.Indexes view threshold asked)
    (unneeded : threshold < view.count lookup.entity →
      lookup.indexKey ∈ cache.indexes.map Prod.fst) :
    cache.Indexes view threshold (lookup.indexKey :: asked) where
  sameThreshold := indexes.sameThreshold
  groups := indexes.groups
  distinct := indexes.distinct
  indexed indexKey := by
    rw [indexes.indexed, List.mem_cons]
    constructor
    · exact fun known => ⟨.inr known.1, known.2⟩
    · rintro ⟨rfl | earlier, large⟩
      · exact (indexes.indexed _).1 (unneeded large)
      · exact ⟨earlier, large⟩

theorem added (indexes : cache.Indexes view threshold asked) {index : KeyIndex}
    (absent : cache.indexes.lookup lookup.indexKey = none)
    (large : threshold < view.count lookup.entity)
    (groups : index.Groups (view.records lookup.entity) lookup.field) :
    Indexes { cache with indexes := (lookup.indexKey, index) :: cache.indexes } view threshold
      (lookup.indexKey :: asked) where
  sameThreshold := indexes.sameThreshold
  groups entity field other member := by
    rcases List.mem_cons.1 member with same | earlier
    · cases same
      exact groups
    · exact indexes.groups entity field other earlier
  distinct := by
    refine List.nodup_cons.2 ⟨?_, indexes.distinct⟩
    intro known
    obtain ⟨entry, member, same⟩ := List.mem_map.1 known
    have differs := List.lookup_eq_none_iff.1 absent entry member
    rw [same, bne_self_eq_false] at differs
    cases differs
  indexed indexKey := by
    rw [List.map_cons, List.mem_cons, List.mem_cons, indexes.indexed]
    constructor
    · rintro (rfl | known)
      · exact ⟨.inl rfl, large⟩
      · exact ⟨.inr known.1, known.2⟩
    · rintro ⟨isLookup | earlier, isLarge⟩
      · exact .inl isLookup
      · exact .inr ⟨earlier, isLarge⟩

/-- **One look-up.** It answers as a search of the table would, and the indexes are as described
afterwards, with one more type and field looked up. -/
theorem ask (indexes : cache.Indexes view threshold asked) (lookup : Lookup) :
    (cache.ask view lookup).1 = view.scanByField lookup.entity lookup.field lookup.key
      ∧ (cache.ask view lookup).2.Indexes view threshold (lookup.indexKey :: asked) := by
  have answers := answers_ask cache view lookup
  generalize cache.ask view lookup = outcome at answers ⊢
  cases answers with
  | known found =>
      have present := List.mem_map_of_mem (f := Prod.fst) (mem_indexes_of_lookup found)
      exact ⟨indexes.groups_of_lookup found _, indexes.unchanged fun _ => present⟩
  | searched _ small =>
      rw [indexes.sameThreshold] at small
      exact ⟨rfl, indexes.unchanged fun large => absurd small (Nat.not_le_of_lt large)⟩
  | built absent large groups =>
      rw [indexes.sameThreshold] at large
      exact ⟨groups _, indexes.added absent large groups⟩

/-! ## Any look-ups -/

/-- What one look-up keeps, a sequence of them keeps. -/
theorem askEach (indexes : cache.Indexes view threshold asked) (lookups : List Lookup) :
    (cache.askEach view lookups).1
        = lookups.map (fun lookup => view.scanByField lookup.entity lookup.field lookup.key)
      ∧ (cache.askEach view lookups).2.Indexes view threshold
          ((lookups.map Lookup.indexKey).reverse ++ asked) := by
  induction lookups generalizing cache asked with
  | nil => exact ⟨rfl, indexes⟩
  | cons lookup rest inductionHypothesis =>
      obtain ⟨answer, next⟩ := indexes.ask lookup
      obtain ⟨answers, last⟩ := inductionHypothesis next
      rw [List.map_cons, List.map_cons, List.reverse_cons, List.append_assoc]
      exact ⟨List.cons_eq_cons.2 ⟨answer, answers⟩, last⟩

/-- An index for each type and field makes as many indexes as there are of these. -/
theorem indexCount_eq (indexes : cache.Indexes view threshold asked) :
    cache.indexCount
      = (asked.dedup.filter fun indexKey => threshold < view.count indexKey.1).length := by
  have sameKeys : (cache.indexes.map Prod.fst).Perm
      (asked.dedup.filter fun indexKey => threshold < view.count indexKey.1) := by
    apply (List.perm_ext_iff_of_nodup indexes.distinct ((List.nodup_dedup asked).filter _)).2
    intro indexKey
    rw [indexes.indexed, List.mem_filter, List.mem_dedup, decide_eq_true_iff]
  unfold indexCount
  rw [← List.length_map Prod.fst, sameKeys.length_eq]

end Indexes

/-- **A cache of indexes never shows, and holds no index in vain.** Over any look-ups on one
cache, of whatever types, fields and keys, each answer is what a search of the table gives, with
the same records in the same order; and afterwards there are as many indexes as there are pairs of
a type and a field among the look-ups, each counted once, whose table holds more records than the
threshold. -/
theorem askEach_eq_scans (view : RecordView) (threshold : Nat) (lookups : List Lookup) :
    ((empty threshold).askEach view lookups).1
        = lookups.map (fun lookup => view.scanByField lookup.entity lookup.field lookup.key)
      ∧ ((empty threshold).askEach view lookups).2.indexCount
          = ((lookups.map Lookup.indexKey).dedup.filter fun indexKey =>
              threshold < (view.records indexKey.1).length).length := by
  obtain ⟨answers, last⟩ := (indexes_empty view threshold).askEach lookups
  refine ⟨answers, ?_⟩
  rw [last.indexCount_eq, List.append_nil]
  have sameMembers : (lookups.map Lookup.indexKey).reverse.dedup.Perm
      (lookups.map Lookup.indexKey).dedup := (List.reverse_perm _).dedup
  exact (sameMembers.filter _).length_eq

end JoinCache

end EagerLoad
