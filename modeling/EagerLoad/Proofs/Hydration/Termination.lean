import EagerLoad.Proofs.Hydration.Indexing
import EagerLoad.Proofs.Hydration.Trail
import Mathlib.Data.List.Forall2

/-!
Contract: loading ends, however cyclic schema and data are.

Owns: the rule of the descent without any bound, the agreement of loading with that
rule, and the number of levels that a store and a tree allow.

Does not own: the argument that a bound never shows (`Levels.lean`).

Authority boundary: `Descends` says what the descent does and nothing about when it
ends. A derivation is finite, so to derive a result is to show that the descent ends
with it. The levels that the resolver counts down affect this in no way.
-/

set_option autoImplicit false

namespace EagerLoad

namespace Hydration

/-- The descent without a bound: it ends with a record once it has ended for every
record that a node of the record's type yields, each one record further down. -/
inductive Descends (context : Context) :
    String → Record → InclusionTree → List Ancestor → Hydrated → Prop
  | intro {entity : String} {record : Record} {tree : InclusionTree} {chain : List Ancestor}
      (attached : IncludeNode → Record → Hydrated)
      (below : ∀ node ∈ tree, node.relation.source = entity →
        ∀ related ∈ node.relation.yields context.schema context.view record,
          Descends context node.relation.target related
            (context.step (⟨entity, record.key⟩ :: chain) node related).tree
            (⟨entity, record.key⟩ :: chain) (attached node related)) :
      Descends context entity record tree chain
        (.mk entity record (entriesOf context entity record tree fun node related =>
          (context.step (⟨entity, record.key⟩ :: chain) node related).finish context.schema
            (attached node related)))

theorem Descends.eq_load {context : Context} {entity : String} {record : Record}
    {tree : InclusionTree} {chain : List Ancestor} {hydrated : Hydrated}
    (descends : Descends context entity record tree chain hydrated) :
    hydrated = load context entity record tree chain := by
  induction descends with
  | intro attached below inductionHypothesis =>
      rw [load_eq]
      congr 1
      apply entriesOf_congr
      intro node member ofType related yielded
      unfold loadStep
      rw [inductionHypothesis node member ofType related yielded]

theorem descends_load (context : Context) (entity : String) (record : Record)
    (tree : InclusionTree) (chain : List Ancestor) :
    Descends context entity record tree chain (load context entity record tree chain) := by
  -- known stays the same all the way down, so that the room below falls with each level
  have withRoom : ∀ (known : List Ancestor) (levels : Nat) (entity : String) (record : Record)
      (tree : InclusionTree) (chain : List Ancestor), Knows context known tree →
      room known (⟨entity, record.key⟩ :: chain) tree < levels →
      Descends context entity record tree chain (load context entity record tree chain) := by
    intro known levels
    induction levels with
    | zero =>
        intro _ _ _ _ _ enough
        omega
    | succ levels inductionHypothesis =>
        intro entity record tree chain knows enough
        rw [load_eq]
        refine Descends.intro (fun node related =>
          load context node.relation.target related
            (context.step (⟨entity, record.key⟩ :: chain) node related).tree
            (⟨entity, record.key⟩ :: chain)) ?_
        intro node member _ related yielded
        obtain ⟨smaller, stillKnows⟩ :=
          room_step_lt (⟨entity, record.key⟩ :: chain) knows member yielded
        exact inductionHypothesis _ _ _ _ stillKnows (by omega)
  exact withRoom _ _ entity record tree chain (knows_reachable context tree) (Nat.lt_succ_self _)

/-- The descent ends, and with what is loaded only. -/
theorem descends_iff (context : Context) (entity : String) (record : Record)
    (tree : InclusionTree) (chain : List Ancestor) (hydrated : Hydrated) :
    Descends context entity record tree chain hydrated
      ↔ hydrated = load context entity record tree chain := by
  constructor
  · exact Descends.eq_load
  · intro same
    subst same
    exact descends_load context entity record tree chain

/-- A trail is no longer than the room below the record that it starts from. -/
theorem length_le_room {context : Context} {known : List Ancestor} {entity : String}
    {record : Record} {tree : InclusionTree} {chain : List Ancestor} {trail : Hydrated.Trail}
    (knows : Knows context known tree)
    (contained : (load context entity record tree chain).Contains trail) :
    trail.length ≤ room known (⟨entity, record.key⟩ :: chain) tree := by
  induction trail generalizing entity record tree chain with
  | nil => exact Nat.zero_le _
  | cons first rest inductionHypothesis =>
      obtain ⟨last, reaches⟩ := contained
      obtain ⟨node, member, _, _, yielded, below⟩ := reaches_load_cons.1 reaches
      obtain ⟨smaller, stillKnows⟩ :=
        room_step_lt (⟨entity, record.key⟩ :: chain) knows member yielded
      have restLe := inductionHypothesis stillKnows (contains_finish.1 ⟨last, below⟩)
      rw [List.length_cons]
      omega

end Hydration

namespace Store

/-- The records of a store, as entries of a branch. -/
def entries (store : Store) : List Ancestor :=
  store.tables.flatMap fun table => table.2.toTable.map fun record => ⟨table.1, record.key⟩

theorem length_entries (store : Store) : store.entries.length = store.size := by
  unfold entries size
  induction store.tables with
  | nil => rfl
  | cons first rest inductionHypothesis =>
      rw [List.flatMap_cons, List.length_append, List.length_map, List.foldr_cons,
        inductionHypothesis]
      rfl

theorem mem_entries {store : Store} {entity : String} {record : Record}
    (stored : record ∈ store.records entity) :
    (⟨entity, record.key⟩ : Ancestor) ∈ store.entries := by
  unfold records at stored
  cases found : store.tables.lookup entity with
  | none =>
      rw [found] at stored
      cases stored
  | some table =>
      rw [found] at stored
      obtain ⟨before, after, split, _⟩ := List.lookup_eq_some_iff.1 found
      apply List.mem_flatMap.2
      refine ⟨(entity, table), ?_, List.mem_map_of_mem stored⟩
      rw [split]
      exact List.mem_append_right _ List.mem_cons_self

end Store

namespace Resolver

/-- **Loading ends.** For every schema, store, settings, tree and list of roots, and after
any earlier calls, each hydrated root is the one result of the unbounded descent, and what
is attached below it lies at most as many levels deep as the tree has levels and the store
has records. -/
theorem resolve_terminates (schema : Schema) (store : Store) (settings : Settings)
    (earlier : List Call) (entity : String) (roots : List Record) (tree : InclusionTree) :
    List.Forall₂
      (fun root hydrated =>
        (∀ result, Hydration.Descends (start store.view schema settings).context entity root tree []
            result ↔ result = hydrated)
          ∧ ∀ trail, hydrated.Contains trail →
              trail.length ≤ InclusionTree.depth tree + store.size)
      roots (((start store.view schema settings).serve earlier).resolve entity roots tree).1 := by
  rw [resolve_serve, List.forall₂_map_right_iff, List.forall₂_same]
  intro root _
  refine ⟨fun result => Hydration.descends_iff _ _ _ _ _ result, ?_⟩
  intro trail contained
  have knows : Hydration.Knows (start store.view schema settings).context store.entries tree :=
    ⟨fun _ _ _ stored => Store.mem_entries stored, fun _ _ _ stored => Store.mem_entries stored⟩
  calc trail.length
      ≤ Hydration.room store.entries [⟨entity, root.key⟩] tree :=
        Hydration.length_le_room knows contained
    _ ≤ store.entries.length + InclusionTree.depth tree := Hydration.room_le _ _ _
    _ = InclusionTree.depth tree + store.size := by rw [Store.length_entries, Nat.add_comm]

end Resolver

end EagerLoad
