import EagerLoad.Proofs.Hydration.Levels

/-!
Contract: indexes never show in what is loaded.

Owns: the calls that a resolver has served, the invariant of its indexes over any
sequence of them, and the independence of a result from that sequence and from the
table size beyond which tables are indexed.

Does not own: the agreement of one index with a search (`Join/Cache.lean`), or of one
descent over agreeing indexes with a descent that searches (`Hydration/Direct.lean`).
-/

set_option autoImplicit false

namespace EagerLoad.Resolver

/-- A request to a resolver: what to load for which records of which type. -/
structure Call where
  entity : String
  roots : List Record
  tree : InclusionTree

/-- A resolver after some calls, one after the other. It keeps the indexes that they
built. -/
def serve (resolver : Resolver) (calls : List Call) : Resolver :=
  calls.foldl (fun resolver call => (resolver.resolve call.entity call.roots call.tree).2) resolver

/-- The indexes of a resolver answer as a search of the tables of its records would. -/
def Sound (resolver : Resolver) : Prop := resolver.joins.Agrees resolver.context.view

theorem sound_start (view : RecordView) (schema : Schema) (settings : Settings) :
    (start view schema settings).Sound :=
  JoinCache.agrees_empty _ _

theorem context_resolve (resolver : Resolver) (entity : String) (roots : List Record)
    (tree : InclusionTree) :
    (resolver.resolve entity roots tree).2.context = resolver.context := rfl

theorem Sound.resolve {resolver : Resolver} (sound : resolver.Sound) (entity : String)
    (roots : List Record) (tree : InclusionTree) :
    (resolver.resolve entity roots tree).2.Sound := by
  unfold Sound
  rw [context_resolve]
  exact (resolver.resolve_eq_direct sound entity roots tree).2

/-- What one call keeps, a sequence of calls keeps: the indexes are sound and the
records, the schema and the limit are the same. -/
theorem Sound.serve {resolver : Resolver} (sound : resolver.Sound) (calls : List Call) :
    (resolver.serve calls).Sound ∧ (resolver.serve calls).context = resolver.context := by
  unfold Resolver.serve
  induction calls generalizing resolver with
  | nil => exact ⟨sound, rfl⟩
  | cons call rest inductionHypothesis =>
      rw [List.foldl_cons]
      exact inductionHypothesis (sound.resolve call.entity call.roots call.tree)

/-- After any calls a resolver loads every root without a bound. -/
theorem resolve_serve (view : RecordView) (schema : Schema) (settings : Settings)
    (earlier : List Call) (entity : String) (roots : List Record) (tree : InclusionTree) :
    (((start view schema settings).serve earlier).resolve entity roots tree).1
      = roots.map fun root =>
          Hydration.load (start view schema settings).context entity root tree [] := by
  obtain ⟨sound, sameContext⟩ := (sound_start view schema settings).serve earlier
  rw [(resolve_eq_direct _ sound entity roots tree).1, sameContext]
  rfl

/-- **Indexes never show.** Settings that differ in the size beyond which tables are
indexed load the same, and a resolver loads the same after any earlier calls as one that
has served none. -/
theorem resolve_independent_of_indexes (view : RecordView) (schema : Schema)
    (settings : Settings) (entity : String) (roots : List Record) (tree : InclusionTree) :
    (∀ threshold,
        ((start view schema { settings with hashJoinThreshold := threshold }).resolve
            entity roots tree).1
          = ((start view schema settings).resolve entity roots tree).1)
      ∧ ∀ earlier,
          (((start view schema settings).serve earlier).resolve entity roots tree).1
            = ((start view schema settings).resolve entity roots tree).1 := by
  have fresh := resolve_serve view schema settings [] entity roots tree
  constructor
  · intro threshold
    have other := resolve_serve view schema { settings with hashJoinThreshold := threshold } []
      entity roots tree
    exact other.trans fresh.symm
  · intro earlier
    exact (resolve_serve view schema settings earlier entity roots tree).trans fresh.symm

end EagerLoad.Resolver
