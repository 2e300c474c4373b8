import EagerLoad.Hydration.Resolve

/-!
Contract: loading without indexes, as the meaning of loading.

Owns: the instance of the descent that searches tables, its equations, and the
agreement of a resolver with it, whatever the resolver has indexed before.

Does not own: the descent itself (`Hydration/Resolve.lean`).

A descent is one definition over a way to find records. Searching needs no state,
so its instance is a plain function, and statements about what is loaded are
statements about that function. A resolver threads a cache instead. The cache
changes from step to step, but an index answers as a search does, so the state
never shows in an answer.
-/

set_option autoImplicit false

namespace EagerLoad

namespace Relation

/-- The records that a relation yields from a record. -/
def yields (schema : Schema) (view : RecordView) (relation : Relation) (record : Record) :
    List Record :=
  relation.related (m := Id) schema view (fun entity field key => view.scanByField entity field key)
    record

end Relation

namespace Hydration

/-- The descent that searches tables. -/
def direct (context : Context) (levels : Nat) (entity : String) (record : Record)
    (tree : InclusionTree) (chain : List Ancestor) : Hydrated :=
  hydrate (m := Id) context (fun entity field key => context.view.scanByField entity field key)
    levels entity record tree chain

/-- What a node attaches for one related record below a branch. -/
def directStep (context : Context) (levels : Nat) (branch : List Ancestor) (node : IncludeNode)
    (related : Record) : Hydrated :=
  match context.step branch node related with
  | .follow tree => direct context levels node.relation.target related tree branch
  | .cut tree scope =>
      withEmptyValues context.schema scope
        (direct context levels node.relation.target related tree branch)

/-- The entry that a node gives a record below a chain. -/
def directEntry (context : Context) (levels : Nat) (branch : List Ancestor) (record : Record)
    (node : IncludeNode) : String × Attached Hydrated :=
  (node.name,
    Attached.ofList node.relation.kind
      ((node.relation.yields context.schema context.view record).map
        (directStep context levels branch node)))

@[simp] theorem direct_zero (context : Context) (entity : String) (record : Record)
    (tree : InclusionTree) (chain : List Ancestor) :
    direct context 0 entity record tree chain = .mk entity record [] := rfl

/-- One level of the descent: every node of the record's type gives one entry. -/
theorem direct_succ (context : Context) (levels : Nat) (entity : String) (record : Record)
    (tree : InclusionTree) (chain : List Ancestor) :
    direct context (levels + 1) entity record tree chain
      = .mk entity record
          ((tree.filter fun node => node.relation.source == entity).map
            (directEntry context levels (⟨entity, record.key⟩ :: chain) record)) := by
  have mapM_eq_map : ∀ {α β : Type} (f : α → β) (items : List α),
      (items.mapM (m := Id) f) = items.map f := fun f items => List.idRun_mapM (l := items)
  unfold direct
  unfold hydrate
  simp only [bind, pure]
  rw [mapM_eq_map]
  congr 1
  refine List.map_congr_left fun node _ => ?_
  rw [mapM_eq_map]
  unfold directEntry
  congr 2

/-! ## A resolver loads what the direct descent loads -/

/-- A computation over a state gives `value`, and keeps the states in `valid`, when it
starts from one of them. -/
def Gives {σ α : Type} (valid : σ → Prop) (computation : StateM σ α) (value : α) : Prop :=
  ∀ state, valid state → (computation state).1 = value ∧ valid (computation state).2

namespace Gives

variable {σ α β : Type} {valid : σ → Prop}

theorem pure (value : α) : Gives valid (Pure.pure value) value :=
  fun _ isValid => ⟨rfl, isValid⟩

theorem bind {first : StateM σ α} {value : α} {next : α → StateM σ β} {result : β}
    (givesValue : Gives valid first value) (givesResult : Gives valid (next value) result) :
    Gives valid (first >>= next) result := by
  intro state isValid
  obtain ⟨isValue, staysValid⟩ := givesValue state isValid
  show (next (first state).1 (first state).2).1 = result
    ∧ valid (next (first state).1 (first state).2).2
  rw [isValue]
  exact givesResult _ staysValid

theorem mapM {step : α → StateM σ β} {value : α → β} (items : List α)
    (gives : ∀ item, Gives valid (step item) (value item)) :
    Gives valid (items.mapM step) (items.map value) := by
  induction items with
  | nil => exact pure _
  | cons item rest inductionHypothesis =>
    rw [List.mapM_cons]
    exact (gives item).bind (inductionHypothesis.bind (pure _))

end Gives

/-- A way to find records that gives what a search gives, and keeps its state valid. -/
def Finds {σ : Type} (valid : σ → Prop) (view : RecordView) (matching : Matching (StateM σ)) :
    Prop :=
  ∀ entity field key, Gives valid (matching entity field key) (view.scanByField entity field key)

theorem gives_related {σ : Type} {valid : σ → Prop} {view : RecordView}
    {matching : Matching (StateM σ)} (finds : Finds valid view matching) (schema : Schema)
    (relation : Relation) (record : Record) :
    Gives valid (relation.related schema view matching record)
      (relation.yields schema view record) := by
  have givesDependents : Gives valid (relation.dependents matching record)
      (relation.dependents (m := Id)
        (fun entity field key => view.scanByField entity field key) record) := by
    unfold Relation.dependents
    split
    · exact finds _ _ _
    · exact Gives.pure _
  have givesOwner : Gives valid (relation.owner? schema view matching record)
      (relation.owner? (m := Id) schema view
        (fun entity field key => view.scanByField entity field key) record) := by
    unfold Relation.owner?
    split
    · exact Gives.pure _
    · split
      · exact Gives.pure _
      · split
        · exact Gives.pure _
        · exact (finds _ _ _).bind (Gives.pure _)
  unfold Relation.yields Relation.related
  split
  · exact givesOwner.bind (Gives.pure _)
  · exact givesDependents.bind (Gives.pure _)
  · exact givesDependents

/-- The descent over any such way to find records gives the direct descent. -/
theorem gives_hydrate {σ : Type} {valid : σ → Prop} {context : Context}
    {matching : Matching (StateM σ)} (finds : Finds valid context.view matching) (levels : Nat) :
    ∀ entity record tree chain,
      Gives valid (hydrate context matching levels entity record tree chain)
        (direct context levels entity record tree chain) := by
  induction levels with
  | zero => exact fun _ _ _ _ => Gives.pure _
  | succ levels inductionHypothesis =>
    intro entity record tree chain
    rw [direct_succ]
    unfold hydrate
    refine Gives.bind (Gives.mapM _ fun node => ?_) (Gives.pure _)
    refine (gives_related finds context.schema node.relation record).bind ?_
    refine Gives.bind (Gives.mapM _ fun related => ?_) (Gives.pure _)
    unfold directStep
    cases context.step (⟨entity, record.key⟩ :: chain) node related with
    | follow tree => exact inductionHypothesis _ _ _ _
    | cut tree scope => exact (inductionHypothesis _ _ _ _).bind (Gives.pure _)

end Hydration

namespace Resolver

/-- A resolver whose indexes agree with the tables loads what the direct descent
loads, and its indexes still agree afterwards. -/
theorem resolve_eq_direct (resolver : Resolver)
    (agrees : resolver.joins.Agrees resolver.context.view) (entity : String)
    (roots : List Record) (tree : InclusionTree) :
    (resolver.resolve entity roots tree).1
        = roots.map (fun root =>
            Hydration.direct resolver.context (Hydration.levelBound resolver.context tree)
              entity root tree [])
      ∧ (resolver.resolve entity roots tree).2.joins.Agrees resolver.context.view := by
  have finds : Hydration.Finds (fun cache : JoinCache => cache.Agrees resolver.context.view)
      resolver.context.view (cachedMatching resolver.context.view) :=
    fun entity field key cache isValid => JoinCache.matching_of_agrees isValid entity field key
  exact Hydration.Gives.mapM roots
    (fun root => Hydration.gives_hydrate finds _ entity root tree []) resolver.joins agrees

end Resolver

end EagerLoad
