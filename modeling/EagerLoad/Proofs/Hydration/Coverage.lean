import EagerLoad.Proofs.Hydration.Fitting
import EagerLoad.Proofs.Hydration.Occurrence
import EagerLoad.Proofs.Hydration.Walks

/-!
Contract: what is loaded for a list of requests, and nothing else.

Owns: the entries at the end of a walk; the walks that explicit paths and recursive
requests lead along; that a result holds exactly these walks, with exactly these entries.

Does not own: the values of entries (`Occurrence.lean`).
-/

set_option autoImplicit false

namespace EagerLoad

namespace Hydration

open InclusionTree (Shaped Fits Branch ruleAt get?)

variable {context : Context} {branch chain : List Ancestor} {entity lastEntity : String}
  {tree : InclusionTree} {node : IncludeNode} {record last : Record} {walk : List Hop}

/-! ## Trails are walks -/

theorem exists_reaches_of_finish {schema : Schema} {step : Step} {hydrated reached : Hydrated}
    {trail : Hydrated.Trail} (reaches : (step.finish schema hydrated).Reaches trail reached) :
    ∃ loaded, hydrated.Reaches trail loaded ∧ loaded.entity = reached.entity
      ∧ loaded.record = reached.record := by
  cases trail with
  | nil =>
      have same : reached = step.finish schema hydrated := reaches
      rw [same, entity_finish, record_finish]
      exact ⟨hydrated, rfl, rfl, rfl⟩
  | cons first rest => exact ⟨reached, reaches_finish_cons.1 reaches, rfl, rfl⟩

/-- What is attached below a loaded record is met on a walk from it. -/
theorem exists_walk_of_reaches {ruled : Bool} {trail : Hydrated.Trail} {reached : Hydrated}
    (shaped : Shaped context.schema ruled entity tree)
    (reaches : (load context entity record tree chain).Reaches trail reached) :
    ∃ walk : List Hop, walk.map Hop.mark = trail
      ∧ IsWalk context.schema context.view entity record walk reached.entity reached.record := by
  induction trail generalizing entity record tree chain ruled reached with
  | nil =>
      have same : reached = load context entity record tree chain := reaches
      rw [same, entity_load, record_load]
      exact ⟨[], rfl, .nil⟩
  | cons first rest inductionHypothesis =>
      obtain ⟨name, related⟩ := first
      obtain ⟨node, member, _, rfl, yielded, below⟩ := reaches_load_cons.1 reaches
      obtain ⟨loaded, loadedReaches, sameEntity, sameRecord⟩ := exists_reaches_of_finish below
      obtain ⟨walk, rfl, isWalk⟩ :=
        inductionHypothesis (shaped_step _ shaped member related) loadedReaches
      rw [sameEntity, sameRecord] at isWalk
      exact ⟨⟨node.relation, related⟩ :: walk, rfl, .cons (shaped.declared member) yielded isWalk⟩

/-! ## Entries at the end of a walk -/

/-- Every entry is that of a relation declared on the type of its record. -/
theorem exists_relation_of_mem_names (namesDistinct : context.schema.NamesDistinct)
    {trail : Hydrated.Trail} {reached : Hydrated} {name : String}
    (fits : Fits context.schema entity tree)
    (reaches : (load context entity record tree chain).Reaches trail reached)
    (member : name ∈ reached.names) :
    ∃ relation ∈ context.schema.relationsFrom reached.entity, relation.name = name := by
  induction trail generalizing entity record tree chain with
  | nil =>
      have same : reached = load context entity record tree chain := reaches
      rw [same, names_load] at member
      obtain ⟨node, selected, sameName⟩ := List.mem_map.1 member
      rw [same, entity_load]
      exact ⟨node.relation, fits.declared (List.mem_filter.1 selected).1, sameName⟩
  | cons first rest inductionHypothesis =>
      obtain ⟨name, related⟩ := first
      obtain ⟨node, nodeMember, _, _, _, below⟩ := reaches_load_cons.1 reaches
      cases rest with
      | nil =>
          have same : reached = loadStep context (⟨entity, record.key⟩ :: chain) node related :=
            below
          rw [same] at member ⊢
          obtain ⟨value, entry⟩ := Hydrated.mem_names.1 member
          obtain ⟨relation, declared, sameName, _⟩ :=
            exists_relation_of_mem_relations_loadStep namesDistinct fits nodeMember entry
          rw [entity_loadStep]
          exact ⟨relation, declared, sameName⟩
      | cons second later =>
          have stepFits := fits_step namesDistinct (⟨entity, record.key⟩ :: chain) fits nodeMember
            related
          exact inductionHypothesis stepFits (reaches_finish_cons.1 below)

/-- **The entries at the end of a walk** are those of the branches that go on from it, and
of what a rule that rode along it follows. -/
theorem mem_names_of_reaches (namesDistinct : context.schema.NamesDistinct)
    (isWalk : IsWalk context.schema context.view entity record walk lastEntity last)
    (shaped : Shaped context.schema true entity tree) {reached : Hydrated}
    (reaches : (load context entity record tree chain).Reaches (walk.map Hop.mark) reached)
    {relation : Relation} (declared : relation ∈ context.schema.relationsFrom lastEntity) :
    relation.name ∈ reached.names
      ↔ Branch tree (names walk ++ [relation.name])
        ∨ ∃ scope, Rides context.maxDepth tree (⟨entity, record.key⟩ :: chain) scope walk
            ∧ scope.admits relation.name = true := by
  induction isWalk generalizing tree chain with
  | nil =>
      have same : reached = _ := reaches
      rw [same, mem_names_load shaped.fits]
      exact ⟨.inl, fun either => either.resolve_right fun ⟨_, impossible, _⟩ => impossible⟩
  | @cons entity _ record _ first rest firstDeclared yielded onward inductionHypothesis =>
      obtain ⟨node, found, below⟩ :=
        (reaches_load_hop namesDistinct shaped firstDeclared yielded).1 reaches
      have isRelation := relation_eq_of_get? namesDistinct shaped firstDeclared found
      have member := List.mem_of_find?_eq_some found
      show _ ↔ Branch tree (first.relation.name :: (names rest ++ [relation.name])) ∨ _
      rw [InclusionTree.branch_cons_iff found]
      cases onward with
      | nil =>
          have same : reached
              = loadStep context (⟨entity, record.key⟩ :: chain) node first.record := below
          rw [same, mem_names_loadStep namesDistinct shaped.fits member (isRelation ▸ declared)]
          apply or_congr_right
          have ruled := InclusionTree.ruleAt_of_get? found
          simp only [rides_cons_iff, ruled]
          constructor
          · intro holds
            rcases holds with ⟨rule, isRule, admitted⟩
            refine ⟨rule.scope, ⟨rule, isRule, rfl, ?_, ?_, open_single _ _ _⟩, admitted⟩
            · exact fun _ impossible => nomatch impossible
            · exact Depth.allows_one _
          · intro holds
            rcases holds with ⟨_, ⟨rule, isRule, rfl, _⟩, admitted⟩
            exact ⟨rule, isRule, admitted⟩
      | @cons _ _ _ _ second later secondDeclared secondYielded onward =>
          have stepShaped := shaped_step (⟨entity, record.key⟩ :: chain) shaped member
            first.record
          have loaded : (load context first.relation.target first.record
              (context.step (⟨entity, record.key⟩ :: chain) node first.record).tree
              (⟨entity, record.key⟩ :: chain)).Reaches ((second :: later).map Hop.mark)
              reached := by
            rw [← isRelation]
            exact reaches_finish_cons.1 below
          rw [isRelation] at stepShaped
          rw [inductionHypothesis stepShaped loaded declared]
          have added := branch_step_iff (⟨entity, record.key⟩ :: chain) node first
            (names later ++ [relation.name]) (isRelation.symm ▸ secondDeclared)
          show Branch _ (second.relation.name :: (names later ++ [relation.name])) ∨ _
            ↔ Branch _ (second.relation.name :: (names later ++ [relation.name])) ∨ _
          rw [added]
          have ridden := fun scope => rides_step_iff (⟨entity, record.key⟩ :: chain) scope later
            shaped found isRelation secondDeclared
          simp only [List.append_eq_nil_iff, List.cons_ne_nil, and_false, false_and, or_false]
          apply or_congr_right
          exact exists_congr fun scope => and_congr_left fun _ => ridden scope

/-! ## What a list of requests leads along -/

/-- Some requested path covers these names. -/
def Covered (loads : List Load) (names : List String) : Prop :=
  ∃ segments, .path segments ∈ loads.flatMap Load.requests ∧ Path.Segment.Cover segments names

/-- Recursive requests lead along a walk from a root. Those that follow its first relation
follow each later one, and one of them is deep enough; and recursion stays open. -/
def Recurs (loads : List Load) (limit : Option Nat) (root : Ancestor) : List Hop → Prop
  | [] => False
  | first :: rest =>
      Request.rulesAt (loads.flatMap Load.requests) first.relation.name ≠ []
        ∧ (∀ hop ∈ rest,
            ∃ rule ∈ Request.rulesAt (loads.flatMap Load.requests) first.relation.name,
              rule.scope.admits hop.relation.name = true)
        ∧ (∃ rule ∈ Request.rulesAt (loads.flatMap Load.requests) first.relation.name,
            rule.remaining.Allows (rest.length + 1))
        ∧ Open limit [root] (first :: rest)

/-- Recursive requests lead along a walk, and follow the relations of a name at its end. -/
def RecursTo (loads : List Load) (limit : Option Nat) (root : Ancestor) (name : String) :
    List Hop → Prop
  | [] => Request.rulesAt (loads.flatMap Load.requests) name ≠ []
  | first :: rest => Recurs loads limit root (first :: rest)
      ∧ ∃ rule ∈ Request.rulesAt (loads.flatMap Load.requests) first.relation.name,
          rule.scope.admits name = true

variable {schema : Schema}

theorem branch_build_iff (namesDistinct : schema.NamesDistinct) (loads : List Load)
    {relations : List Relation} (notEmpty : relations ≠ [])
    (isPath : schema.IsPath entity relations) :
    Branch (InclusionTree.build schema entity loads) (relations.map Relation.name)
      ↔ Covered loads (relations.map Relation.name)
        ∨ ∃ name, relations.map Relation.name = [name]
            ∧ Request.rulesAt (loads.flatMap Load.requests) name ≠ [] := by
  rw [InclusionTree.branch_build namesDistinct loads notEmpty isPath]
  constructor
  · intro holds
    rcases holds with ⟨request, member, leads⟩
    cases request with
    | path segments => exact .inl ⟨segments, member, leads⟩
    | recursive rule =>
        obtain ⟨name, isSingle, admitted⟩ := leads
        refine .inr ⟨name, isSingle, ?_⟩
        exact List.ne_nil_of_mem (Request.mem_rulesAt.2 ⟨member, admitted⟩)
  · intro either
    rcases either with ⟨segments, member, covered⟩ | ⟨name, isSingle, follows⟩
    · exact ⟨.path segments, member, covered⟩
    · obtain ⟨rule, isRule⟩ := List.exists_mem_of_ne_nil _ follows
      obtain ⟨member, admitted⟩ := Request.mem_rulesAt.1 isRule
      exact ⟨.recursive rule, member, name, isSingle, admitted⟩

/-- The rules at the top of a tree of requests ride along the walks that its recursive
requests lead along. -/
theorem exists_rides_iff (namesDistinct : schema.NamesDistinct) (loads : List Load)
    (limit : Option Nat) (root : Ancestor) {first : Hop} (rest : List Hop)
    (declared : first.relation ∈ schema.relationsFrom entity) (more : List String) :
    (∃ scope, Rides limit (InclusionTree.build schema entity loads) [root] scope (first :: rest)
        ∧ ∀ name ∈ more, scope.admits name = true)
      ↔ Recurs loads limit root (first :: rest)
        ∧ ∀ name ∈ more,
          ∃ rule ∈ Request.rulesAt (loads.flatMap Load.requests) first.relation.name,
            rule.scope.admits name = true := by
  have isUnion := InclusionTree.isUnion_ruleAt_build namesDistinct loads declared
  unfold Recurs
  simp only [rides_cons_iff]
  cases ruled : ruleAt (InclusionTree.build schema entity loads) first.relation.name with
  | none =>
      rw [ruled] at isUnion
      have isNil : Request.rulesAt (loads.flatMap Load.requests) first.relation.name = [] := isUnion
      constructor
      · intro holds
        rcases holds with ⟨scope, ⟨rule, impossible, _⟩, _⟩
        cases impossible
      · intro holds
        rcases holds with ⟨⟨nonempty, _⟩, _⟩
        exact absurd isNil nonempty
  | some rule =>
      rw [ruled] at isUnion
      obtain ⟨nonempty, admits, allows⟩ := isUnion
      simp only [← admits, ← allows]
      constructor
      · intro holds
        rcases holds with ⟨_, ⟨other, same, rfl, follows, deep, isOpen⟩, onward⟩
        cases same
        exact ⟨⟨nonempty, follows, deep, isOpen⟩, onward⟩
      · intro holds
        rcases holds with ⟨⟨_, follows, deep, isOpen⟩, onward⟩
        exact ⟨rule.scope, ⟨rule, rfl, rfl, follows, deep, isOpen⟩, onward⟩

/-- A hydrated root holds what is requested. It contains a walk exactly where a path covers
it or recursive requests lead along it, nothing is attached but along walks, and the record
at the end of a walk has an entry exactly for those of its relations to which a path or
recursive requests lead on. -/
structure LoadsExactly (context : Context) (loads : List Load) (entity : String) (root : Record)
    (hydrated : Hydrated) : Prop where
  contains_iff : ∀ walk lastEntity last, walk ≠ [] →
    IsWalk context.schema context.view entity root walk lastEntity last →
    (hydrated.Contains (walk.map Hop.mark)
      ↔ Covered loads (names walk) ∨ Recurs loads context.maxDepth ⟨entity, root.key⟩ walk)
  ends : ∀ trail reached, hydrated.Reaches trail reached → ∃ walk, walk.map Hop.mark = trail
    ∧ IsWalk context.schema context.view entity root walk reached.entity reached.record
    ∧ ∀ name, name ∈ reached.names
        ↔ (∃ relation ∈ context.schema.relationsFrom reached.entity, relation.name = name)
          ∧ (Covered loads (names walk ++ [name])
            ∨ RecursTo loads context.maxDepth ⟨entity, root.key⟩ name walk)

theorem IsWalk.isPath_concat {view : RecordView} {relation : Relation}
    (isWalk : IsWalk schema view entity record walk lastEntity last)
    (declared : relation ∈ schema.relationsFrom lastEntity) :
    schema.IsPath entity (walk.map Hop.relation ++ [relation]) := by
  induction isWalk with
  | nil => exact ⟨declared, trivial⟩
  | cons firstDeclared yielded onward inductionHypothesis =>
      exact ⟨firstDeclared, inductionHypothesis declared⟩

theorem contains_build_iff (context : Context) (namesDistinct : context.schema.NamesDistinct)
    (loads : List Load) {root : Record} (notEmpty : walk ≠ [])
    (isWalk : IsWalk context.schema context.view entity root walk lastEntity last) :
    (load context entity root (InclusionTree.build context.schema entity loads) []).Contains
        (walk.map Hop.mark)
      ↔ Covered loads (names walk) ∨ Recurs loads context.maxDepth ⟨entity, root.key⟩ walk := by
  have shaped := InclusionTree.shaped_build namesDistinct entity loads
  have branched := branch_build_iff namesDistinct loads
    (fun isNil => notEmpty (List.map_eq_nil_iff.1 isNil)) isWalk.isPath
  rw [contains_load_iff namesDistinct isWalk shaped]
  unfold names
  rw [branched]
  cases isWalk with
  | nil => exact absurd rfl notEmpty
  | @cons _ _ _ _ first rest declared yielded onward =>
      have ridden := exists_rides_iff namesDistinct loads context.maxDepth ⟨entity, root.key⟩ rest
        declared []
      simp only [List.not_mem_nil, false_implies, implies_true, and_true] at ridden
      rw [ridden]
      constructor
      · intro either
        rcases either with (covered | ⟨name, isSingle, follows⟩) | recurs
        · exact .inl covered
        · -- a walk of one step needs nothing but a request that follows its relation
          obtain ⟨sameName, isNil⟩ := List.cons.inj isSingle
          obtain rfl := List.map_eq_nil_iff.1 (List.map_eq_nil_iff.1 isNil)
          rw [← sameName] at follows
          obtain ⟨rule, isRule⟩ := List.exists_mem_of_ne_nil _ follows
          refine .inr ⟨follows, ?_, ⟨rule, isRule, Depth.allows_one _⟩, open_single _ _ _⟩
          exact fun _ impossible => nomatch impossible
        · exact .inr recurs
      · intro either
        rcases either with covered | recurs
        · exact .inl (.inl covered)
        · exact .inr recurs

theorem mem_names_build_iff (context : Context) (namesDistinct : context.schema.NamesDistinct)
    (loads : List Load) {root : Record} {reached : Hydrated} {relation : Relation}
    (isWalk : IsWalk context.schema context.view entity root walk lastEntity last)
    (reaches : (load context entity root (InclusionTree.build context.schema entity loads)
      []).Reaches (walk.map Hop.mark) reached)
    (declared : relation ∈ context.schema.relationsFrom lastEntity) :
    relation.name ∈ reached.names
      ↔ Covered loads (names walk ++ [relation.name])
        ∨ RecursTo loads context.maxDepth ⟨entity, root.key⟩ relation.name walk := by
  have shaped := InclusionTree.shaped_build namesDistinct entity loads
  have branched := branch_build_iff namesDistinct loads
    (List.append_ne_nil_of_right_ne_nil _ (List.cons_ne_nil relation []))
    (isWalk.isPath_concat declared)
  have sameNames : names walk ++ [relation.name]
      = (walk.map Hop.relation ++ [relation]).map Relation.name := by
    rw [List.map_append]
    rfl
  rw [mem_names_of_reaches namesDistinct isWalk shaped reaches declared, sameNames, branched]
  cases isWalk with
  | nil =>
      constructor
      · intro either
        rcases either with (covered | ⟨name, isSingle, follows⟩) | ⟨_, impossible, _⟩
        · exact .inl covered
        · obtain ⟨sameName, _⟩ := List.cons.inj isSingle
          rw [← sameName] at follows
          exact .inr follows
        · exact absurd impossible id
      · intro either
        rcases either with covered | follows
        · exact .inl (.inl covered)
        · exact .inl (.inr ⟨relation.name, rfl, follows⟩)
  | @cons _ _ _ _ first rest firstDeclared yielded onward =>
      have ridden := exists_rides_iff namesDistinct loads context.maxDepth ⟨entity, root.key⟩ rest
        firstDeclared [relation.name]
      simp only [List.forall_mem_singleton] at ridden
      have long : ∀ name, (List.map Hop.relation (first :: rest) ++ [relation]).map Relation.name
          ≠ [name] := by
        intro name isSingle
        have lengths := congrArg List.length isSingle
        simp at lengths
      simp only [ridden, long, false_and, exists_false, or_false]
      exact Iff.rfl

end Hydration

namespace Resolver

open Hydration

/-- **What is requested is loaded, and nothing else.** -/
theorem resolve_loads_exactly {schema : Schema} (namesDistinct : schema.NamesDistinct)
    (view : RecordView) (settings : Settings) (earlier : List Call) (entity : String)
    (roots : List Record) (loads : List Load) :
    List.Forall₂ (LoadsExactly (start view schema settings).context loads entity) roots
      (((start view schema settings).serve earlier).resolve entity roots
        (InclusionTree.build schema entity loads)).1 := by
  rw [resolve_serve, List.forall₂_map_right_iff, List.forall₂_same]
  intro root _
  have shaped := InclusionTree.shaped_build namesDistinct entity loads
  constructor
  · intro walk lastEntity last notEmpty isWalk
    exact contains_build_iff (start view schema settings).context namesDistinct loads notEmpty
      isWalk
  · intro trail reached reaches
    obtain ⟨walk, rfl, isWalk⟩ := exists_walk_of_reaches shaped reaches
    refine ⟨walk, rfl, isWalk, ?_⟩
    intro name
    constructor
    · intro member
      obtain ⟨relation, declared, rfl⟩ :=
        exists_relation_of_mem_names namesDistinct shaped.fits reaches member
      exact ⟨⟨relation, declared, rfl⟩,
        (mem_names_build_iff (start view schema settings).context namesDistinct loads isWalk
          reaches declared).1 member⟩
    · intro holds
      rcases holds with ⟨⟨relation, declared, rfl⟩, leads⟩
      exact (mem_names_build_iff (start view schema settings).context namesDistinct loads isWalk
        reaches declared).2 leads

end Resolver

/-- Parts of parts without a limit, and by name the whole of every part of a root. -/
def Sample.loads : List Load :=
  [.recursive ["parts"] .unbounded, .paths [⟨[.relation "parts", .relation "whole"]⟩]]

/-- What is loaded for two parts of each other is what is requested. -/
theorem Resolver.resolve_loads_exactly_parts :
    Sample.schema.NamesDistinct
      ∧ List.Forall₂
          (Hydration.LoadsExactly (Resolver.start Sample.store.view Sample.schema {}).context
            Sample.loads "part")
          [Sample.part "hull" "mast"]
          (((Resolver.start Sample.store.view Sample.schema {}).serve
            [⟨"part", [Sample.part "mast" "hull"], Sample.tree⟩]).resolve "part"
            [Sample.part "hull" "mast"]
            (InclusionTree.build Sample.schema "part" Sample.loads)).1 :=
  ⟨by decide, Resolver.resolve_loads_exactly (by decide) _ _ _ _ _ _⟩

end EagerLoad
