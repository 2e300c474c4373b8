import EagerLoad.Proofs.Hydration.Occurrence
import EagerLoad.Proofs.Inclusion.Positions
import EagerLoad.Proofs.Query.Shown
import Mathlib.Data.List.Permutation

/-!
Contract: the value at each key of an object, however deep the object is nested.

Owns: the precedence of identity, loaded relation, unloaded relation and stored field at a key;
trees whose nodes carry declarations of a schema; that the relations declared on a type show with
the values of their kind.

Does not own: the members of one object (`Shown.lean`), or which records are attached
(`Hydration/`).

A node is loaded by the declaration that it carries. A tree of requests takes its declarations
from the schema, but a tree may be made of any nodes. Then the entry of a relation is of the kind
that its node says, and the object shows that.
-/

set_option autoImplicit false

namespace EagerLoad

open Json (Value Members)

/-! ## Kinds -/

/-- A value that a relation of a kind may show: an array if and only if the relation is plural,
and else an object or `null`. -/
structure RelationKind.Shows (kind : RelationKind) (value : Value) : Prop where
  array_iff : (∃ items, value = .array items) ↔ kind.isPlural = true
  single : kind.isPlural = false → value = .null ∨ ∃ members, value = .object members

theorem Attached.shows_ofList (schema : Schema) (settings : Settings) (kind : RelationKind)
    (values : List Hydrated) :
    kind.Shows ((Attached.ofList kind values).toValue schema settings) := by
  unfold Attached.ofList
  cases plural : kind.isPlural with
  | true =>
      exact ⟨⟨fun _ => plural, fun _ => ⟨_, rfl⟩⟩, fun singular => by simp [plural] at singular⟩
  | false =>
      have shown : (Attached.one values.head?).toValue schema settings = .null
          ∨ ∃ members, (Attached.one values.head?).toValue schema settings = .object members := by
        cases values with
        | nil => exact .inl rfl
        | cons first rest => exact .inr ⟨_, first.toValue_eq⟩
      refine ⟨⟨?_, fun isPlural => by simp [plural] at isPlural⟩, fun _ => shown⟩
      rintro ⟨items, isArray⟩
      rw [if_neg (by simp)] at isArray
      rcases shown with isNull | ⟨members, isObject⟩
      · rw [isNull] at isArray
        cases isArray
      · rw [isObject] at isArray
        cases isArray

theorem RelationKind.shows_emptyValue (kind : RelationKind) : kind.Shows kind.emptyValue := by
  have shown := Attached.shows_ofList {} {} kind []
  rwa [show Attached.ofList kind [] = Attached.empty kind from rfl, Attached.toValue_empty] at shown

/-! ## The value at a key -/

namespace Hydrated

variable {schema : Schema} {settings : Settings}

theorem get?_unloaded (schema : Schema) (settings : Settings) (entity key : String) :
    Members.get? (unloaded schema settings entity) key
      = (if settings.fillUnloadedRelations then schema.relation? entity key else none).map
          fun relation => relation.kind.emptyValue := by
  unfold unloaded Schema.relation?
  split
  · induction schema.relationsFrom entity with
    | nil => rfl
    | cons first rest inductionHypothesis =>
        rw [List.map_cons, List.find?_cons]
        by_cases same : key = first.name
        · subst same
          rw [Members.get?_cons_self, beq_self_eq_true]
          rfl
        · rw [Members.get?_cons_of_ne _ _ same, inductionHypothesis,
            beq_false_of_ne (Ne.symm same)]
  · rfl

/-- The value at a key of the object of a record: the identity of the record under the key for
identities; else what is attached under the key, if it names a loaded relation; else, if unloaded
relations are filled in, the empty value of the relation of that name; else the field of the
record. -/
def memberAt? (schema : Schema) (settings : Settings) (hydrated : Hydrated) (key : String) :
    Option Value :=
  if key = settings.syntheticIdField then some hydrated.record.identity
  else
    match hydrated.relation? key with
    | some value => some (value.toValue schema settings)
    | none =>
        match if settings.fillUnloadedRelations then schema.relation? hydrated.entity key
          else none with
        | some relation => some relation.kind.emptyValue
        | none => hydrated.record.fields.get? key

theorem get?_members_eq_memberAt? (namesDistinct : schema.NamesDistinct) {hydrated : Hydrated}
    (distinct : hydrated.names.Nodup) (key : String) :
    (hydrated.members schema settings).get? key = hydrated.memberAt? schema settings key := by
  unfold memberAt?
  by_cases isIdentity : key = settings.syntheticIdField
  · rw [if_pos isIdentity, isIdentity, get?_members_identity]
  · rw [if_neg isIdentity, get?_members distinct isIdentity]
    unfold valueAt? blank
    rw [get?_setAll _ _ (nodup_names_unloaded namesDistinct settings hydrated.entity),
      get?_unloaded]
    cases hydrated.relation? key with
    | some value => rfl
    | none =>
        cases (if settings.fillUnloadedRelations then schema.relation? hydrated.entity key
          else none) <;> rfl

/-- With unloaded relations filled in, every relation declared on the type of a record shows:
what is attached under its name, or its empty value. -/
theorem memberAt?_of_declared (namesDistinct : schema.NamesDistinct)
    (fills : settings.fillUnloadedRelations = true) {hydrated : Hydrated} {relation : Relation}
    (declared : relation ∈ schema.relationsFrom hydrated.entity)
    (other : relation.name ≠ settings.syntheticIdField) :
    hydrated.memberAt? schema settings relation.name
      = some (((hydrated.relation? relation.name).map (Attached.toValue schema settings)).getD
          relation.kind.emptyValue) := by
  have found := namesDistinct.relation?_eq_some_iff.2 ⟨declared, rfl⟩
  unfold memberAt?
  rw [if_neg other, if_pos fills, found]
  cases hydrated.relation? relation.name <;> rfl

end Hydrated

/-! ## Trees that carry declarations -/

namespace InclusionTree

/-- Every node of a tree carries a relation that the schema declares. -/
inductive Declared (schema : Schema) : InclusionTree → Prop
  | intro {tree : InclusionTree} (here : ∀ node ∈ tree, node.relation ∈ schema.relations)
      (below : ∀ node ∈ tree, Declared schema node.children) : Declared schema tree

variable {schema : Schema} {tree : InclusionTree}

theorem Declared.relation (declared : Declared schema tree) {node : IncludeNode}
    (member : node ∈ tree) : node.relation ∈ schema.relations := by
  cases declared with
  | intro here below => exact here node member

theorem Declared.children (declared : Declared schema tree) {node : IncludeNode}
    (member : node ∈ tree) : Declared schema node.children := by
  cases declared with
  | intro here below => exact below node member

theorem declared_merge {other : InclusionTree} (declared : Declared schema tree)
    (otherDeclared : Declared schema other) : Declared schema (merge tree other) := by
  induction other using induction generalizing tree with
  | step other inductionHypothesis =>
      refine merge_induction ?_ declared
      intro node nodeMember tree declared
      refine .intro ?_ ?_
      · intro reached reachedMember
        rcases mem_insert reachedMember with kept | rfl | ⟨old, oldMember, _, rfl⟩
        · exact declared.relation kept
        · exact otherDeclared.relation nodeMember
        · have oldDeclared := declared.relation oldMember
          exact oldDeclared
      · intro reached reachedMember
        rcases mem_insert reachedMember with kept | rfl | ⟨old, oldMember, _, rfl⟩
        · exact declared.children kept
        · exact otherDeclared.children nodeMember
        · exact inductionHypothesis node nodeMember (declared.children oldMember)
            (otherDeclared.children nodeMember)

theorem declared_recursiveLevel (schema : Schema) (entity : String) (rule : Recursion) :
    Declared schema (recursiveLevel schema entity rule) := by
  refine .intro ?_ ?_
  · intro node member
    have followed := isFollowed_of_mem_recursiveLevel node member
    exact (Schema.mem_relationsFrom.1 followed.declared).1
  · intro node member
    rw [(isFollowed_of_mem_recursiveLevel node member).childless]
    exact .intro nofun nofun

/-- Trees that fit a type carry declarations. -/
theorem Fits.carriesDeclarations {entity : String} (fits : Fits schema entity tree) :
    Declared schema tree := by
  induction fits with
  | intro names declared below inductionHypothesis =>
      refine .intro ?_ inductionHypothesis
      exact fun node member => (Schema.mem_relationsFrom.1 (declared node member)).1

/-- So do the trees of all requests. -/
theorem declared_build (namesDistinct : schema.NamesDistinct) (entity : String)
    (loads : List Load) : Declared schema (build schema entity loads) :=
  (shaped_build namesDistinct entity loads).fits.carriesDeclarations

end InclusionTree

namespace Hydration

open InclusionTree (Declared)

variable {context : Context} {hydrated : Hydrated} {step : Step} {chain : List Ancestor}

theorem declared_step {branch : List Ancestor} {tree : InclusionTree} {node : IncludeNode}
    {related : Record} (declared : Declared context.schema tree) (member : node ∈ tree) :
    Declared context.schema (context.step branch node related).tree := by
  have below := declared.children member
  rcases step_cases context branch node related with
    ⟨_, isStep⟩ | ⟨rule, _, _, isStep⟩ | ⟨rule, _, _, isStep⟩
  · rw [isStep]
    exact below
  · rw [isStep]
    exact below
  · rw [isStep]
    exact InclusionTree.declared_merge below (InclusionTree.declared_recursiveLevel _ _ _)

/-- Along a tree that carries declarations a descent goes on along such trees. -/
theorem Occurs.declared {requested : InclusionTree} {top : Hydrated}
    (declared : Declared context.schema requested)
    (occurs : Occurs context requested top hydrated step chain) :
    Declared context.schema step.tree := by
  induction occurs with
  | root => exact declared
  | under _ member _ _ _ inductionHypothesis => exact declared_step inductionHypothesis member

/-- The entries of a record that is loaded along such a tree are of relations declared on its
type, and of their kinds. -/
theorem Placed.exists_relation (placed : Placed context hydrated step chain)
    (declared : Declared context.schema step.tree) {entry : String × Attached Hydrated}
    (member : entry ∈ hydrated.relations) :
    ∃ relation ∈ context.schema.relationsFrom hydrated.entity, relation.name = entry.1
      ∧ ∃ values, entry.2 = Attached.ofList relation.kind values := by
  rw [placed.loaded] at member
  rcases mem_relations_finish member with loaded | isEmpty
  · obtain ⟨node, nodeMember, ofType, rfl⟩ := mem_relations_load.1 loaded
    exact ⟨node.relation, Schema.mem_relationsFrom.2 ⟨declared.relation nodeMember, ofType⟩, rfl,
      _, rfl⟩
  · rw [entity_load] at isEmpty
    obtain ⟨relation, isDeclared, sameName, isValue⟩ := isEmpty.exists_relation
    exact ⟨relation, isDeclared, sameName, [], isValue⟩

/-- What shows of a declared relation is of its kind. -/
theorem Placed.shows_of_declared (namesDistinct : context.schema.NamesDistinct)
    (placed : Placed context hydrated step chain) (declared : Declared context.schema step.tree)
    (settings : Settings) {relation : Relation}
    (isDeclared : relation ∈ context.schema.relationsFrom hydrated.entity) :
    relation.kind.Shows
      (((hydrated.relation? relation.name).map (Attached.toValue context.schema settings)).getD
        relation.kind.emptyValue) := by
  cases found : hydrated.relation? relation.name with
  | none => exact relation.kind.shows_emptyValue
  | some value =>
      have member := (Hydrated.relation?_eq_some_iff placed.nodup_names).1 found
      obtain ⟨other, otherDeclared, sameName, values, rfl⟩ :=
        placed.exists_relation declared member
      obtain rfl : other = relation :=
        namesDistinct.eq_of_name_eq otherDeclared isDeclared sameName
      exact Attached.shows_ofList context.schema settings other.kind values

end Hydration

namespace Resolver

open Hydration

/-- **Every object shows four layers.** Whatever is loaded, every record anywhere in it shows as
an object, and the value at each key is that of the first layer that has one: the identity of this
record, the relations loaded for it, the relations of its type that were not loaded, if they are
filled in, and its fields. With unloaded relations filled in, every relation declared on the type
shows; and if the tree carries declarations of the schema, as the tree of any requests does, it
shows as its kind demands. -/
theorem resolve_shows_layers {schema : Schema} (namesDistinct : schema.NamesDistinct)
    (view : RecordView) (loading showing : Settings) (earlier : List Call) (entity : String)
    (roots : List Record) {tree : InclusionTree} (distinct : InclusionTree.Distinct tree) :
    (∀ hydrated ∈ (((start view schema loading).serve earlier).resolve entity roots tree).1,
      ∀ trail last, hydrated.Reaches trail last →
        ∃ members : Members, last.toValue schema showing = .object members
          ∧ (∀ key, members.get? key = last.memberAt? schema showing key)
          ∧ members.get? showing.syntheticIdField = some last.record.identity
          ∧ (showing.fillUnloadedRelations = true →
              ∀ relation ∈ schema.relationsFrom last.entity,
                relation.name ≠ showing.syntheticIdField →
                ∃ value, members.get? relation.name = some value
                  ∧ (tree.Declared schema → relation.kind.Shows value)))
      ∧ ∀ loads, (InclusionTree.build schema entity loads).Declared schema := by
  refine ⟨?_, InclusionTree.declared_build namesDistinct entity⟩
  intro hydrated loaded trail last reaches
  rw [resolve_serve] at loaded
  obtain ⟨root, _, rfl⟩ := List.mem_map.1 loaded
  have atTop := placed_load (start view schema loading).context distinct entity root
  obtain ⟨step, chain, occurs⟩ := Occurs.root.exists_of_reaches atTop reaches
  have placed := occurs.placed atTop
  have layered : ∀ key, (last.members schema showing).get? key
      = last.memberAt? schema showing key :=
    Hydrated.get?_members_eq_memberAt? namesDistinct placed.nodup_names
  refine ⟨_, last.toValue_eq, layered, last.get?_members_identity, ?_⟩
  intro fills relation declared other
  refine ⟨_, (layered _).trans (Hydrated.memberAt?_of_declared namesDistinct fills declared other),
    ?_⟩
  intro treeDeclared
  exact placed.shows_of_declared namesDistinct (occurs.declared treeDeclared) showing declared

end Resolver

namespace Sample

/-- The parts of a part, as if there were one of them at most. -/
def onlyPart : Relation := { parts with kind := .oneToOne }

/-- A part that no other is a part of. -/
def single : Store := ({} : Store).put "part" (part "hull" "mast")

theorem records_single : single.records "part" = [part "hull" "mast"] := by
  unfold single
  rw [Store.records_put_self]
  rfl

theorem yields_parts :
    parts.yields schema store.view (part "hull" "mast") = [part "mast" "hull"] := by
  show (store.records "part").filter _ = _
  rw [records_store]
  rfl

theorem yields_onlyPart : onlyPart.yields schema single.view (part "hull" "mast") = [] := by
  show ((single.records "part").filter _).take 1 = _
  rw [records_single]
  rfl

theorem declared_tree : InclusionTree.Declared schema tree := by
  refine .intro ?_ ?_
  · intro node member
    rw [List.mem_singleton.1 member]
    decide
  · intro node member
    rw [List.mem_singleton.1 member]
    refine .intro ?_ ?_
    · intro child childMember
      rw [List.mem_singleton.1 childMember]
      decide
    · intro child childMember
      rw [List.mem_singleton.1 childMember]
      exact .intro nofun nofun

end Sample

/-- The mast below the hull shows its layers. -/
theorem Resolver.resolve_shows_layers_parts :
    let settings : Settings := { fillUnloadedRelations := true }
    Sample.schema.NamesDistinct ∧ InclusionTree.Distinct Sample.tree
      ∧ Sample.tree.Declared Sample.schema
      ∧ ∃ hydrated ∈ ((Resolver.start Sample.store.view Sample.schema {}).resolve "part"
          [Sample.part "hull" "mast"] Sample.tree).1,
        ∃ last, hydrated.Reaches [("parts", Sample.part "mast" "hull")] last
          ∧ ∃ members : Members, last.toValue Sample.schema settings = .object members
            ∧ (∀ key, members.get? key = last.memberAt? Sample.schema settings key)
            ∧ members.get? "$id" = some (.string "mast")
            ∧ ∃ value, members.get? "whole" = some value ∧ Sample.whole.kind.Shows value := by
  intro settings
  let context := (Resolver.start Sample.store.view Sample.schema {}).context
  let node : IncludeNode :=
    .mk Sample.parts [.plain Sample.whole] (some ⟨.only ["parts"], .unbounded⟩)
  have namesDistinct : Sample.schema.NamesDistinct := by decide
  have isLoaded : Hydration.load context "part" (Sample.part "hull" "mast") Sample.tree []
      ∈ (((Resolver.start Sample.store.view Sample.schema {}).serve []).resolve "part"
          [Sample.part "hull" "mast"] Sample.tree).1 := by
    rw [Resolver.resolve_serve]
    exact List.mem_singleton_self _
  have yielded : Sample.part "mast" "hull"
      ∈ Sample.parts.yields Sample.schema Sample.store.view (Sample.part "hull" "mast") := by
    rw [Sample.yields_parts]
    exact List.mem_singleton_self _
  have reaches : (Hydration.load context "part" (Sample.part "hull" "mast") Sample.tree []).Reaches
      [("parts", Sample.part "mast" "hull")]
      (Hydration.loadStep context [⟨"part", ⟨"hull"⟩⟩] node (Sample.part "mast" "hull")) :=
    Hydration.reaches_load_cons.2 ⟨node, List.mem_singleton_self _, rfl, rfl, yielded, rfl⟩
  obtain ⟨shows, _⟩ :=
    Resolver.resolve_shows_layers namesDistinct Sample.store.view {} settings [] "part"
      [Sample.part "hull" "mast"] Sample.distinct_tree
  obtain ⟨members, isObject, layered, identity, declared⟩ := shows _ isLoaded _ _ reaches
  rw [Hydration.record_loadStep] at identity
  obtain ⟨value, isValue, isShown⟩ := declared rfl Sample.whole
    (by rw [Hydration.entity_loadStep]; decide) (by decide)
  exact ⟨namesDistinct, Sample.distinct_tree, Sample.declared_tree, _, isLoaded, _, reaches,
    members, isObject, layered, identity, value, isValue, isShown Sample.declared_tree⟩

theorem Sample.load_onlyPart (settings : Settings) :
    Hydration.load (Resolver.start Sample.single.view Sample.schema settings).context "part"
        (Sample.part "hull" "mast") [.plain Sample.onlyPart] []
      = .mk "part" (Sample.part "hull" "mast") [("parts", .one none)] := by
  rw [Hydration.load_eq]
  show Hydrated.mk _ _ [(_, Attached.ofList _ ((Sample.onlyPart.yields Sample.schema
    Sample.single.view (Sample.part "hull" "mast")).map _))] = _
  rw [Sample.yields_onlyPart]
  rfl

/-- A node that carries another declaration decides the kind of the entry. The parts of a part
are declared to be an array, but along a node for one part they show as `null`. -/
theorem Resolver.undeclared_node_shows_other_kind :
    let settings : Settings := { fillUnloadedRelations := true }
    let tree : InclusionTree := [.plain Sample.onlyPart]
    Sample.schema.NamesDistinct ∧ InclusionTree.Distinct tree
      ∧ Sample.part "hull" "mast" ∈ Sample.single.records "part"
      ∧ Sample.parts ∈ Sample.schema.relationsFrom "part"
      ∧ Sample.parts.name ≠ settings.syntheticIdField
      ∧ Hydrated.toValues Sample.schema settings
          ((Resolver.start Sample.single.view Sample.schema settings).resolve "part"
            [Sample.part "hull" "mast"] tree).1
        = [.object [("$id", .string "hull"), ("id", .string "hull"), ("parts", .null),
            ("whole", .null)]]
      ∧ ¬ Sample.parts.kind.Shows .null := by
  intro settings tree
  have loaded := Resolver.resolve_serve Sample.single.view Sample.schema settings [] "part"
    [Sample.part "hull" "mast"] tree
  have isLoad := Sample.load_onlyPart settings
  refine ⟨by decide, ?_, ?_, by decide, by decide, ?_, ?_⟩
  · refine .intro (by decide) ?_
    intro node member
    rw [List.mem_singleton.1 member]
    exact InclusionTree.distinct_nil
  · rw [Sample.records_single]
    exact List.mem_singleton_self _
  · show Hydrated.toValues Sample.schema settings
      (((Resolver.start Sample.single.view Sample.schema settings).serve []).resolve "part"
        [Sample.part "hull" "mast"] tree).1 = _
    rw [loaded, List.map_singleton, isLoad]
    cbv
  · intro shows
    obtain ⟨items, isArray⟩ := shows.array_iff.2 rfl
    cases isArray

end EagerLoad
