import EagerLoad.Proofs.Inclusion.Declarations

/-!
Contract: schemas that are declared one definition at a time.

Owns: lists with one item put in place of another; what one declaration of a type or of a relation
changes and what it leaves alone; look-ups after any declarations.

Does not own: look-ups in schemas that repeat names and are not changed
(`Inclusion/Declarations.lean`).

A schema may repeat names when it comes from a document. A type is declared by removing every
definition of its name and putting the new one last. A relation is declared in place of the first
one of its source and name only, and the later ones stay behind it, where no look-up finds them.
Both ways a look-up finds what was last declared.
-/

set_option autoImplicit false

namespace EagerLoad

/-! ## Lists with one item put in -/

/-- A list before and after an item is put in: it takes the place of the first item that passes a
test, or the last place where none passes, and all others stay where they are. -/
inductive Puts {α : Type} (test : α → Prop) (item : α) : List α → List α → Prop
  | inPlace {before after : List α} {old : α} (isFirst : ∀ other ∈ before, ¬ test other)
      (replaced : test old) : Puts test item (before ++ old :: after) (before ++ item :: after)
  | atEnd {items : List α} (unknown : ∀ other ∈ items, ¬ test other) :
      Puts test item items (items ++ [item])

namespace Puts

variable {α : Type} {test : α → Prop} {item : α} {items next : List α}

theorem cons {first : α} (puts : Puts test item items next) (differs : ¬ test first) :
    Puts test item (first :: items) (first :: next) := by
  cases puts with
  | @inPlace before after old isFirst replaced =>
      show Puts test item ((first :: before) ++ old :: after) ((first :: before) ++ item :: after)
      exact .inPlace (List.forall_mem_cons.2 ⟨differs, isFirst⟩) replaced
  | atEnd unknown => exact .atEnd (List.forall_mem_cons.2 ⟨differs, unknown⟩)

theorem congr {other : α → Prop} (puts : Puts test item items next)
    (same : ∀ known ∈ items, test known ↔ other known) : Puts other item items next := by
  cases puts with
  | inPlace isFirst replaced =>
      refine .inPlace ?_ ((same _ (List.mem_append_right _ List.mem_cons_self)).1 replaced)
      intro known member
      rw [← same known (List.mem_append_left _ member)]
      exact isFirst known member
  | atEnd unknown =>
      refine .atEnd ?_
      intro known member
      rw [← same known member]
      exact unknown known member

/-- Where a selection keeps whatever passes the test, the item takes its place among the selected
items. -/
theorem filter {keep : α → Bool} (puts : Puts test item items next) (itemKept : keep item = true)
    (testKept : ∀ other, test other → keep other = true) :
    Puts test item (items.filter keep) (next.filter keep) := by
  cases puts with
  | inPlace isFirst replaced =>
      rw [List.filter_append, List.filter_append, List.filter_cons_of_pos itemKept,
        List.filter_cons_of_pos (testKept _ replaced)]
      exact .inPlace (fun other member => isFirst other (List.mem_of_mem_filter member)) replaced
  | atEnd unknown =>
      rw [List.filter_append, List.filter_cons_of_pos itemKept, List.filter_nil]
      exact .atEnd fun other member => unknown other (List.mem_of_mem_filter member)

/-- A selection that leaves out whatever passes the test is the same before and after. -/
theorem filter_eq {keep : α → Bool} (puts : Puts test item items next)
    (itemLeft : keep item = false) (testLeft : ∀ other, test other → keep other = false) :
    next.filter keep = items.filter keep := by
  have itemNot : ¬ keep item = true := Bool.not_eq_true _ ▸ itemLeft
  cases puts with
  | @inPlace before after old isFirst replaced =>
      have oldNot : ¬ keep old = true := Bool.not_eq_true _ ▸ testLeft old replaced
      rw [List.filter_append, List.filter_append, List.filter_cons_of_neg itemNot,
        List.filter_cons_of_neg oldNot]
  | atEnd unknown =>
      rw [List.filter_append, List.filter_cons_of_neg itemNot, List.filter_nil, List.append_nil]

/-- A search that finds what passes the test, and nothing else, finds the item. -/
theorem find?_self {query : α → Bool} (puts : Puts test item items next)
    (itemFound : query item = true) (testFound : ∀ other, query other = true → test other) :
    next.find? query = some item := by
  have nothing : ∀ {earlier : List α}, (∀ other ∈ earlier, ¬ test other) →
      earlier.find? query = none := by
    intro earlier unknown
    apply List.find?_eq_none.2
    exact fun other member found => unknown other member (testFound other found)
  cases puts with
  | inPlace isFirst replaced =>
      rw [List.find?_append, nothing isFirst, Option.none_or, List.find?_cons_of_pos itemFound]
  | atEnd unknown =>
      rw [List.find?_append, nothing unknown, Option.none_or, List.find?_cons_of_pos itemFound]

/-- A search that finds nothing that passes the test finds the same before and after. -/
theorem find?_eq {query : α → Bool} (puts : Puts test item items next)
    (itemMissed : query item = false) (testMissed : ∀ other, test other → query other = false) :
    next.find? query = items.find? query := by
  rw [← List.head?_filter, ← List.head?_filter, puts.filter_eq itemMissed testMissed]

end Puts

/-! ## Searches from the end -/

theorem findRev?_append {α : Type} (test : α → Bool) (items more : List α) :
    (items ++ more).findRev? test = (more.findRev? test).or (items.findRev? test) := by
  rw [List.findRev?_eq_find?_reverse, List.reverse_append, List.find?_append,
    ← List.findRev?_eq_find?_reverse, ← List.findRev?_eq_find?_reverse]

theorem findRev?_concat {α : Type} (test : α → Bool) (items : List α) (last : α) :
    (items ++ [last]).findRev? test = if test last then some last else items.findRev? test := by
  rw [findRev?_append]
  by_cases passes : test last = true <;> simp [List.findRev?, passes]

/-- Where no two items have one name, a search from either end finds the same. -/
theorem findRev?_eq_find?_of_nodup {α β : Type} [BEq β] [LawfulBEq β] {nameOf : α → β}
    {items : List α} (distinct : (items.map nameOf).Nodup) (name : β) :
    items.findRev? (fun item => nameOf item == name)
      = items.find? fun item => nameOf item == name := by
  rw [List.findRev?_eq_find?_reverse, ← List.head?_filter, List.filter_reverse,
    filter_eq_find?_of_nodup distinct]
  cases items.find? fun item => nameOf item == name <;> rfl

namespace Schema

variable {schema : Schema}

/-! ## One declaration of a relation -/

theorem puts_putRelation (relation : Relation) (relations : List Relation) :
    Puts (fun other => other.source = relation.source ∧ other.name = relation.name) relation
      relations (putRelation relation relations) := by
  induction relations with
  | nil => exact .atEnd nofun
  | cons first rest inductionHypothesis =>
      unfold putRelation
      by_cases same : first.source = relation.source ∧ first.name = relation.name
      · rw [if_pos same]
        show Puts _ relation ([] ++ first :: rest) ([] ++ relation :: rest)
        exact .inPlace nofun same
      · rw [if_neg same]
        exact inductionHypothesis.cons same

theorem puts_relationsFrom (schema : Schema) (relation : Relation) :
    Puts (fun other => other.name = relation.name) relation (schema.relationsFrom relation.source)
      ((schema.withRelation relation).relationsFrom relation.source) := by
  have ownSource : (relation.source == relation.source) = true := beq_self_eq_true _
  have puts : Puts _ relation (schema.relationsFrom relation.source)
      ((schema.withRelation relation).relationsFrom relation.source) :=
    (puts_putRelation relation schema.relations).filter ownSource
      fun other same => beq_iff_eq.2 same.1
  apply puts.congr
  intro other member
  exact and_iff_right (mem_relationsFrom.1 member).2

theorem relationsFrom_withRelation {relation : Relation} {entity : String}
    (differs : entity ≠ relation.source) :
    (schema.withRelation relation).relationsFrom entity = schema.relationsFrom entity := by
  have otherSource : ∀ {source : String}, source = relation.source → (source == entity) = false :=
    fun same => beq_eq_false_iff_ne.2 fun isEntity => differs (isEntity.symm.trans same)
  exact (puts_putRelation relation schema.relations).filter_eq (otherSource rfl)
    fun other same => otherSource same.1

/-- What a declaration of a relation does. A look-up of its source and name finds it, and every
other look-up of a relation finds what it found before. Among the relations of its source it takes
the place of the first one of its name, or the last place, and all else stays as it is: the other
relations of the source, those of other types, and the types themselves. -/
structure RelationDeclared (schema : Schema) (relation : Relation) (next : Schema) : Prop where
  found : next.relation? relation.source relation.name = some relation
  otherNames : ∀ entity name, (entity, name) ≠ (relation.source, relation.name) →
    next.relation? entity name = schema.relation? entity name
  ownType : Puts (fun other => other.name = relation.name) relation
    (schema.relationsFrom relation.source) (next.relationsFrom relation.source)
  otherTypes : ∀ entity, entity ≠ relation.source →
    next.relationsFrom entity = schema.relationsFrom entity
  entities : next.entities = schema.entities

theorem relationDeclared (schema : Schema) (relation : Relation) :
    schema.RelationDeclared relation (schema.withRelation relation) where
  found := (puts_relationsFrom schema relation).find?_self (beq_self_eq_true _)
    fun _ named => beq_iff_eq.1 named
  otherNames entity name differs := by
    unfold relation?
    by_cases sameType : entity = relation.source
    · subst sameType
      have otherName : (relation.name == name) = false :=
        beq_eq_false_iff_ne.2 fun same => differs (by rw [same])
      apply (puts_relationsFrom schema relation).find?_eq otherName
      intro other named
      rw [named]
      exact otherName
    · rw [relationsFrom_withRelation sameType]
  ownType := puts_relationsFrom schema relation
  otherTypes _ differs := relationsFrom_withRelation differs
  entities := rfl

/-! ## One declaration of a type -/

theorem entity?_withEntity (schema : Schema) (entity : Entity) (name : String) :
    (schema.withEntity entity).entity? name
      = if entity.name = name then some entity else schema.entity? name := by
  show (schema.entities.filter (fun other => other.name != entity.name) ++ [entity]).find? _ = _
  rw [List.find?_append, List.find?_filter, List.find?_singleton]
  by_cases named : entity.name = name
  · have noOther : schema.entities.find? (fun other =>
        decide ((other.name != entity.name) = true ∧ (other.name == name) = true)) = none := by
      apply List.find?_eq_none.2
      intro other _ kept
      obtain ⟨differs, isNamed⟩ := of_decide_eq_true kept
      exact bne_iff_ne.1 differs ((beq_iff_eq.1 isNamed).trans named.symm)
    rw [noOther, Option.none_or, if_pos (beq_iff_eq.2 named), if_pos named]
  · have sameTest : (fun other : Entity =>
        decide ((other.name != entity.name) = true ∧ (other.name == name) = true))
          = fun other => other.name == name := by
      funext other
      by_cases isNamed : other.name = name
      · simp [isNamed, Ne.symm named]
      · simp [isNamed]
    rw [sameTest, if_neg named, if_neg (mt beq_iff_eq.1 named), Option.or_none]
    rfl

/-- The identity field that an optional definition of a type gives. -/
def identityFieldOf (entity : Option Entity) : String :=
  (entity.map Entity.identityField).getD defaultIdentityField

theorem identityField_eq (schema : Schema) (name : String) :
    schema.identityField name = identityFieldOf (schema.entity? name) := by
  unfold identityField
  cases schema.entity? name <;> rfl

/-- What a declaration of a type does. A look-up of its name finds it, with its identity field,
and every other type is found as before, with the identity field that it had. The relations stay
as they are. -/
structure EntityDeclared (schema : Schema) (entity : Entity) (next : Schema) : Prop where
  found : next.entity? entity.name = some entity
  identityField : next.identityField entity.name = entity.identityField
  otherTypes : ∀ name, name ≠ entity.name → next.entity? name = schema.entity? name
  otherIdentityFields : ∀ name, name ≠ entity.name →
    next.identityField name = schema.identityField name
  relations : next.relations = schema.relations

theorem entityDeclared (schema : Schema) (entity : Entity) :
    schema.EntityDeclared entity (schema.withEntity entity) := by
  have found : (schema.withEntity entity).entity? entity.name = some entity := by
    rw [entity?_withEntity, if_pos rfl]
  have otherTypes : ∀ name, name ≠ entity.name →
      (schema.withEntity entity).entity? name = schema.entity? name := by
    intro name differs
    rw [entity?_withEntity, if_neg differs.symm]
  refine ⟨found, ?_, otherTypes, ?_, rfl⟩
  · rw [identityField_eq, found]
    rfl
  · intro name differs
    rw [identityField_eq, identityField_eq, otherTypes name differs]

/-! ## Any declarations -/

/-- A definition that is added to a schema. -/
inductive Declaration where
  | ofEntity (entity : Entity)
  | ofRelation (relation : Relation)

namespace Declaration

def entity? : Declaration → Option Entity
  | .ofEntity entity => some entity
  | .ofRelation _ => none

def relation? : Declaration → Option Relation
  | .ofEntity _ => none
  | .ofRelation relation => some relation

end Declaration

/-- The types that some declarations define, in order. -/
def declaredEntities (declarations : List Declaration) : List Entity :=
  declarations.filterMap Declaration.entity?

/-- The relations that some declarations define, in order. -/
def declaredRelations (declarations : List Declaration) : List Relation :=
  declarations.filterMap Declaration.relation?

def declare (schema : Schema) : Declaration → Schema
  | .ofEntity entity => schema.withEntity entity
  | .ofRelation relation => schema.withRelation relation

/-- A schema after some declarations, one after the other. -/
def declareAll (schema : Schema) (declarations : List Declaration) : Schema :=
  declarations.foldl declare schema

theorem declareAll_concat (schema : Schema) (declarations : List Declaration)
    (declaration : Declaration) :
    schema.declareAll (declarations ++ [declaration])
      = (schema.declareAll declarations).declare declaration :=
  List.foldl_concat _ _ _ _

theorem declaredEntities_concat (declarations : List Declaration) (declaration : Declaration) :
    declaredEntities (declarations ++ [declaration])
      = declaredEntities declarations ++ declaration.entity?.toList := by
  unfold declaredEntities
  rw [List.filterMap_append]
  cases declaration <;> rfl

theorem declaredRelations_concat (declarations : List Declaration) (declaration : Declaration) :
    declaredRelations (declarations ++ [declaration])
      = declaredRelations declarations ++ declaration.relation?.toList := by
  unfold declaredRelations
  rw [List.filterMap_append]
  cases declaration <;> rfl

/-- Whether a relation is declared on a type under a name. -/
def isNamed (entity name : String) (relation : Relation) : Bool :=
  (relation.source, relation.name) == (entity, name)

/-- What is found under the name of a type is the last definition that was added, or else what was
found to begin with. -/
theorem entity?_declareAll (schema : Schema) (declarations : List Declaration) (name : String) :
    (schema.declareAll declarations).entity? name
      = ((declaredEntities declarations).findRev? fun entity => entity.name == name).or
          (schema.entity? name) := by
  induction declarations using List.reverseRecOn with
  | nil => rfl
  | append_singleton earlier declaration inductionHypothesis =>
      rw [declareAll_concat, declaredEntities_concat]
      cases declaration with
      | ofRelation relation =>
          show (schema.declareAll earlier).entity? name
            = ((declaredEntities earlier ++ []).findRev? _).or _
          rw [inductionHypothesis, List.append_nil]
      | ofEntity entity =>
          show ((schema.declareAll earlier).withEntity entity).entity? name
            = ((declaredEntities earlier ++ [entity]).findRev? _).or _
          rw [entity?_withEntity, inductionHypothesis, findRev?_concat]
          by_cases named : entity.name = name <;> simp [named]

/-- What is found under the name of a relation is the last definition that was added, or else what
was found to begin with. -/
theorem relation?_declareAll (schema : Schema) (declarations : List Declaration)
    (entity name : String) :
    (schema.declareAll declarations).relation? entity name
      = ((declaredRelations declarations).findRev? (isNamed entity name)).or
          (schema.relation? entity name) := by
  induction declarations using List.reverseRecOn with
  | nil => rfl
  | append_singleton earlier declaration inductionHypothesis =>
      rw [declareAll_concat, declaredRelations_concat]
      cases declaration with
      | ofEntity other =>
          show (schema.declareAll earlier).relation? entity name
            = ((declaredRelations earlier ++ []).findRev? _).or _
          rw [inductionHypothesis, List.append_nil]
      | ofRelation relation =>
          have declared := (schema.declareAll earlier).relationDeclared relation
          show ((schema.declareAll earlier).withRelation relation).relation? entity name
            = ((declaredRelations earlier ++ [relation]).findRev? _).or _
          rw [findRev?_concat]
          by_cases named : (entity, name) = (relation.source, relation.name)
          · cases named
            rw [declared.found, isNamed, beq_self_eq_true, if_pos rfl, Option.some_or]
          · have otherName : ¬ isNamed entity name relation = true :=
              fun same => named (beq_iff_eq.1 same).symm
            rw [declared.otherNames entity name named, if_neg otherName, inductionHypothesis]

/-! ## Each name once -/

/-- No type is declared twice, and no type declares a relation twice. -/
structure Once (schema : Schema) : Prop where
  entities : (schema.entities.map Entity.name).Nodup
  relations : schema.NamesDistinct

theorem Once.declare (once : schema.Once) (declaration : Declaration) :
    (schema.declare declaration).Once := by
  cases declaration with
  | ofRelation relation =>
      exact ⟨once.entities, namesDistinct_withRelation once.relations relation⟩
  | ofEntity entity =>
      refine ⟨?_, once.relations⟩
      show ((schema.entities.filter _ ++ [entity]).map Entity.name).Nodup
      rw [List.map_append, List.map_singleton, ← List.concat_eq_append]
      refine List.Nodup.concat ?_ (once.entities.sublist (List.filter_sublist.map _))
      intro known
      obtain ⟨other, kept, same⟩ := List.mem_map.1 known
      exact bne_iff_ne.1 (List.mem_filter.1 kept).2 same

theorem Once.declareAll (once : schema.Once) (declarations : List Declaration) :
    (schema.declareAll declarations).Once :=
  List.foldlRecOn (motive := Once) _ _ once fun _ reached declaration _ =>
    reached.declare declaration

theorem Once.entity?_eq (once : schema.Once) (name : String) :
    schema.entity? name = schema.entities.findRev? fun entity => entity.name == name :=
  (findRev?_eq_find?_of_nodup once.entities name).symm

theorem Once.relation?_eq (once : schema.Once) (entity name : String) :
    schema.relation? entity name = schema.relations.findRev? (isNamed entity name) := by
  have sameTest : (fun relation : Relation =>
      decide ((relation.source == entity) = true ∧ (relation.name == name) = true))
        = isNamed entity name := by
    funext relation
    rw [Bool.eq_iff_iff, isNamed, decide_eq_true_iff, beq_iff_eq, beq_iff_eq, beq_iff_eq,
      Prod.mk.injEq]
  have fromEither : schema.relations.findRev? (isNamed entity name)
      = schema.relations.find? (isNamed entity name) :=
    findRev?_eq_find?_of_nodup once.relations (entity, name)
  unfold relation? relationsFrom
  rw [List.find?_filter, sameTest, fromEither]

/-- **Declarations replace what they name and nothing else.** Take a schema, which may repeat
names, and any declarations of types and relations. One more declaration of a relation or of a type
changes what is found under its own name, in its own place, and leaves everything else alone. A
look-up finds the last definition that was declared under a name, or else what it found to begin
with. Where the schema had each name once, it has each name once afterwards, so that what a look-up
finds is the last of all definitions under the name, those of the schema and those declared. -/
theorem declareAll_finds_last (schema : Schema) (declarations : List Declaration) :
    (∀ relation, (schema.declareAll declarations).RelationDeclared relation
        (schema.declareAll (declarations ++ [.ofRelation relation])))
      ∧ (∀ entity, (schema.declareAll declarations).EntityDeclared entity
          (schema.declareAll (declarations ++ [.ofEntity entity])))
      ∧ (∀ name, (schema.declareAll declarations).entity? name
          = ((declaredEntities declarations).findRev? fun entity =>
              entity.name == name).or (schema.entity? name))
      ∧ (∀ entity name, (schema.declareAll declarations).relation? entity name
          = ((declaredRelations declarations).findRev? (isNamed entity name)).or
              (schema.relation? entity name))
      ∧ (schema.Once →
          (schema.declareAll declarations).Once
            ∧ (∀ name, (schema.declareAll declarations).entity? name
                = (schema.entities ++ declaredEntities declarations).findRev?
                    fun entity => entity.name == name)
            ∧ (∀ name, (schema.declareAll declarations).identityField name
                = identityFieldOf
                    ((schema.entities ++ declaredEntities declarations).findRev?
                      fun entity => entity.name == name))
            ∧ ∀ entity name, (schema.declareAll declarations).relation? entity name
                = (schema.relations ++ declaredRelations declarations).findRev?
                    (isNamed entity name)) := by
  refine ⟨?_, ?_, schema.entity?_declareAll declarations, schema.relation?_declareAll declarations,
    ?_⟩
  · intro relation
    rw [declareAll_concat]
    exact relationDeclared _ relation
  · intro entity
    rw [declareAll_concat]
    exact entityDeclared _ entity
  · intro once
    have lastEntity : ∀ name, (schema.declareAll declarations).entity? name
        = (schema.entities ++ declaredEntities declarations).findRev?
            fun entity => entity.name == name := by
      intro name
      rw [entity?_declareAll, findRev?_append, once.entity?_eq]
    refine ⟨once.declareAll declarations, lastEntity, ?_, ?_⟩
    · intro name
      rw [identityField_eq, lastEntity]
    · intro entity name
      rw [relation?_declareAll, findRev?_append, once.relation?_eq]

end Schema

namespace Library

/-- Books by the name that they are signed with. -/
def signedBooks : Relation := { books with foreignKey := "penname", localKey := some "penname" }

/-- Authors are first found by their names, then by the names that they sign with; and so are
their books. -/
def penNames : List Schema.Declaration :=
  [.ofEntity { name := "author", identityField := "name" }, .ofRelation signedBooks,
    .ofEntity { name := "author", identityField := "penname" }]

end Library

/-- The last declarations of authors and of their books count. -/
theorem Schema.declareAll_finds_last_library :
    let reached := Library.schema.declareAll Library.penNames
    Library.schema.Once ∧ reached.Once
      ∧ reached.entity? "author" = some { name := "author", identityField := "penname" }
      ∧ reached.identityField "author" = "penname"
      ∧ reached.relation? "author" "books" = some Library.signedBooks
      ∧ reached.relation? "book" "author" = some Library.author := by
  intro reached
  have once : Library.schema.Once := ⟨List.nodup_nil, by decide⟩
  obtain ⟨reachedOnce, entity?, identityField, relation?⟩ :=
    (declareAll_finds_last Library.schema Library.penNames).2.2.2.2 once
  exact ⟨once, reachedOnce, entity? "author", identityField "author", relation? "author" "books",
    relation? "book" "author"⟩

/-- Books stay ahead of what an author is declared to have later. -/
example :
    let essays : Relation := { Library.books with name := "essays" }
    let reached := Library.schema.declareAll [.ofRelation essays, .ofRelation Library.signedBooks]
    reached.relationsFrom "author" = [Library.signedBooks, essays] := by decide

end EagerLoad
