import EagerLoad.Proofs.Inclusion.Positions

/-!
Contract: the declarations of one name on a type, the first and the later ones.

Owns: what a type declares and declares first; types from which first declarations lead along
whatever names any declarations lead along; that no name is declared twice where relations are
declared one at a time.

Does not own: what a tree does with later declarations (`Typing.lean`).

A look-up by name gives the first declaration. A listing gives all of them, so that a path of
declarations need not be one of first declarations.
-/

set_option autoImplicit false

namespace EagerLoad

namespace Schema

variable {schema : Schema} {entity other : String}

/-- A type declares a relation. -/
def Declares (schema : Schema) (entity : String) (relation : Relation) : Prop :=
  relation ∈ schema.relationsFrom entity

/-- The relation is the first one of its name that a type declares. -/
def DeclaresFirst (schema : Schema) (entity : String) (relation : Relation) : Prop :=
  schema.relation? entity relation.name = some relation

theorem DeclaresFirst.declares {relation : Relation}
    (isFirst : schema.DeclaresFirst entity relation) : schema.Declares entity relation :=
  List.mem_of_find?_eq_some isFirst

theorem name_of_relation? {name : String} {relation : Relation}
    (found : schema.relation? entity name = some relation) : relation.name = name := by
  have isNamed := List.find?_some found
  exact beq_iff_eq.1 isNamed

theorem declaresFirst_of_relation? {name : String} {relation : Relation}
    (found : schema.relation? entity name = some relation) :
    schema.DeclaresFirst entity relation := by
  unfold DeclaresFirst
  rw [name_of_relation? found, found]

theorem exists_relation? {relation : Relation} (declared : schema.Declares entity relation) :
    ∃ first, schema.relation? entity relation.name = some first := by
  apply Option.isSome_iff_exists.1
  exact List.find?_isSome.2 ⟨relation, declared, beq_self_eq_true relation.name⟩

theorem relationAt?_concat (name : String) (rest : List String) (last : String) :
    schema.relationAt? entity name (rest ++ [last])
      = (schema.relationAt? entity name rest).bind fun relation =>
          schema.relation? relation.target last := by
  induction rest generalizing entity name with
  | nil => rfl
  | cons next rest inductionHypothesis =>
      rw [List.cons_append, relationAt?, relationAt?, Option.bind_assoc]
      congr 1
      funext relation
      exact inductionHypothesis next

theorem isPath_of_concat {relations : List Relation} {last : Relation}
    (isPath : schema.IsPath entity (relations ++ [last])) : schema.IsPath entity relations := by
  induction relations generalizing entity with
  | nil => trivial
  | cons first rest inductionHypothesis => exact ⟨isPath.1, inductionHypothesis isPath.2⟩

/-- Whatever names declarations lead along from one type, first declarations lead along from
another. -/
def Follows (schema : Schema) (entity other : String) : Prop :=
  ∀ first rest, schema.IsPath other (first :: rest) →
    ∃ relation, schema.relationAt? entity first.name (rest.map Relation.name) = some relation

/-- One step along: for each declaration the other type has a first one of its name, and from
their targets it goes on like that. -/
theorem Follows.step (follows : schema.Follows entity other) {relation : Relation}
    (declared : schema.Declares other relation) :
    ∃ first, schema.relation? entity relation.name = some first
      ∧ schema.Follows first.target relation.target := by
  obtain ⟨first, isFirst⟩ := follows relation [] ⟨declared, trivial⟩
  refine ⟨first, isFirst, ?_⟩
  intro next rest isPath
  have onward := follows relation (next :: rest) ⟨declared, isPath⟩
  rwa [List.map_cons, relationAt?_cons isFirst] at onward

theorem Follows.target (follows : schema.Follows entity entity) {relation : Relation}
    (isFirst : schema.DeclaresFirst entity relation) :
    schema.Follows relation.target relation.target := by
  obtain ⟨first, found, onward⟩ := follows.step isFirst.declares
  rw [DeclaresFirst, found, Option.some.injEq] at isFirst
  rwa [isFirst] at onward

/-- Where no type declares a name twice, each declaration is the first. -/
theorem NamesDistinct.follows (namesDistinct : schema.NamesDistinct) (entity : String) :
    schema.Follows entity entity := by
  intro first rest isPath
  induction rest generalizing entity first with
  | nil => exact exists_relation? isPath.1
  | cons next rest inductionHypothesis =>
      have isFirst := namesDistinct.relation?_eq_some_iff.2 ⟨isPath.1, rfl⟩
      rw [List.map_cons, relationAt?_cons isFirst]
      exact inductionHypothesis first.target next isPath.2

/-- A declaration takes the place of the first one of its source and name, or comes last. -/
theorem keys_putRelation (relation : Relation) (relations : List Relation) :
    (putRelation relation relations).map (fun other => (other.source, other.name))
      = if (relation.source, relation.name) ∈ relations.map fun other => (other.source, other.name)
        then relations.map fun other => (other.source, other.name)
        else (relations.map fun other => (other.source, other.name))
          ++ [(relation.source, relation.name)] := by
  induction relations with
  | nil => rfl
  | cons other rest inductionHypothesis =>
      unfold putRelation
      by_cases same : other.source = relation.source ∧ other.name = relation.name
      · simp [same]
      · have differs : (relation.source, relation.name) ≠ (other.source, other.name) := by
          intro equal
          exact same ⟨(Prod.mk.inj equal).1.symm, (Prod.mk.inj equal).2.symm⟩
        rw [if_neg same, List.map_cons, List.map_cons, inductionHypothesis]
        by_cases known : (relation.source, relation.name)
            ∈ rest.map fun other => (other.source, other.name)
        · simp only [known, List.mem_cons, or_true, if_true]
        · simp only [known, differs, List.mem_cons, or_self, if_false, List.cons_append]

theorem namesDistinct_withRelation (namesDistinct : schema.NamesDistinct) (relation : Relation) :
    (schema.withRelation relation).NamesDistinct := by
  unfold NamesDistinct withRelation
  dsimp only
  rw [keys_putRelation]
  by_cases known : (relation.source, relation.name)
      ∈ schema.relations.map fun other => (other.source, other.name)
  · rw [if_pos known]
    exact namesDistinct
  · rw [if_neg known, ← List.concat_eq_append]
    exact List.Nodup.concat known namesDistinct

/-- To declare relations one at a time never repeats a name. -/
theorem namesDistinct_foldl_withRelation (namesDistinct : schema.NamesDistinct)
    (declarations : List Relation) :
    (declarations.foldl withRelation schema).NamesDistinct := by
  refine List.foldlRecOn (motive := NamesDistinct) _ _ namesDistinct ?_
  exact fun reached distinct relation _ => namesDistinct_withRelation distinct relation

end Schema

end EagerLoad
