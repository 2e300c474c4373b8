import EagerLoad.Proofs.Hydration.Fitting
import EagerLoad.Proofs.Hydration.Indexing
import EagerLoad.Proofs.Hydration.Termination
import EagerLoad.Proofs.Hydration.Walks

/-!
Contract: more requests and a greater limit never lose data.

Owns: what it is for a hydrated record to be contained in another, that a descent along a
smaller tree under a smaller limit is contained in one along a greater tree under a greater
limit, and the same for a union of trees.

Does not own: the order of trees (`Inclusion/Order.lean`).

## Why the two descents can be compared

They meet the same records on the same branches, so that the ancestor guard answers alike.
Where the smaller descent goes on, so does the greater one, along a tree that is still above:
the next level of the greater rule is above that of the smaller one. Where the smaller descent
stops, the records below get their explicit requests and empty values. The explicit requests
are among those of the greater descent wherever that one stops. Each empty value belongs to a
relation in scope, hence in the greater scope, and there the greater descent has an entry:
empty as well if it stops, loaded if it goes on.
-/

set_option autoImplicit false

namespace EagerLoad

theorem forall₂_map_iff {α β γ : Type} {related : β → γ → Prop} {left : α → β} {right : α → γ}
    {items : List α} :
    List.Forall₂ related (items.map left) (items.map right)
      ↔ ∀ item ∈ items, related (left item) (right item) := by
  rw [List.forall₂_map_left_iff, List.forall₂_map_right_iff, List.forall₂_same]

/-! ## Containment -/

/-- A value is contained in another one of its kind: an empty value in every value, and any
value in one that holds as many items, each in its place above. -/
inductive Attached.Contained {α : Type} (below : α → α → Prop) : Attached α → Attached α → Prop
  | null (value : Option α) : Contained below (.one none) (.one value)
  | one {left right : α} (holds : below left right) :
      Contained below (.one (some left)) (.one (some right))
  | empty (values : List α) : Contained below (.many []) (.many values)
  | many {left right : List α} (holds : List.Forall₂ below left right) :
      Contained below (.many left) (.many right)

mutual

/-- A hydrated record is contained in another one of the same record: each of its entries is
contained in one of the other. -/
inductive Hydrated.Contained : Hydrated → Hydrated → Prop
  | intro {left right : Hydrated} (entity : right.entity = left.entity)
      (record : right.record = left.record)
      (entries : ∀ entry ∈ left.relations, Hydrated.HasEntry right.relations entry) :
      Hydrated.Contained left right

/-- Among some entries there is one of the name of an entry, with a value that contains its
value. -/
inductive Hydrated.HasEntry :
    List (String × Attached Hydrated) → String × Attached Hydrated → Prop
  | intro {entries : List (String × Attached Hydrated)} {name : String}
      {value other : Attached Hydrated} (member : (name, other) ∈ entries)
      (contained : Attached.Contained Hydrated.Contained value other) :
      Hydrated.HasEntry entries (name, value)

end

namespace Attached

variable {α : Type} {below : α → α → Prop}

theorem empty_contained_ofList (kind : RelationKind) (values : List α) :
    (empty kind).Contained below (ofList kind values) := by
  unfold empty ofList
  cases kind.isPlural with
  | true => exact .empty values
  | false => exact .null values.head?

theorem contained_ofList (kind : RelationKind) {left right : List α}
    (holds : List.Forall₂ below left right) :
    (ofList kind left).Contained below (ofList kind right) := by
  unfold ofList
  cases kind.isPlural with
  | true => exact .many holds
  | false =>
      cases holds with
      | nil => exact .null none
      | cons first rest => exact .one first

end Attached

namespace Hydration

open Hydrated (Contained HasEntry)
open InclusionTree (Fits Within NodeWithin)

/-- The same records and schema under another limit. -/
def Context.withLimit (context : Context) (limit : Option Nat) : Context :=
  { context with maxDepth := limit }

variable {context : Context} {limit : Option Nat} {branch chain : List Ancestor}
  {entity : String} {tree more : InclusionTree} {node other : IncludeNode}
  {record related : Record}

/-! ## One step -/

/-- Where a rule goes on, a greater rule goes on under a greater limit. -/
theorem stops_eq_false_of_within {rule moreRule : Recursion} {reached : Ancestor}
    (limitLe : Depth.ofLimit? context.maxDepth ≤ Depth.ofLimit? limit)
    (within : rule.Within moreRule) (goesOn : context.stops branch rule reached = false) :
    (context.withLimit limit).stops branch moreRule reached = false := by
  obtain ⟨expands, fresh, shallow⟩ := stops_eq_false_iff.1 goesOn
  refine stops_eq_false_iff.2 ⟨Depth.isExhausted_eq_false_of_le within.shallow expands, fresh, ?_⟩
  intro most isLimit
  have sameLimit : limit = some most := isLimit
  subst sameLimit
  cases own : context.maxDepth with
  | none =>
      rw [own] at limitLe
      exact limitLe.elim
  | some fewer =>
      rw [own] at limitLe
      exact Nat.lt_of_lt_of_le (shallow fewer own) limitLe

/-- Whatever a step does, what is requested below its node stays requested. -/
theorem children_within_step (context : Context) (branch : List Ancestor) (node : IncludeNode)
    (related : Record) : Within node.children (context.step branch node related).tree := by
  rcases step_cases context branch node related with
    ⟨_, isStep⟩ | ⟨rule, _, _, isStep⟩ | ⟨rule, _, _, isStep⟩
  · rw [isStep]
    exact .refl _
  · rw [isStep]
    exact .refl _
  · rw [isStep]
    exact InclusionTree.within_merge_left (InclusionTree.distinct_recursiveLevel _ _ _)

/-- **A step keeps the order of trees.** -/
theorem within_step (namesDistinct : context.schema.NamesDistinct)
    (limitLe : Depth.ofLimit? context.maxDepth ≤ Depth.ofLimit? limit) (branch : List Ancestor)
    (fits : Fits context.schema node.relation.target node.children)
    (otherFits : Fits context.schema node.relation.target other.children)
    (within : NodeWithin node other) (childrenWithin : Within node.children other.children)
    (related : Record) :
    Within (context.step branch node related).tree
      ((context.withLimit limit).step branch other related).tree := by
  have stopped := childrenWithin.trans
    (children_within_step (context.withLimit limit) branch other related)
  rcases step_cases context branch node related with
    ⟨_, isStep⟩ | ⟨rule, _, _, isStep⟩ | ⟨rule, isRule, goesOn, isStep⟩
  · rw [isStep]
    exact stopped
  · rw [isStep]
    exact stopped
  · obtain ⟨otherRule, isOtherRule, ruleWithin⟩ := (isRule ▸ within.rule).exists_of_some
    have otherGoesOn := stops_eq_false_of_within limitLe ruleWithin goesOn
    rcases step_cases (context.withLimit limit) branch other related with
      ⟨isNone, _⟩ | ⟨same, isSame, stops, _⟩ | ⟨same, isSame, _, isOtherStep⟩
    · rw [isOtherRule] at isNone
      cases isNone
    · rw [isOtherRule] at isSame
      cases isSame
      rw [within.relation, otherGoesOn] at stops
      cases stops
    · rw [isOtherRule] at isSame
      cases isSame
      rw [isStep, isOtherStep, within.relation]
      exact InclusionTree.within_merge_recursiveLevel namesDistinct fits otherFits childrenWithin
        ruleWithin.next

/-- An entry that a step empties is contained in one that a step of a greater node leaves. -/
theorem hasEntry_of_empties (namesDistinct : (context.withLimit limit).schema.NamesDistinct)
    (fits : Fits (context.withLimit limit).schema entity more) (member : other ∈ more)
    (within : NodeWithin node other) {entry : String × Attached Hydrated}
    (isEmpty :
      (context.step branch node related).Empties context.schema node.relation.target entry) :
    HasEntry (loadStep (context.withLimit limit) branch other related).relations entry := by
  rcases step_cases context branch node related with
    ⟨_, isStep⟩ | ⟨rule, isRule, _, isStep⟩ | ⟨rule, _, _, isStep⟩
  · rw [isStep] at isEmpty
    cases isEmpty
  · rw [isStep] at isEmpty
    obtain ⟨relation, declared, admitted, rfl⟩ := isEmpty
    rw [← within.relation] at declared
    obtain ⟨otherRule, isOtherRule, ruleWithin⟩ := (isRule ▸ within.rule).exists_of_some
    have present : relation.name
        ∈ (loadStep (context.withLimit limit) branch other related).names :=
      (mem_names_loadStep namesDistinct fits member declared).2
        (.inr ⟨otherRule, isOtherRule, ruleWithin.follows _ admitted⟩)
    obtain ⟨value, valueMember⟩ := Hydrated.mem_names.1 present
    obtain ⟨same, sameDeclared, sameName, values, isValue⟩ :=
      exists_relation_of_mem_relations_loadStep namesDistinct fits member valueMember
    obtain rfl : same = relation := namesDistinct.eq_of_name_eq sameDeclared declared sameName
    obtain rfl : value = Attached.ofList same.kind values := isValue
    exact .intro valueMember (Attached.empty_contained_ofList same.kind values)
  · rw [isStep] at isEmpty
    cases isEmpty

/-- What a step leaves of a record is contained in what a step of a greater node leaves, as
soon as what is loaded before is. -/
theorem contained_loadStep (namesDistinct : (context.withLimit limit).schema.NamesDistinct)
    (fits : Fits (context.withLimit limit).schema entity more) (member : other ∈ more)
    (within : NodeWithin node other) {attached : Hydrated}
    (contained : attached.Contained (load (context.withLimit limit) node.relation.target related
      ((context.withLimit limit).step branch other related).tree branch)) :
    ((context.step branch node related).finish context.schema attached).Contained
      (loadStep (context.withLimit limit) branch other related) := by
  obtain ⟨sameEntity, sameRecord, entries⟩ := contained
  rw [entity_load] at sameEntity
  rw [record_load] at sameRecord
  refine .intro ?_ ?_ ?_
  · rw [entity_loadStep, entity_finish, within.relation, sameEntity]
  · rw [record_loadStep, record_finish, sameRecord]
  · intro entry entryMember
    rcases mem_relations_finish entryMember with loaded | isEmpty
    · obtain ⟨valueMember, valueContained⟩ := entries entry loaded
      refine .intro ?_ valueContained
      unfold loadStep
      rw [within.relation]
      exact mem_relations_finish_of_mem _ valueMember
    · rw [← sameEntity] at isEmpty
      exact hasEntry_of_empties namesDistinct fits member within isEmpty

/-! ## The descent -/

/-- The entry that a node gives a record is contained in that of a greater node, as soon as
each record under it is. -/
theorem hasEntry_load (member : other ∈ more) (ofType : other.relation.source = entity)
    (sameRelation : other.relation = node.relation) {attached : Record → Hydrated}
    (contained : ∀ related ∈ node.relation.yields context.schema context.view record,
      (attached related).Contained
        (loadStep (context.withLimit limit) (⟨entity, record.key⟩ :: chain) other related)) :
    HasEntry (load (context.withLimit limit) entity record more chain).relations
      (node.name, Attached.ofList node.relation.kind
        ((node.relation.yields context.schema context.view record).map attached)) := by
  have entry : (other.relation.name, Attached.ofList other.relation.kind
      ((other.relation.yields context.schema context.view record).map
        (loadStep (context.withLimit limit) (⟨entity, record.key⟩ :: chain) other)))
      ∈ (load (context.withLimit limit) entity record more chain).relations :=
    mem_relations_load.2 ⟨other, member, ofType, rfl⟩
  rw [sameRelation] at entry
  refine .intro entry (Attached.contained_ofList node.relation.kind ?_)
  exact forall₂_map_iff.2 contained

/-- **A greater tree and a greater limit load all that smaller ones load.** -/
theorem Descends.contained {hydrated : Hydrated} (namesDistinct : context.schema.NamesDistinct)
    (limitLe : Depth.ofLimit? context.maxDepth ≤ Depth.ofLimit? limit)
    (descends : Descends context entity record tree chain hydrated)
    (fits : Fits context.schema entity tree)
    (moreFits : Fits (context.withLimit limit).schema entity more) (within : Within tree more) :
    hydrated.Contained (load (context.withLimit limit) entity record more chain) := by
  have moreDistinct : (context.withLimit limit).schema.NamesDistinct := namesDistinct
  -- over the smaller descent; both are on one branch, but the greater tree changes on the way
  induction descends generalizing more with
  | @intro entity record tree chain attached below inductionHypothesis =>
      refine .intro (entity_load _ _ _ _ _) (record_load _ _ _ _ _) ?_
      intro entry entryMember
      obtain ⟨node, member, ofType, rfl⟩ := mem_entriesOf.1 entryMember
      have found := (InclusionTree.get?_eq_some_iff fits.distinct).2 ⟨member, rfl⟩
      obtain ⟨other, otherFound, nodeWithin⟩ := within.get? found
      have otherMember := List.mem_of_find?_eq_some otherFound
      have sameRelation := nodeWithin.relation
      refine hasEntry_load otherMember (sameRelation ▸ ofType) sameRelation ?_
      intro related yielded
      have otherChildrenFit := moreFits.children otherMember
      have otherStepFits :=
        fits_step moreDistinct (⟨entity, record.key⟩ :: chain) moreFits otherMember related
      rw [sameRelation] at otherChildrenFit otherStepFits
      have childrenWithin := within.below node.name
      rw [InclusionTree.below_of_get? found, InclusionTree.below_of_get? otherFound]
        at childrenWithin
      apply contained_loadStep moreDistinct moreFits otherMember nodeWithin
      apply inductionHypothesis node member ofType related yielded
      · exact fits_step namesDistinct _ fits member related
      · exact otherStepFits
      · exact within_step namesDistinct limitLe _ (fits.children member) otherChildrenFit nodeWithin
          childrenWithin related

end Hydration

namespace Resolver

/-- **More requests and a greater limit never lose data.** What is loaded along a tree is
contained, root by root, in what is loaded along its union with another tree, under settings
whose limit is no smaller. -/
theorem resolve_contained_in_union {schema : Schema} (namesDistinct : schema.NamesDistinct)
    (view : RecordView) {settings more : Settings}
    (limitLe : Depth.ofLimit? settings.maxRecursionDepth ≤ Depth.ofLimit? more.maxRecursionDepth)
    (earlier moreEarlier : List Call) (entity : String) (roots : List Record)
    {tree other : InclusionTree} (fits : InclusionTree.Fits schema entity tree)
    (otherFits : InclusionTree.Fits schema entity other) :
    List.Forall₂ Hydrated.Contained
      (((start view schema settings).serve earlier).resolve entity roots tree).1
      (((start view schema more).serve moreEarlier).resolve entity roots
        (InclusionTree.merge tree other)).1 := by
  rw [resolve_serve, resolve_serve, forall₂_map_iff]
  intro root _
  have descends := Hydration.descends_load (start view schema settings).context entity root tree []
  have raised : (start view schema more).context
      = (start view schema settings).context.withLimit more.maxRecursionDepth := rfl
  rw [raised]
  apply descends.contained
  · exact namesDistinct
  · exact limitLe
  · exact fits
  · exact InclusionTree.fits_merge namesDistinct fits otherFits
  · exact InclusionTree.within_merge_left otherFits.distinct

end Resolver

namespace Library

def writer : Record where
  key := ⟨"writer"⟩
  identity := .string "writer"
  fields := [("id", .string "writer")]

/-- A book of the writer. -/
def novel : Record where
  key := ⟨"novel"⟩
  identity := .string "novel"
  fields := [("author", .string "writer"), ("id", .string "novel")]

def store : Store := (({} : Store).put "author" writer).put "book" novel

/-- Books of authors of books, to one depth. -/
def tree : InclusionTree := InclusionTree.recursiveLevel schema "author" ⟨.all, .limit 1⟩

/-- Books, and authors below them without a limit. -/
def other : InclusionTree :=
  [.mk books (InclusionTree.recursiveLevel schema "book" ⟨.only ["author"], .unbounded⟩) none]

theorem fits_other : InclusionTree.Fits schema "author" other := by
  refine .intro (by decide) ?_ ?_
  · intro node member
    rw [List.mem_singleton.1 member]
    decide
  · intro node member
    rw [List.mem_singleton.1 member]
    exact InclusionTree.fits_recursiveLevel schema "book" ⟨.only ["author"], .unbounded⟩

end Library

/-- What is loaded for a writer to one depth, with branches of one record, is contained in what
is loaded with more requests and without a limit. -/
theorem Resolver.resolve_contained_in_union_library :
    Library.schema.NamesDistinct
      ∧ Depth.ofLimit? (some 1) ≤ Depth.ofLimit? none
      ∧ InclusionTree.Fits Library.schema "author" Library.tree
      ∧ InclusionTree.Fits Library.schema "author" Library.other
      ∧ List.Forall₂ Hydrated.Contained
          (((Resolver.start Library.store.view Library.schema
              { maxRecursionDepth := some 1 }).serve []).resolve "author" [Library.writer]
            Library.tree).1
          (((Resolver.start Library.store.view Library.schema {}).serve
              [⟨"author", [Library.writer], Library.other⟩]).resolve "author" [Library.writer]
            (InclusionTree.merge Library.tree Library.other)).1 := by
  have fits := InclusionTree.fits_recursiveLevel Library.schema "author" ⟨.all, .limit 1⟩
  have limitLe : Depth.ofLimit? (some 1) ≤ Depth.ofLimit? none := trivial
  exact ⟨by decide, limitLe, fits, Library.fits_other,
    Resolver.resolve_contained_in_union (by decide) _ limitLe _ _ _ _ fits Library.fits_other⟩

end EagerLoad
