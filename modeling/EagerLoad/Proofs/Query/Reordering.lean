import EagerLoad.Proofs.Hydration.Containment
import EagerLoad.Proofs.Query.Shown

/-!
Contract: the order of requests never shows.

Owns: hydrated records whose entries have different names everywhere, that two of them show
the same as soon as each contains the other, lists of the same requests in different order,
and that queries which differ in that order only answer the same.

Does not own: containment (`Hydration/Containment.lean`).

Trees of the same requests have the same positions with the same rules, but not the same order
of siblings, and their rules list the names of their scopes in different order. So neither the
trees nor what is loaded along them are equal. What they ask for is: each is above the other.
Hence what is loaded along each contains what is loaded along the other.
-/

set_option autoImplicit false

namespace EagerLoad

open Json (Value)

/-! ## Different names everywhere -/

namespace Hydrated

/-- No two entries have one name, here and at every record below. -/
inductive Distinct : Hydrated → Prop
  | intro {hydrated : Hydrated} (names : hydrated.names.Nodup)
      (below : ∀ entry ∈ hydrated.relations, ∀ child ∈ entry.2.toList, Distinct child) :
      Distinct hydrated

namespace Distinct

variable {hydrated : Hydrated}

theorem names (distinct : Distinct hydrated) : hydrated.names.Nodup := by
  cases distinct with
  | intro names below => exact names

theorem attached (distinct : Distinct hydrated) {entry : String × Attached Hydrated}
    (member : entry ∈ hydrated.relations) {child : Hydrated} (isChild : child ∈ entry.2.toList) :
    Distinct child := by
  cases distinct with
  | intro names below => exact below entry member child isChild

theorem finish (distinct : Distinct hydrated) (schema : Schema) (step : Hydration.Step) :
    Distinct (step.finish schema hydrated) := by
  refine .intro (Hydration.nodup_names_finish distinct.names) ?_
  intro entry member child isChild
  rcases Hydration.mem_relations_finish member with loaded | isEmpty
  · exact distinct.attached loaded isChild
  · rw [isEmpty.toList_eq_nil] at isChild
    cases isChild

end Distinct

end Hydrated

namespace Hydration

theorem Descends.distinct {context : Context} {entity : String} {record : Record}
    {tree : InclusionTree} {chain : List Ancestor} {hydrated : Hydrated}
    (descends : Descends context entity record tree chain hydrated)
    (treeDistinct : InclusionTree.Distinct tree) : hydrated.Distinct := by
  induction descends with
  | intro attached below inductionHypothesis =>
      have isLoad := (Descends.intro attached below).eq_load
      refine .intro ?_ ?_
      · rw [isLoad]
        exact nodup_names_load treeDistinct
      · intro entry entryMember child isChild
        obtain ⟨node, member, ofType, rfl⟩ := mem_entriesOf.1 entryMember
        rw [toList_entry] at isChild
        obtain ⟨related, yielded, rfl⟩ := List.mem_map.1 isChild
        apply Hydrated.Distinct.finish
        apply inductionHypothesis node member ofType related yielded
        exact distinct_step treeDistinct member

end Hydration

/-! ## Containment both ways -/

theorem forall₂_of_both {α : Type} {below same : α → α → Prop} {left right : List α}
    (holds : List.Forall₂ below left right) (back : List.Forall₂ below right left)
    (both : ∀ first ∈ left, ∀ second ∈ right, below first second → below second first →
      same first second) : List.Forall₂ same left right := by
  induction holds with
  | nil => exact .nil
  | cons firstBelow restBelow inductionHypothesis =>
      cases back with
      | cons firstBack restBack =>
          refine .cons ?_ ?_
          · exact both _ List.mem_cons_self _ List.mem_cons_self firstBelow firstBack
          · apply inductionHypothesis restBack
            intro first firstMember second secondMember
            exact both first (List.mem_cons_of_mem _ firstMember) second
              (List.mem_cons_of_mem _ secondMember)

section

variable {schema : Schema} {settings : Settings}

theorem Attached.same_toValue {left right : Attached Hydrated}
    (contained : left.Contained Hydrated.Contained right)
    (back : right.Contained Hydrated.Contained left)
    (below : ∀ child ∈ left.toList, ∀ other ∈ right.toList, child.Contained other →
      other.Contained child →
      Value.Same (child.toValue schema settings) (other.toValue schema settings)) :
    Value.Same (left.toValue schema settings) (right.toValue schema settings) := by
  cases contained with
  | null value =>
      cases back with
      | null => exact .null
  | one holds =>
      cases back with
      | one backHolds =>
          exact below _ (Option.mem_toList.2 rfl) _ (Option.mem_toList.2 rfl) holds backHolds
  | empty values =>
      cases back with
      | empty => exact .array .nil
      | many backHolds =>
          cases backHolds
          exact .array .nil
  | many holds =>
      apply Value.Same.array
      rw [List.forall₂_map_left_iff, List.forall₂_map_right_iff]
      cases back with
      | empty =>
          cases holds
          exact .nil
      | many backHolds => exact forall₂_of_both holds backHolds below

/-- **Records that contain each other show the same.** -/
theorem Hydrated.Contained.same_toValue {left right : Hydrated} (leftDistinct : left.Distinct)
    (rightDistinct : right.Distinct) (contained : left.Contained right)
    (back : right.Contained left) :
    Value.Same (left.toValue schema settings) (right.toValue schema settings) := by
  induction leftDistinct generalizing right with
  | @intro left names below inductionHypothesis =>
      obtain ⟨sameEntity, sameRecord, entries⟩ := contained
      obtain ⟨_, _, backEntries⟩ := back
      apply Hydrated.same_toValue sameRecord.symm names rightDistinct.names
      intro key
      unfold Hydrated.valueAt?
      rw [Hydrated.blank_congr sameEntity sameRecord]
      cases found : left.relation? key with
      | none =>
          cases otherFound : right.relation? key with
          | none => exact Value.Same.refl? _
          | some other =>
              have otherMember := (Hydrated.relation?_eq_some_iff rightDistinct.names).1 otherFound
              obtain ⟨member, _⟩ := backEntries _ otherMember
              have absent := Hydrated.relation?_eq_none_iff.1 found
              exact absurd (Hydrated.mem_names.2 ⟨_, member⟩) absent
      | some value =>
          have member := (Hydrated.relation?_eq_some_iff names).1 found
          -- there and back again is the entry itself, since no other has its name
          obtain ⟨otherMember, valueContained⟩ := entries _ member
          obtain ⟨backMember, valueBack⟩ := backEntries _ otherMember
          have sameEntry := (Hydrated.relation?_eq_some_iff names).2 backMember
          rw [found] at sameEntry
          cases sameEntry
          rw [(Hydrated.relation?_eq_some_iff rightDistinct.names).2 otherMember]
          refine .some (Attached.same_toValue valueContained valueBack ?_)
          intro child isChild other isOther
          exact inductionHypothesis _ member child isChild
            (rightDistinct.attached otherMember isOther)

end

/-! ## The same requests -/

namespace Load

/-- Loads that differ in the order of paths or of names only, or in how often they name one. -/
inductive Alike : Load → Load → Prop
  | paths {paths others : List Path.RelationPath} (same : ∀ path, path ∈ paths ↔ path ∈ others) :
      Alike (.paths paths) (.paths others)
  | all : Alike .all .all
  | allRecursive (depth : Depth) : Alike (.allRecursive depth) (.allRecursive depth)
  | recursive {names others : List String} (depth : Depth)
      (same : ∀ name, name ∈ names ↔ name ∈ others) :
      Alike (.recursive names depth) (.recursive others depth)

/-- Lists of the same loads, in whatever order, each with its paths or its names in whatever
order. -/
def Rearranged (loads others : List Load) : Prop :=
  (∀ load ∈ loads, ∃ other ∈ others, load.Alike other)
    ∧ ∀ other ∈ others, ∃ load ∈ loads, other.Alike load

theorem Alike.symm {load other : Load} (alike : load.Alike other) : other.Alike load := by
  cases alike with
  | paths same => exact .paths fun path => (same path).symm
  | all => exact .all
  | allRecursive depth => exact .allRecursive depth
  | recursive depth same => exact .recursive depth fun name => (same name).symm

theorem exists_alike_of_mem {loads others : List Load} (alike : List.Forall₂ Alike loads others)
    {load : Load} (member : load ∈ loads) : ∃ other ∈ others, load.Alike other := by
  induction alike with
  | nil => cases member
  | cons firstAlike restAlike inductionHypothesis =>
      rcases List.mem_cons.1 member with rfl | later
      · exact ⟨_, List.mem_cons_self, firstAlike⟩
      · obtain ⟨other, otherMember, isAlike⟩ := inductionHypothesis later
        exact ⟨other, List.mem_cons_of_mem _ otherMember, isAlike⟩

/-- A permutation of loads, and then of what each of them lists, rearranges them. -/
theorem rearranged_of_perm {loads middle others : List Load} (perm : loads.Perm middle)
    (alike : List.Forall₂ Alike middle others) : Rearranged loads others := by
  have back : List.Forall₂ Alike others middle :=
    List.Forall₂.flip (alike.imp fun _ _ isAlike => isAlike.symm)
  constructor
  · intro load member
    exact exists_alike_of_mem alike (perm.mem_iff.1 member)
  · intro other member
    obtain ⟨load, loadMember, isAlike⟩ := exists_alike_of_mem back member
    exact ⟨load, perm.mem_iff.2 loadMember, isAlike⟩

theorem Alike.exists_within {load other : Load} (alike : load.Alike other) {request : Request}
    (member : request ∈ load.requests) : ∃ another ∈ other.requests, request.Within another := by
  cases alike with
  | paths same =>
      obtain ⟨path, pathMember, rfl⟩ := List.mem_map.1 member
      exact ⟨_, List.mem_map.2 ⟨path, (same path).1 pathMember, rfl⟩, .path path.segments⟩
  | all =>
      rw [List.mem_singleton.1 member]
      exact ⟨_, List.mem_singleton_self _, .path _⟩
  | allRecursive depth =>
      rw [List.mem_singleton.1 member]
      exact ⟨_, List.mem_singleton_self _, .recursive (.refl _)⟩
  | recursive depth same =>
      rw [List.mem_singleton.1 member]
      refine ⟨_, List.mem_singleton_self _, .recursive ⟨?_, le_refl depth⟩⟩
      intro name admitted
      have isNamed := List.contains_iff_mem.1 admitted
      exact List.contains_iff_mem.2 ((same name).1 isNamed)

/-- Each request of some loads asks for no more than one of loads that they are alike to. -/
theorem exists_within_of_alike {loads others : List Load}
    (alike : ∀ load ∈ loads, ∃ other ∈ others, load.Alike other) :
    ∀ request ∈ loads.flatMap requests, ∃ other ∈ others.flatMap requests,
      request.Within other := by
  intro request member
  obtain ⟨load, loadMember, isRequest⟩ := List.mem_flatMap.1 member
  obtain ⟨other, otherMember, loadAlike⟩ := alike load loadMember
  obtain ⟨another, isAnother, within⟩ := loadAlike.exists_within isRequest
  exact ⟨another, List.mem_flatMap.2 ⟨other, otherMember, isAnother⟩, within⟩

end Load

/-- **What is loaded for rearranged requests shows the same.** -/
theorem Hydration.same_load_of_rearranged (context : Hydration.Context)
    (namesDistinct : context.schema.NamesDistinct) (settings : Settings) (entity : String)
    (record : Record) {loads others : List Load} (rearranged : Load.Rearranged loads others) :
    Value.Same
      ((load context entity record (InclusionTree.build context.schema entity loads) []).toValue
        context.schema settings)
      ((load context entity record (InclusionTree.build context.schema entity others) []).toValue
        context.schema settings) := by
  have fits := (InclusionTree.shaped_build namesDistinct entity loads).fits
  have othersFit := (InclusionTree.shaped_build namesDistinct entity others).fits
  have within := InclusionTree.build_within namesDistinct entity
    (Load.exists_within_of_alike rearranged.1)
  have backWithin := InclusionTree.build_within namesDistinct entity
    (Load.exists_within_of_alike rearranged.2)
  have descends := descends_load context entity record
    (InclusionTree.build context.schema entity loads) []
  have othersDescend := descends_load context entity record
    (InclusionTree.build context.schema entity others) []
  have unlimited : context.withLimit context.maxDepth = context := rfl
  have contained := descends.contained namesDistinct (le_refl _) fits othersFit within
  have back := othersDescend.contained namesDistinct (le_refl _) othersFit fits backWithin
  rw [unlimited] at contained back
  exact contained.same_toValue (descends.distinct fits.distinct)
    (othersDescend.distinct othersFit.distinct) back

/-! ## Queries -/

theorem rel_head? {α : Type} {same : α → α → Prop} {left right : List α}
    (holds : List.Forall₂ same left right) : Option.Rel same left.head? right.head? := by
  cases holds with
  | nil => exact .none
  | cons first rest => exact .some first

namespace Query

/-- A query answers with the objects of what is loaded for each of its roots. -/
theorem run_eq (query : Query) (roots : List Record) :
    query.run roots = roots.map fun root =>
      (Hydration.load (Resolver.start query.view query.schema query.settings).context query.entity
        root query.inclusionTree []).toValue query.schema query.settings := by
  have resolved := Resolver.resolve_serve query.view query.schema query.settings [] query.entity
    roots query.inclusionTree
  show Hydrated.toValues query.schema query.settings
    ((Resolver.start query.view query.schema query.settings).resolve query.entity roots
      query.inclusionTree).1 = _
  rw [Hydrated.toValues_eq]
  show List.map _ (((Resolver.start query.view query.schema query.settings).serve []).resolve
      query.entity roots query.inclusionTree).1 = _
  rw [resolved, List.map_map]
  rfl

/-- **The order of requests never shows.** Queries of the same requests in different order
answer the same to every question: for all selected records, for the first one, and for the
one of any identity. -/
theorem same_of_rearranged (query : Query) (namesDistinct : query.schema.NamesDistinct)
    {others : List Load} (rearranged : Load.Rearranged query.loads others) :
    List.Forall₂ Value.Same query.get { query with loads := others }.get
      ∧ Option.Rel Value.Same query.first { query with loads := others }.first
      ∧ ∀ identity, Option.Rel Value.Same (query.find identity)
          ({ query with loads := others }.find identity) := by
  have sameRun : ∀ roots, List.Forall₂ Value.Same (query.run roots)
      ({ query with loads := others }.run roots) := by
    intro roots
    rw [run_eq, run_eq, forall₂_map_iff]
    intro root _
    exact Hydration.same_load_of_rearranged
      (Resolver.start query.view query.schema query.settings).context namesDistinct query.settings
      query.entity root rearranged
  exact ⟨sameRun _, rel_head? (sameRun _), fun identity => rel_head? (sameRun _)⟩

end Query

namespace Library

def query : Query where
  view := store.view
  schema := schema
  settings := {}
  entity := "author"
  loads := loads

/-- The loads in another order, with their paths and their names in another order and one name
twice. -/
def rearranged : List Load :=
  [.all, .recursive ["author", "books", "author"] (.limit 2),
    .paths [⟨[.relation "books", .relation "editor"]⟩, ⟨[.relation "books", .wildcard]⟩],
    .allRecursive .unbounded]

theorem rearranged_loads : Load.Rearranged loads rearranged := by
  have perm : loads.Perm
      [.all, .recursive ["books", "author"] (.limit 2),
        .paths [⟨[.relation "books", .wildcard]⟩, ⟨[.relation "books", .relation "editor"]⟩],
        .allRecursive .unbounded] := by decide
  refine Load.rearranged_of_perm perm ?_
  refine .cons .all (.cons (.recursive _ ?_) (.cons (.paths ?_) (.cons (.allRecursive _) .nil)))
  · intro name
    simp only [List.mem_cons, List.not_mem_nil, or_false]
    tauto
  · intro path
    simp only [List.mem_cons, List.not_mem_nil, or_false]
    exact or_comm

end Library

/-- A query for authors answers the same when its requests are rearranged. -/
theorem Query.same_of_rearranged_library :
    Library.schema.NamesDistinct
      ∧ Load.Rearranged Library.loads Library.rearranged
      ∧ List.Forall₂ Value.Same Library.query.get
          { Library.query with loads := Library.rearranged }.get
      ∧ Option.Rel Value.Same Library.query.first
          { Library.query with loads := Library.rearranged }.first
      ∧ ∀ identity, Option.Rel Value.Same (Library.query.find identity)
          ({ Library.query with loads := Library.rearranged }.find identity) :=
  ⟨by decide, Library.rearranged_loads,
    Library.query.same_of_rearranged (by decide) Library.rearranged_loads⟩

end EagerLoad
