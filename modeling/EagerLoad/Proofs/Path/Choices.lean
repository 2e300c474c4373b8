import EagerLoad.Path.Expression
import Mathlib.Algebra.BigOperators.Group.List.Basic
import Mathlib.Data.Finset.Card

/-!
Contract: the order and the number of the choices of an expression.

Owns: the first occurrences of a list, the order of choices by the places at which their
alternatives stand, and that a listing of all choices in this order is the only one there is.

Does not own: which alternatives a source has (`Denotation.lean`).

An alternative may stand in a segment more than once. Only its first place counts, so that places
tell alternatives apart: two choices that differ are in order one way and not the other.
-/

set_option autoImplicit false

namespace EagerLoad.Path

/-! ## First occurrences -/

section

variable {α : Type} [DecidableEq α]

theorem firstOccurrences_concat (items : List α) (item : α) :
    firstOccurrences (items ++ [item])
      = if item ∈ firstOccurrences items then firstOccurrences items
        else firstOccurrences items ++ [item] := by
  unfold firstOccurrences
  rw [List.foldl_concat]

theorem mem_firstOccurrences {items : List α} {item : α} :
    item ∈ firstOccurrences items ↔ item ∈ items := by
  induction items using List.reverseRecOn with
  | nil => exact Iff.rfl
  | append_singleton before last inductionHypothesis =>
      rw [firstOccurrences_concat, List.mem_append, List.mem_singleton]
      by_cases known : last ∈ firstOccurrences before
      · rw [if_pos known, inductionHypothesis]
        refine ⟨.inl, ?_⟩
        intro either
        rcases either with earlier | isLast
        · exact earlier
        · exact isLast ▸ inductionHypothesis.1 (isLast ▸ known)
      · rw [if_neg known, List.mem_append, List.mem_singleton, inductionHypothesis]

/-- First occurrences stand in the order of their first places. -/
theorem pairwise_idxOf_firstOccurrences (items : List α) :
    (firstOccurrences items).Pairwise fun first second =>
      items.idxOf first < items.idxOf second := by
  induction items using List.reverseRecOn with
  | nil => exact .nil
  | append_singleton before last inductionHypothesis =>
      have sameOrder : (firstOccurrences before).Pairwise fun first second =>
          (before ++ [last]).idxOf first < (before ++ [last]).idxOf second := by
        refine inductionHypothesis.imp_of_mem ?_
        intro first second firstKnown secondKnown inOrder
        rw [List.idxOf_append_of_mem (mem_firstOccurrences.1 firstKnown),
          List.idxOf_append_of_mem (mem_firstOccurrences.1 secondKnown)]
        exact inOrder
      rw [firstOccurrences_concat]
      by_cases known : last ∈ firstOccurrences before
      · rw [if_pos known]
        exact sameOrder
      · rw [if_neg known, List.pairwise_append]
        refine ⟨sameOrder, List.pairwise_singleton _ _, ?_⟩
        intro first firstKnown second isLast
        have firstBefore := mem_firstOccurrences.1 firstKnown
        have lastAbsent : last ∉ before := fun member => known (mem_firstOccurrences.2 member)
        rw [List.mem_singleton.1 isLast, List.idxOf_append_of_mem firstBefore,
          List.idxOf_append_of_notMem lastAbsent]
        exact Nat.lt_of_lt_of_le (List.idxOf_lt_length_of_mem firstBefore) (Nat.le_add_right _ _)

theorem nodup_firstOccurrences (items : List α) : (firstOccurrences items).Nodup := by
  refine (pairwise_idxOf_firstOccurrences items).imp ?_
  intro first second inOrder same
  rw [same] at inOrder
  exact Nat.lt_irrefl _ inOrder

theorem firstOccurrences_of_nodup {items : List α} (distinct : items.Nodup) :
    firstOccurrences items = items := by
  induction items using List.reverseRecOn with
  | nil => rfl
  | append_singleton before last inductionHypothesis =>
      obtain ⟨beforeDistinct, -, apart⟩ := List.nodup_append.1 distinct
      have fresh : last ∉ before := by
        intro member
        exact apart last member last (List.mem_singleton_self last) rfl
      rw [firstOccurrences_concat, inductionHypothesis beforeDistinct, if_neg fresh]

theorem length_firstOccurrences (items : List α) :
    (firstOccurrences items).length = items.toFinset.card := by
  have sameItems : (firstOccurrences items).toFinset = items.toFinset := by
    ext item
    rw [List.mem_toFinset, List.mem_toFinset, mem_firstOccurrences]
  rw [← sameItems, List.toFinset_card_of_nodup (nodup_firstOccurrences items)]

end

/-! ## The order of choices -/

/-- One choice comes before another: at the first segment where they differ, its alternative
stands before that of the other. -/
inductive Before : List (List Segment) → List Segment → List Segment → Prop
  | here {alternatives : List Segment} {rest : List (List Segment)} {first second : Segment}
      {firstRest secondRest : List Segment}
      (stands : alternatives.idxOf first < alternatives.idxOf second) :
      Before (alternatives :: rest) (first :: firstRest) (second :: secondRest)
  | later {alternatives : List Segment} {rest : List (List Segment)} {segment : Segment}
      {firstRest secondRest : List Segment} (onward : Before rest firstRest secondRest) :
      Before (alternatives :: rest) (segment :: firstRest) (segment :: secondRest)

theorem Before.asymm {segments : List (List Segment)} {first second : List Segment}
    (before : Before segments first second) : ¬ Before segments second first := by
  induction before with
  | here stands =>
      intro back
      cases back with
      | here standsBack => exact Nat.lt_asymm stands standsBack
      | later => exact Nat.lt_irrefl _ stands
  | later onward inductionHypothesis =>
      intro back
      cases back with
      | here standsBack => exact Nat.lt_irrefl _ standsBack
      | later onwardBack => exact inductionHypothesis onwardBack

/-- The paths of an expression: each choice of alternatives once, and each before those that it
comes before. -/
structure ListsChoices (segments : List (List Segment)) (paths : List RelationPath) : Prop where
  complete : ∀ path, path ∈ paths ↔ IsChoice path.segments segments
  ordered : paths.Pairwise fun first second => Before segments first.segments second.segments

namespace ListsChoices

variable {segments : List (List Segment)} {paths : List RelationPath}

theorem nodup (lists : ListsChoices segments paths) : paths.Nodup := by
  refine lists.ordered.imp ?_
  intro first second before same
  rw [same] at before
  exact before.asymm before

/-- There is one listing of the choices. -/
theorem unique {others : List RelationPath} (lists : ListsChoices segments paths)
    (listsOthers : ListsChoices segments others) : paths = others := by
  have sameMembers : ∀ path, path ∈ paths ↔ path ∈ others := by
    intro path
    rw [lists.complete, listsOthers.complete]
  refine List.Perm.eq_of_pairwise ?_ lists.ordered listsOthers.ordered
    ((List.perm_ext_iff_of_nodup lists.nodup listsOthers.nodup).2 sameMembers)
  intro first second _ _ before back
  exact absurd back before.asymm

end ListsChoices

theorem IsChoice.length_eq {choice : List Segment} {segments : List (List Segment)}
    (isChoice : IsChoice choice segments) : choice.length = segments.length := by
  induction isChoice with
  | nil => rfl
  | cons member tail inductionHypothesis =>
      rw [List.length_cons, List.length_cons, inductionHypothesis]

/-- What is chosen from first occurrences is chosen from the alternatives. -/
theorem isChoice_map_firstOccurrences {choice : List Segment} {segments : List (List Segment)} :
    IsChoice choice (segments.map firstOccurrences) ↔ IsChoice choice segments := by
  constructor
  · intro isChoice
    induction segments generalizing choice with
    | nil => exact isChoice
    | cons alternatives rest inductionHypothesis =>
        cases isChoice with
        | cons member tail =>
            exact .cons (mem_firstOccurrences.1 member) (inductionHypothesis tail)
  · intro isChoice
    induction isChoice with
    | nil => exact .nil
    | cons member tail inductionHypothesis =>
        exact .cons (mem_firstOccurrences.2 member) inductionHypothesis

theorem pairwise_choices (segments : List (List Segment)) :
    (choices (segments.map firstOccurrences)).Pairwise (Before segments) := by
  induction segments with
  | nil => exact List.pairwise_singleton _ _
  | cons alternatives rest inductionHypothesis =>
      rw [List.map_cons, choices, List.pairwise_flatMap]
      constructor
      · intro segment _
        rw [List.pairwise_map]
        exact inductionHypothesis.imp fun onward => .later onward
      · refine (pairwise_idxOf_firstOccurrences alternatives).imp ?_
        intro first second stands firstChoice firstListed secondChoice secondListed
        obtain ⟨firstRest, _, rfl⟩ := List.mem_map.1 firstListed
        obtain ⟨secondRest, _, rfl⟩ := List.mem_map.1 secondListed
        exact .here stands

/-- The choices among first occurrences are a listing of all choices. -/
theorem listsChoices_choices (segments : List (List Segment)) :
    ListsChoices segments ((choices (segments.map firstOccurrences)).map RelationPath.mk) where
  complete path := by
    rw [← isChoice_map_firstOccurrences, ← mem_choices]
    constructor
    · intro listed
      obtain ⟨choice, member, rfl⟩ := List.mem_map.1 listed
      exact member
    · intro member
      exact List.mem_map.2 ⟨path.segments, member, rfl⟩
  ordered := by
    rw [List.pairwise_map]
    exact pairwise_choices segments

theorem length_choices_firstOccurrences (segments : List (List Segment)) :
    (choices (segments.map firstOccurrences)).length
      = (segments.map fun alternatives => alternatives.toFinset.card).prod := by
  rw [length_choices]
  induction segments with
  | nil => rfl
  | cons alternatives rest inductionHypothesis =>
      rw [List.map_cons, List.map_cons, List.prod_cons, ← inductionHypothesis, List.foldr_cons,
        length_firstOccurrences]

/-- A listing has as many paths as the product of the numbers of distinct alternatives. -/
theorem ListsChoices.length_eq {segments : List (List Segment)} {paths : List RelationPath}
    (lists : ListsChoices segments paths) :
    paths.length = (segments.map fun alternatives => alternatives.toFinset.card).prod := by
  rw [lists.unique (listsChoices_choices segments), List.length_map,
    length_choices_firstOccurrences]

end EagerLoad.Path
