import EagerLoad.Json.Document
import Mathlib.Data.String.Basic

/-!
Contract: the order of the members of an object.

Owns: objects whose keys ascend, and that every object that is built member by member is one of
them.

Does not own: objects up to the order of their members (`Json/Same.lean`), the values that
documents denote (`Json/Ordered.lean`), or who goes through an object in its order
(`Graph/Loading.lean`).

The value type holds members in any order. Only insertion keeps the keys in theirs, and every
reader builds its objects by insertion alone.
-/

set_option autoImplicit false

namespace EagerLoad.Json

namespace Members

/-- The keys ascend strictly, so that each of them stands once. -/
def Ascending (members : Members) : Prop :=
  members.Pairwise fun first second => first.1 < second.1

theorem eq_or_mem_of_mem_insert {members : Members} {key : String} {value : Value}
    {member : String × Value} (isMember : member ∈ members.insert key value) :
    member = (key, value) ∨ member ∈ members := by
  induction members with
  | nil => exact .inl (List.mem_singleton.1 isMember)
  | cons first rest inductionHypothesis =>
      obtain ⟨other, kept⟩ := first
      unfold insert at isMember
      split at isMember
      · rcases List.mem_cons.1 isMember with isNew | isOld
        · exact .inl isNew
        · exact .inr (List.mem_cons_of_mem _ isOld)
      · split at isMember
        · exact List.mem_cons.1 isMember
        · rcases List.mem_cons.1 isMember with isFirst | later
          · exact .inr (List.mem_cons.2 (.inl isFirst))
          · rcases inductionHypothesis later with isNew | isOld
            · exact .inl isNew
            · exact .inr (List.mem_cons_of_mem _ isOld)

theorem Ascending.insert {members : Members} (ascending : members.Ascending) (key : String)
    (value : Value) : (members.insert key value).Ascending := by
  induction members with
  | nil => exact List.pairwise_singleton _ _
  | cons first rest inductionHypothesis =>
      obtain ⟨other, kept⟩ := first
      have otherLeast : ∀ member ∈ rest, other < member.1 :=
        fun _ isMember => List.rel_of_pairwise_cons ascending isMember
      unfold Members.insert
      split
      · rename_i same
        subst same
        exact ascending.of_cons.cons fun member isMember => otherLeast member isMember
      · rename_i differs
        split
        · rename_i isLess
          refine List.Pairwise.cons ?_ ascending
          intro member isMember
          rcases List.mem_cons.1 isMember with rfl | later
          · exact isLess
          · exact lt_trans isLess (otherLeast member later)
        · rename_i notLess
          have isGreater : other < key := lt_of_le_of_ne (not_lt.1 notLess) (Ne.symm differs)
          refine (inductionHypothesis ascending.of_cons).cons ?_
          intro member isMember
          rcases eq_or_mem_of_mem_insert isMember with rfl | later
          · exact isGreater
          · exact otherLeast member later

theorem ascending_ofList (entries : List (String × Value)) : (ofList entries).Ascending := by
  unfold ofList
  suffices grows : ∀ members : Members, members.Ascending →
      (entries.foldl (fun members entry => members.insert entry.1 entry.2) members).Ascending from
    grows [] List.Pairwise.nil
  induction entries with
  | nil => exact fun members ascending => ascending
  | cons first rest inductionHypothesis =>
      intro members ascending
      exact inductionHypothesis _ (ascending.insert first.1 first.2)

end Members

namespace Document

theorem ascending_of_memberValues? {room : Nat} {entries : List (Option String × Document)}
    {members : Members} (isRead : memberValues? room entries = some members) :
    members.Ascending := by
  induction entries generalizing members with
  | nil =>
      cases isRead
      exact List.Pairwise.nil
  | cons first rest inductionHypothesis =>
      obtain ⟨key, item⟩ := first
      unfold memberValues? at isRead
      simp only [bind, Option.bind_eq_some_iff] at isRead
      obtain ⟨name, _, value, _, later, laterRead, same⟩ := isRead
      have laterAscending := inductionHypothesis laterRead
      cases same
      split
      · exact laterAscending
      · exact laterAscending.insert name value

end Document

end EagerLoad.Json
