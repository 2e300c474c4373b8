import EagerLoad.Proofs.Json.Ascending

/-!
Contract: the values that documents denote.

Owns: values whose objects all have their members in order; that these are the values that
documents denote, each within the room that it nests in; and that the document of such a value
denotes the value itself.

Does not own: what readers make of the document of a value (`Json/Forms.lean`).

The value type also holds objects whose members are out of order or stand twice. No document
denotes one of these: the document of such a value denotes another one.
-/

set_option autoImplicit false

namespace EagerLoad.Json

namespace Value

/-! ## Values in order -/

/-- Every object within a value, the value included, has its keys ascending. -/
inductive Ordered : Value → Prop
  | null : Ordered .null
  | bool (flag : Bool) : Ordered (.bool flag)
  | number (content : Number) : Ordered (.number content)
  | string (text : String) : Ordered (.string text)
  | array {items : List Value} (ordered : ∀ item ∈ items, Ordered item) : Ordered (.array items)
  | object {members : Members} (ascending : members.Ascending)
      (ordered : ∀ member ∈ members, Ordered member.2) : Ordered (.object members)

theorem Ordered.items {items : List Value} (ordered : (Value.array items).Ordered) :
    ∀ item ∈ items, item.Ordered := by
  cases ordered
  assumption

theorem Ordered.members {members : Members} (ordered : (Value.object members).Ordered) :
    ∀ member ∈ members, member.2.Ordered := by
  cases ordered
  assumption

theorem Ordered.ascending {members : Members} (ordered : (Value.object members).Ordered) :
    members.Ascending := by
  cases ordered
  assumption

theorem ordered_object_nil : (Value.object []).Ordered :=
  .object List.Pairwise.nil fun _ isMember => absurd isMember List.not_mem_nil

/-! ## How deep values nest -/

theorem itemsNesting_le {items : List Value} {bound : Nat} :
    itemsNesting items ≤ bound ↔ ∀ item ∈ items, item.nesting ≤ bound := by
  induction items with
  | nil => simp [itemsNesting]
  | cons item rest inductionHypothesis =>
      simp [itemsNesting, inductionHypothesis]

theorem membersNesting_le {members : Members} {bound : Nat} :
    membersNesting members ≤ bound ↔ ∀ member ∈ members, member.2.nesting ≤ bound := by
  induction members with
  | nil => simp [membersNesting]
  | cons member rest inductionHypothesis =>
      obtain ⟨key, value⟩ := member
      simp [membersNesting, inductionHypothesis]

/-- A value in order that nests no deeper than the room that there is. -/
structure Fits (room : Nat) (value : Value) : Prop where
  ordered : value.Ordered
  nests : value.nesting ≤ room

theorem fits_array_succ {room : Nat} {items : List Value} :
    (Value.array items).Fits (room + 1) ↔ ∀ item ∈ items, item.Fits room := by
  constructor
  · intro fits item isItem
    exact ⟨fits.ordered.items item isItem,
      itemsNesting_le.1 (Nat.le_of_succ_le_succ fits.nests) item isItem⟩
  · intro fit
    exact ⟨.array fun item isItem => (fit item isItem).ordered,
      Nat.succ_le_succ (itemsNesting_le.2 fun item isItem => (fit item isItem).nests)⟩

theorem fits_object_succ {room : Nat} {members : Members} :
    (Value.object members).Fits (room + 1) ↔
      members.Ascending ∧ ∀ member ∈ members, member.2.Fits room := by
  constructor
  · intro fits
    refine ⟨fits.ordered.ascending, fun member isMember => ?_⟩
    exact ⟨fits.ordered.members member isMember,
      membersNesting_le.1 (Nat.le_of_succ_le_succ fits.nests) member isMember⟩
  · intro ⟨ascending, fit⟩
    exact ⟨.object ascending fun member isMember => (fit member isMember).ordered,
      Nat.succ_le_succ (membersNesting_le.2 fun member isMember => (fit member isMember).nests)⟩

end Value

namespace Members

/-- A member whose key is less than all the others goes to the front. -/
theorem insert_of_least {members : Members} {key : String} {value : Value}
    (least : ∀ member ∈ members, key < member.1) :
    members.insert key value = (key, value) :: members := by
  cases members with
  | nil => rfl
  | cons first rest =>
      obtain ⟨other, kept⟩ := first
      have isLess : key < other := least (other, kept) List.mem_cons_self
      unfold insert
      rw [if_neg isLess.ne, if_pos isLess]

theorem get?_of_least {members : Members} {key : String}
    (least : ∀ member ∈ members, key < member.1) : members.get? key = none := by
  induction members with
  | nil => rfl
  | cons first rest inductionHypothesis =>
      obtain ⟨other, kept⟩ := first
      have isLess : key < other := least (other, kept) List.mem_cons_self
      rw [get?_cons_of_ne kept rest isLess.ne]
      exact inductionHypothesis fun later isLater => least later (List.mem_cons_of_mem _ isLater)

end Members

namespace Document

open Value (Fits fits_array_succ fits_object_succ)

/-! ## The document of a value denotes it -/

mutual

theorem value?_ofValue : ∀ {room : Nat} (value : Value), value.Fits room →
    (ofValue value).value? room = some value
  | _, .null, _ | _, .bool _, _ | _, .number _, _ | _, .string _, _ => rfl
  | 0, .array _, fits | 0, .object _, fits => absurd fits.nests (Nat.not_succ_le_zero _)
  | inner + 1, .array items, fits => by
      show (values? inner (ofValues items)).map Value.array = _
      rw [values?_ofValues items (fits_array_succ.1 fits)]
      rfl
  | inner + 1, .object members, fits => by
      obtain ⟨ascending, fit⟩ := fits_object_succ.1 fits
      show (memberValues? inner (ofMembers members)).map Value.object = _
      rw [memberValues?_ofMembers members ascending fit]
      rfl

theorem values?_ofValues : ∀ {room : Nat} (items : List Value), (∀ item ∈ items, item.Fits room) →
    values? room (ofValues items) = some items
  | _, [], _ => rfl
  | room, item :: rest, fit => by
      have firstRead := value?_ofValue item (fit item List.mem_cons_self)
      have restRead := values?_ofValues rest
        fun later isLater => fit later (List.mem_cons_of_mem _ isLater)
      simp only [ofValues, values?, firstRead, restRead, bind, Option.bind]

theorem memberValues?_ofMembers : ∀ {room : Nat} (members : Members), members.Ascending →
    (∀ member ∈ members, member.2.Fits room) →
    memberValues? room (ofMembers members) = some members
  | _, [], _, _ => rfl
  | room, (key, value) :: rest, ascending, fit => by
      have least : ∀ member ∈ rest, key < member.1 :=
        fun _ isMember => List.rel_of_pairwise_cons ascending isMember
      have firstRead := value?_ofValue value (fit (key, value) List.mem_cons_self)
      have restRead := memberValues?_ofMembers rest ascending.of_cons
        fun later isLater => fit later (List.mem_cons_of_mem _ isLater)
      simp only [ofMembers, memberValues?, firstRead, restRead, bind, Option.bind]
      rw [Members.get?_of_least least, Members.insert_of_least least]
      rfl

end

/-! ## What a document denotes is in order -/

mutual

/-- A document denotes only values in order, and none that nest deeper than the room it is
given. -/
theorem fits_of_value? : ∀ {room : Nat} (document : Document) {value : Value},
    document.value? room = some value → value.Fits room
  | room, .null, value, isRead => by
      cases isRead
      exact ⟨.null, Nat.zero_le _⟩
  | room, .bool flag, value, isRead => by
      cases isRead
      exact ⟨.bool flag, Nat.zero_le _⟩
  | room, .number content, value, isRead => by
      obtain ⟨number, _, rfl⟩ := Option.map_eq_some_iff.1 isRead
      exact ⟨.number number, Nat.zero_le _⟩
  | room, .string content, value, isRead => by
      obtain ⟨text, _, rfl⟩ := Option.map_eq_some_iff.1 isRead
      exact ⟨.string text, Nat.zero_le _⟩
  | inner + 1, .array items closed, value, isRead => by
      obtain ⟨_, isArray⟩ := Option.ite_none_right_eq_some.1 isRead
      obtain ⟨read, readItems, rfl⟩ := Option.map_eq_some_iff.1 isArray
      exact fits_array_succ.2 (fits_of_values? items readItems)
  | inner + 1, .object entries closed, value, isRead => by
      obtain ⟨_, isObject⟩ := Option.ite_none_right_eq_some.1 isRead
      obtain ⟨read, readEntries, rfl⟩ := Option.map_eq_some_iff.1 isObject
      exact fits_object_succ.2
        ⟨ascending_of_memberValues? readEntries, fits_of_memberValues? entries readEntries⟩

theorem fits_of_values? : ∀ {room : Nat} (items : List Document) {values : List Value},
    values? room items = some values → ∀ value ∈ values, value.Fits room
  | _, [], values, isRead => by
      cases isRead
      exact fun _ isValue => absurd isValue List.not_mem_nil
  | room, item :: rest, values, isRead => by
      unfold values? at isRead
      simp only [bind, Option.bind_eq_some_iff] at isRead
      obtain ⟨first, firstRead, later, laterRead, same⟩ := isRead
      cases same
      exact List.forall_mem_cons.2 ⟨fits_of_value? item firstRead, fits_of_values? rest laterRead⟩

theorem fits_of_memberValues? :
    ∀ {room : Nat} (entries : List (Option String × Document)) {members : Members},
      memberValues? room entries = some members → ∀ member ∈ members, member.2.Fits room
  | _, [], members, isRead => by
      cases isRead
      exact fun _ isMember => absurd isMember List.not_mem_nil
  | room, (key, item) :: rest, members, isRead => by
      unfold memberValues? at isRead
      simp only [bind, Option.bind_eq_some_iff] at isRead
      obtain ⟨name, _, value, valueRead, later, laterRead, same⟩ := isRead
      have laterFit := fits_of_memberValues? rest laterRead
      cases same
      intro member isMember
      split at isMember
      · exact laterFit member isMember
      · rcases Members.eq_or_mem_of_mem_insert isMember with rfl | isLater
        · exact fits_of_value? item valueRead
        · exact laterFit member isLater

end

theorem ascending_of_valueOfText? {room : Nat} {text : String} {members : Members}
    (isRead : valueOfText? room text = some (.object members)) : members.Ascending := by
  unfold valueOfText? at isRead
  split at isRead
  · exact (fits_of_value? _ isRead).ordered.ascending
  · cases isRead

end Document

end EagerLoad.Json
