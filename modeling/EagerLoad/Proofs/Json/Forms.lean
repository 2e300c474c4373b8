import EagerLoad.Json.Reading
import EagerLoad.Proofs.Json.Ordered

/-!
Contract: what is read from a document that was written from a value.

Owns: what it is for a reader to give content back from the value it was written as; the readers
of plain values, lists and objects; records written member by member; and what reading a record
keeps, whatever document it is read from.

Does not own: the forms of particular records (`Fixture/Rereading.lean`), or documents that
denote no value.
-/

set_option autoImplicit false

namespace EagerLoad.Json

namespace Reading

/-! ## Readings that succeed -/

theorem exists_of_bind {α β : Type} {reading : Reading α} {next : α → Reading β} {value : β}
    (succeeds : reading >>= next = .ok value) :
    ∃ read, reading = .ok read ∧ next read = .ok value := by
  cases reading with
  | error cause => cases succeeds
  | ok read => exact ⟨read, rfl, succeeds⟩

theorem exists_of_ofText {α : Type} {read : Nat → Document → Reading α} {text : String} {value : α}
    (isRead : ofText read text = .ok value) :
    ∃ document, read Document.nestingLimit document = .ok value := by
  unfold ofText at isRead
  split at isRead
  rename_i document complete _
  obtain ⟨content, isContent, finishes⟩ := exists_of_bind isRead
  cases complete with
  | false => cases finishes
  | true =>
      cases finishes
      exact ⟨document, isContent⟩

/-! ## Giving content back -/

/-- The document of a value is read as this content, in all the room that the value nests in: a
part of a value is read in the room that its whole leaves to it. -/
def Gives {α : Type} (read : Nat → Document → Reading α) (value : Value) (content : α) : Prop :=
  ∀ room, value.nesting ≤ room → read room (Document.ofValue value) = .ok content

section Plain

variable {α : Type} {read : Nat → Document → Reading α}

theorem Gives.ofValue {value : Value} {content : α} (gives : Gives read value content) :
    ofValue read value = .ok content :=
  gives value.nesting le_rfl

theorem gives_text (content : String) : Gives (fun _ => text) (.string content) content :=
  fun _ _ => rfl

theorem gives_flag (content : Bool) : Gives (fun _ => flag) (.bool content) content :=
  fun _ _ => rfl

theorem gives_count (content : Nat) :
    Gives (fun _ => count) (.number (.integer content)) content := by
  intro room _
  simp only [Document.ofValue, count]
  rw [if_neg (Int.natCast_nonneg content).not_gt, Int.toNat_natCast]

/-- What is written as anything but `null` is read back as content that is there. -/
theorem Gives.optional_some {value : Value} {content : α} (gives : Gives read value content)
    (isContent : value ≠ .null) :
    Gives (fun room => optional (read room)) value (some content) := by
  intro room nests
  have isRead := gives room nests
  cases value with
  | null => exact absurd rfl isContent
  | bool _ | number _ | string _ | array _ | object _ =>
      show (read room _).map some = _
      rw [isRead]
      rfl

/-- Optional content that is written as `null` when it is not set. -/
theorem gives_optional {write : α → Value} (give : ∀ content, Gives read (write content) content)
    (isContent : ∀ content, write content ≠ .null) (content : Option α) :
    Gives (fun room => optional (read room)) (content.elim .null write) content := by
  cases content with
  | none => exact fun _ _ => rfl
  | some content => exact (give content).optional_some (isContent content)

theorem mapM_ofValues {write : α → Value} {items : List α} {room : Nat}
    (give : ∀ item ∈ items, Gives read (write item) item)
    (nests : ∀ item ∈ items, (write item).nesting ≤ room) :
    (Document.ofValues (items.map write)).mapM (read room) = .ok items := by
  induction items with
  | nil => rfl
  | cons item rest inductionHypothesis =>
      have itemRead := give item List.mem_cons_self room (nests item List.mem_cons_self)
      have restRead := inductionHypothesis
        (fun later isLater => give later (List.mem_cons_of_mem _ isLater))
        (fun later isLater => nests later (List.mem_cons_of_mem _ isLater))
      rw [List.map_cons, Document.ofValues, List.mapM_cons, itemRead, restRead]
      rfl

theorem gives_listOf {write : α → Value} {items : List α}
    (give : ∀ item ∈ items, Gives read (write item) item) :
    Gives (listOf read) (.array (items.map write)) items := by
  intro room nests
  cases room with
  | zero => exact absurd nests (Nat.not_succ_le_zero _)
  | succ inner =>
      have itemsNest := Value.itemsNesting_le.1 (Nat.le_of_succ_le_succ nests)
      have itemsRead := mapM_ofValues give
        fun item isItem => itemsNest (write item) (List.mem_map_of_mem isItem)
      show (Document.ofValues (items.map write)).mapM (read inner) >>= _ = _
      rw [itemsRead]
      rfl

theorem gives_members {content : Members} (ordered : (Value.object content).Ordered) :
    Gives members (.object content) content := by
  intro room nests
  have isValue := Document.value?_ofValue (.object content) ⟨ordered, nests⟩
  simp only [Document.ofValue] at isValue ⊢
  simp only [members, isValue]

end Plain

theorem fits_of_members {room : Nat} {document : Document} {content : Members}
    (isRead : members room document = .ok content) : (Value.object content).Fits room := by
  unfold members at isRead
  split at isRead
  · split at isRead
    · rename_i found
      cases isRead
      exact Document.fits_of_value? _ found
    · cases isRead
  · unfold wrongType at isRead
    split at isRead <;> cases isRead

/-! ## Records written member by member -/

namespace RecordForm

variable {σ α : Type} {form : RecordForm σ α}

/-- The members fill the slots of a form, one after the other, and lead from one record to
another. Each of them has a slot of its name that is open when it comes. -/
inductive Takes (form : RecordForm σ α) : σ → List (String × Value) → σ → Prop
  | done (record : σ) : Takes form record [] record
  | member {record filled last : σ} {name : String} {value : Value}
      {rest : List (String × Value)} {slot : Slot σ}
      (isSlot : form.slots.find? (fun slot => slot.name == name) = some slot)
      (isOpen : slot.isFilled record = false)
      (fills : Gives (fun room document => slot.fill room document record) value filled)
      (more : Takes form filled rest last) :
      Takes form record ((name, value) :: rest) last

/-- A member that its slot reads as content which the record does not have yet. -/
theorem Takes.component {β : Type} {name : String} {get : σ → Option β} {set : σ → β → σ}
    {read : Nat → Document → Reading β} {record last : σ} {value : Value} {content : β}
    {rest : List (String × Value)}
    (isSlot : form.slots.find? (fun slot => slot.name == name)
      = some (.component name get set read))
    (isOpen : get record = none) (gives : Gives read value content)
    (more : form.Takes (set record content) rest last) :
    form.Takes record ((name, value) :: rest) last := by
  refine .member isSlot ?_ ?_ more
  · show (get record).isSome = false
    rw [isOpen]
    rfl
  · intro room nests
    show read room (Document.ofValue value) >>= _ = _
    rw [gives room nests]
    rfl

theorem Takes.append {record middle last : σ} {former latter : List (String × Value)}
    (first : form.Takes record former middle) (second : form.Takes middle latter last) :
    form.Takes record (former ++ latter) last := by
  induction first with
  | done _ => exact second
  | member isSlot isOpen fills _ inductionHypothesis =>
      exact .member isSlot isOpen fills (inductionHypothesis second)

theorem fillMembers_of_takes {room : Nat} {record last : σ} {members : List (String × Value)}
    (takes : form.Takes record members last) (nests : Value.membersNesting members ≤ room) :
    form.fillMembers room record (Document.ofMembers members) = .ok last := by
  -- One member at a time: the record that its slot has filled is where the rest goes on.
  induction takes with
  | done _ => rfl
  | @member record filled last name value rest slot isSlot isOpen fills _ inductionHypothesis =>
      obtain ⟨valueNests, restNests⟩ := max_le_iff.1 nests
      have isFilled := fills room valueNests
      unfold Document.ofMembers fillMembers
      simp only [isSlot, isOpen, isFilled]
      exact inductionHypothesis restNests

/-- A record is read from the object of its members when these lead from the blank record to
one that is finished as the record. -/
theorem Takes.gives {last : σ} {members : List (String × Value)} {content : α}
    (takes : form.Takes form.blank members last) (isFinished : form.finish last = .ok content) :
    Gives form.read (.object members) content := by
  intro room nests
  cases room with
  | zero => exact absurd nests (Nat.not_succ_le_zero _)
  | succ inner =>
      have isFilled := fillMembers_of_takes takes (Nat.le_of_succ_le_succ nests)
      unfold Document.ofValue read
      simp only [isFilled, bind, Except.bind, Bool.not_true, Bool.false_eq_true, if_false,
        isFinished]

/-! ## What reading a record keeps -/

variable {keeps : σ → Prop}

/-- Whatever a slot reads in this room, the record that it fills has the property afterwards if
it had it before. -/
def SlotKeeps (keeps : σ → Prop) (room : Nat) (slot : Slot σ) : Prop :=
  ∀ document record filled, keeps record → slot.fill room document record = .ok filled →
    keeps filled

theorem SlotKeeps.component {β : Type} {name : String} {get : σ → Option β} {set : σ → β → σ}
    {read : Nat → Document → Reading β} {room : Nat}
    (kept : ∀ document record content, keeps record → read room document = .ok content →
      keeps (set record content)) :
    SlotKeeps keeps room (.component name get set read) := by
  intro document record filled keptBefore fills
  obtain ⟨content, isContent, isFilled⟩ := exists_of_bind fills
  cases isFilled
  exact kept document record content keptBefore isContent

theorem keeps_of_fillMembers {room : Nat}
    (slotsKeep : ∀ slot ∈ form.slots, SlotKeeps keeps room slot)
    {entries : List (Option String × Document)} {record filled : σ} (kept : keeps record)
    (isFilled : form.fillMembers room record entries = .ok filled) : keeps filled := by
  induction entries generalizing record with
  | nil =>
      cases isFilled
      exact kept
  | cons entry rest inductionHypothesis =>
      obtain ⟨name, document⟩ := entry
      cases name with
      | none => cases isFilled
      | some name =>
          unfold fillMembers at isFilled
          split at isFilled
          · split at isFilled
            · exact inductionHypothesis kept isFilled
            · cases isFilled
          · rename_i slot isSlot
            split at isFilled
            · cases isFilled
            · obtain ⟨next, fills, restFills⟩ := exists_of_bind isFilled
              have slotKeeps := slotsKeep slot (List.mem_of_find?_eq_some isSlot)
              exact inductionHypothesis (slotKeeps document record next kept fills) restFills

theorem keeps_of_fillItems {slots : List (Slot σ)} {room : Nat}
    (slotsKeep : ∀ slot ∈ slots, SlotKeeps keeps room slot) {items left : List Document}
    {record filled : σ} (kept : keeps record)
    (isFilled : fillItems room record slots items = .ok (filled, left)) : keeps filled := by
  induction slots generalizing record items with
  | nil =>
      cases isFilled
      exact kept
  | cons slot rest inductionHypothesis =>
      cases items with
      | nil =>
          cases isFilled
          exact kept
      | cons item items =>
          obtain ⟨next, fills, restFills⟩ := exists_of_bind isFilled
          have slotKeeps := slotsKeep slot List.mem_cons_self
          exact inductionHypothesis
            (fun later member => slotsKeep later (List.mem_cons_of_mem _ member))
            (slotKeeps item record next kept fills) restFills

/-- What is read is finished from a record with every property that the blank record has and
each slot keeps. -/
theorem exists_finish_of_read {room : Nat}
    (slotsKeep : ∀ inner < room, ∀ slot ∈ form.slots, SlotKeeps keeps inner slot)
    (kept : keeps form.blank) {document : Document} {value : α}
    (isRead : form.read room document = .ok value) :
    ∃ record, keeps record ∧ form.finish record = .ok value := by
  unfold read at isRead
  split at isRead
  · split at isRead
    · cases isRead
    · obtain ⟨record, fills, finishes⟩ := exists_of_bind isRead
      refine ⟨record, keeps_of_fillMembers (slotsKeep _ (Nat.lt_succ_self _)) kept fills, ?_⟩
      split at finishes
      · cases finishes
      · split at finishes
        · rename_i finished
          cases finishes
          exact finished
        · cases finishes
  · split at isRead
    · cases isRead
    · obtain ⟨⟨record, left⟩, fills, finishes⟩ := exists_of_bind isRead
      refine ⟨record, keeps_of_fillItems (slotsKeep _ (Nat.lt_succ_self _)) kept fills, ?_⟩
      dsimp only at finishes
      split at finishes
      · cases finishes
      · split at finishes
        · cases finishes
        · rename_i finished
          split at finishes
          · cases finishes
            exact finished
          · cases finishes
  · unfold wrongType at isRead
    split at isRead <;> cases isRead

end RecordForm

end Reading

end EagerLoad.Json
