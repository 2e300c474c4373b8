import EagerLoad.Proofs.Path.Partition

/-!
Contract: looking ahead at the items of a source.

Owns: the calls of a cursor in any order, what is left of the items before each of them, and
the answers of a whole run of calls.

Does not own: which items a source has (`Partition.lean`).

A cursor has three states: nothing was looked at, an item was looked at, or the end of the text
was. In each of them it stands before some of the items. Looking keeps them, taking drops the
first, and both answer with the first one, if there is one.
-/

set_option autoImplicit false

namespace EagerLoad.Path.Cursor

variable {cursor other : Cursor} {items : List Item}

/-! ## Calls -/

/-- What may be asked of a cursor: to look at the next item, or to take it. -/
inductive Call where
  | peek
  | next
  deriving DecidableEq, Repr

def perform (cursor : Cursor) : Call → Option Item × Cursor
  | .peek => cursor.peek
  | .next => cursor.next

/-- The cursor after some calls. -/
def after (cursor : Cursor) (calls : List Call) : Cursor :=
  calls.foldl (fun cursor call => (cursor.perform call).2) cursor

/-- The answers to some calls, one after the other. -/
def answers (cursor : Cursor) : List Call → List (Option Item)
  | [] => []
  | call :: rest => (cursor.perform call).1 :: answers (cursor.perform call).2 rest

/-- How many items some calls take. -/
def takes (calls : List Call) : Nat := calls.count .next

@[simp] theorem takes_nil : takes [] = 0 := rfl

@[simp] theorem takes_peek (rest : List Call) : takes (.peek :: rest) = takes rest := rfl

@[simp] theorem takes_next (rest : List Call) : takes (.next :: rest) = takes rest + 1 :=
  List.count_cons_self

@[simp] theorem takes_append (first second : List Call) :
    takes (first ++ second) = takes first + takes second :=
  List.count_append

@[simp] theorem takes_peeks (number : Nat) : takes (List.replicate number .peek) = 0 := by
  simp [takes, List.count_replicate]

/-! ## What is left of the items -/

/-- A cursor stands before items: those of the text that is left, with the one in front that was
looked at. Where the end was looked at, the text that is left has no item. -/
inductive StandsBefore : Cursor → List Item → Prop
  | unread (remainder : Remainder) : StandsBefore ⟨remainder, none⟩ remainder.items
  | looked (remainder : Remainder) (item : Item) :
      StandsBefore ⟨remainder, some (some item)⟩ (item :: remainder.items)
  | ended (remainder : Remainder) (isEnd : remainder.next = none) :
      StandsBefore ⟨remainder, some none⟩ []

theorem standsBefore_ofText (source : String) :
    (ofText source).StandsBefore (itemsOf source) :=
  .unread (Remainder.ofText source)

namespace StandsBefore

/-- Looking answers with the first item and keeps all of them. -/
theorem peek (stands : cursor.StandsBefore items) :
    cursor.peek.1 = items.head? ∧ cursor.peek.2.StandsBefore items := by
  cases stands with
  | unread remainder =>
      cases isNext : remainder.next with
      | none =>
          have noItems : remainder.items = [] := Remainder.items_of_end isNext
          simp only [Cursor.peek, advance, isNext, noItems]
          exact ⟨rfl, .ended remainder isNext⟩
      | some found =>
          have first : remainder.items = found.1 :: found.2.items := Remainder.items_of_next isNext
          simp only [Cursor.peek, advance, isNext, first]
          exact ⟨rfl, .looked found.2 found.1⟩
  | looked remainder item => exact ⟨rfl, .looked remainder item⟩
  | ended remainder isEnd => exact ⟨rfl, .ended remainder isEnd⟩

/-- Taking answers with the first item and drops it. -/
theorem next (stands : cursor.StandsBefore items) :
    cursor.next.1 = items.head? ∧ cursor.next.2.StandsBefore items.tail := by
  cases stands with
  | unread remainder =>
      cases isNext : remainder.next with
      | none =>
          have noItems : remainder.items = [] := Remainder.items_of_end isNext
          have unread := StandsBefore.unread remainder
          simp only [Cursor.next, advance, isNext]
          rw [noItems] at unread ⊢
          exact ⟨rfl, unread⟩
      | some found =>
          have first : remainder.items = found.1 :: found.2.items := Remainder.items_of_next isNext
          simp only [Cursor.next, advance, isNext, first]
          exact ⟨rfl, .unread found.2⟩
  | looked remainder item => exact ⟨rfl, .unread remainder⟩
  | ended remainder isEnd =>
      -- That the end was looked at is forgotten, but the text that is left has no item either.
      have unread := StandsBefore.unread remainder
      rw [Remainder.items_of_end isEnd] at unread
      exact ⟨rfl, unread⟩

/-- A call, whichever it is, answers with the first item, and drops it if it takes. -/
theorem perform (stands : cursor.StandsBefore items) (call : Call) :
    (cursor.perform call).1 = items.head?
      ∧ (cursor.perform call).2.StandsBefore (items.drop (takes [call])) := by
  cases call with
  | peek => simpa [Cursor.perform] using stands.peek
  | next => simpa [Cursor.perform] using stands.next

/-- After any calls, as many items are gone as were taken. -/
theorem after (stands : cursor.StandsBefore items) (calls : List Call) :
    (cursor.after calls).StandsBefore (items.drop (takes calls)) := by
  induction calls generalizing cursor items with
  | nil => simpa [Cursor.after] using stands
  | cons call rest inductionHypothesis =>
      have onward := inductionHypothesis (stands.perform call).2
      rw [List.drop_drop, ← takes_append, List.singleton_append] at onward
      exact onward

/-- Each call of a run answers with the item at the number of items taken before it. -/
theorem answers_eq (stands : cursor.StandsBefore items) (calls : List Call) :
    cursor.answers calls
      = (List.range calls.length).map fun place => items[takes (calls.take place)]? := by
  induction calls generalizing cursor items with
  | nil => rfl
  | cons call rest inductionHypothesis =>
      obtain ⟨answer, onward⟩ := stands.perform call
      rw [answers, answer, inductionHypothesis onward, List.length_cons, List.range_succ_eq_map,
        List.map_cons, List.map_map]
      congr 1
      · simp [List.head?_eq_getElem?]
      · -- What the first call took is missing from the items and counted for the later calls.
        apply List.map_congr_left
        intro place _
        rw [List.getElem?_drop, ← takes_append, List.singleton_append]
        rfl

/-- Cursors that stand before the same items cannot be told apart. -/
theorem answers_congr (stands : cursor.StandsBefore items) (otherStands : other.StandsBefore items)
    (calls : List Call) : cursor.answers calls = other.answers calls := by
  rw [stands.answers_eq, otherStands.answers_eq]

/-- Before no items, every call answers that there is none. -/
theorem answers_end (stands : cursor.StandsBefore []) (calls : List Call) :
    cursor.answers calls = List.replicate calls.length none := by
  rw [stands.answers_eq]
  simp [List.map_const']

end StandsBefore

/-! ## Item after item -/

/-- Taking item after item gives one list. -/
theorem Yields.unique {first second : List Item} (firstYields : cursor.Yields first)
    (secondYields : cursor.Yields second) : first = second := by
  induction firstYields generalizing second with
  | stop isEnd =>
      cases secondYields with
      | stop => rfl
      | item isNext more => simp [isEnd] at isNext
  | item isNext more inductionHypothesis =>
      cases secondYields with
      | stop isEnd => simp [isEnd] at isNext
      | item otherNext otherMore =>
          have sameItem := Option.some.inj (isNext.symm.trans otherNext)
          rw [sameItem, inductionHypothesis otherMore]

/-- A cursor walks along items, whatever calls were made of it. -/
structure WalksAlong (cursor : Cursor) (items : List Item) : Prop where
  /-- The items are what taking one after the other gives. -/
  yields_iff : ∀ listed, cursor.Yields listed ↔ listed = items
  /-- In any run of calls, each answer is the item at the number of items taken before, or none
  behind the last. -/
  answers_eq : ∀ calls, cursor.answers calls
    = (List.range calls.length).map fun place => items[takes (calls.take place)]?
  /-- Looking shows what is taken next, however often one looks. -/
  shows_next : ∀ calls number,
    (cursor.after calls).peek.1 = (cursor.after (calls ++ List.replicate number .peek)).next.1
  /-- Looking, however often, changes no later answer. -/
  keeps_answers : ∀ calls number later,
    (cursor.after (calls ++ List.replicate number .peek)).answers later
      = (cursor.after calls).answers later
  /-- Once all items are taken, every call answers that there is none. -/
  stays_ended : ∀ calls later, items.length ≤ takes calls →
    (cursor.after calls).answers later = List.replicate later.length none

theorem StandsBefore.walksAlong (stands : cursor.StandsBefore items)
    (yields : cursor.Yields items) : cursor.WalksAlong items where
  yields_iff listed := by
    constructor
    · intro otherYields
      exact otherYields.unique yields
    · rintro rfl
      exact yields
  answers_eq := stands.answers_eq
  shows_next calls number := by
    have looked := stands.after (calls ++ List.replicate number .peek)
    rw [takes_append, takes_peeks, Nat.add_zero] at looked
    rw [(stands.after calls).peek.1, looked.next.1]
  keeps_answers calls number later := by
    have looked := stands.after (calls ++ List.replicate number .peek)
    rw [takes_append, takes_peeks, Nat.add_zero] at looked
    exact looked.answers_congr (stands.after calls) later
  stays_ended calls later allTaken := by
    have ended := stands.after calls
    rw [List.drop_eq_nil_of_le allTaken] at ended
    exact ended.answers_end later

/-- **A cursor walks along the items of its source.** However looking and taking alternate, before
the end of the text, at it and behind it, the items are taken in their order, none twice and none
left out, each look shows the item that is taken next, and behind the last item there is none. -/
theorem ofText_walksAlong (source : String) : (ofText source).WalksAlong (itemsOf source) :=
  (standsBefore_ofText source).walksAlong (yields_items (Remainder.ofText source))

/-- A blank that does not separate is shown, taken once, and shown no more. -/
example :
    (ofText "a\u00a0").answers [.peek, .next, .peek, .peek, .next, .peek, .next]
      = [some (.token (.name "a") ⟨0, 1⟩), some (.token (.name "a") ⟨0, 1⟩),
        some (.fault ⟨.reservedBlank '\u00a0', ⟨1, 3⟩⟩),
        some (.fault ⟨.reservedBlank '\u00a0', ⟨1, 3⟩⟩),
        some (.fault ⟨.reservedBlank '\u00a0', ⟨1, 3⟩⟩), none, none] := by
  decide +kernel

end EagerLoad.Path.Cursor
