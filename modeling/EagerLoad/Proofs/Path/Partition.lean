import EagerLoad.Path.Token
import Mathlib.Data.List.TakeWhile

/-!
Contract: the items of a text partition it.

Owns: the characters that an item stands for, the tiling of a text by items and by the
separators between them, the agreement of reading item after item with it, and the reading up to
a number of items, by which the items of a given text are computed.

Does not own: which items are a path expression (`Denotation.lean`).

A name is a longest run, so its neighbours matter. To the right of it stands what reading
stopped at. To the left of it stands what was read before, so the tiling carries that along:
wherever an item starts, a name cannot reach across (`Parted`).
-/

set_option autoImplicit false

namespace EagerLoad.Path

/-! ## Pieces of a text -/

/-- A span cuts a text into what stands before it, inside it and after it. -/
structure Cuts (chars : List Char) (span : Span) (before inside after : List Char) : Prop where
  text : chars = before ++ inside ++ after
  start : span.start = byteLength before
  stop : span.stop = byteLength (before ++ inside)

/-- A byte offset falls into a span. -/
def Span.Contains (span : Span) (offset : Nat) : Prop := span.start ≤ offset ∧ offset < span.stop

theorem byteLength_pos {chars : List Char} (notEmpty : chars ≠ []) : 0 < byteLength chars := by
  cases chars with
  | nil => exact absurd rfl notEmpty
  | cons char rest =>
      have := char.utf8Size_pos
      simp only [byteLength_cons]
      omega

/-- The number of bytes of a text is the size of its encoding. -/
theorem byteLength_toList (source : String) : byteLength source.toList = source.utf8ByteSize := by
  suffices sizes : ∀ chars, byteLength chars = (String.ofList chars).utf8ByteSize by
    rw [sizes, String.ofList_toList]
  intro chars
  induction chars with
  | nil => simp
  | cons char rest inductionHypothesis =>
      rw [byteLength_cons, inductionHypothesis, ← List.singleton_append, String.ofList_append,
        String.utf8ByteSize_append, ← String.singleton_eq_ofList, String.utf8ByteSize_singleton]

/-- The first part of a text is known by its number of bytes. -/
theorem append_inj_of_byteLength {first second rest others : List Char}
    (text : first ++ rest = second ++ others) (sameLength : byteLength first = byteLength second) :
    first = second ∧ rest = others := by
  have noMore : ∀ more, byteLength more = 0 → more = [] := by
    intro more isZero
    by_contra notEmpty
    have := byteLength_pos notEmpty
    omega
  rcases List.append_eq_append_iff.1 text with ⟨more, rfl, rfl⟩ | ⟨more, rfl, rfl⟩
  · rw [byteLength_append] at sameLength
    rw [noMore more (by omega)]
    simp
  · rw [byteLength_append] at sameLength
    rw [noMore more (by omega)]
    simp

/-- Between any two parts of a text there is a boundary of characters. -/
theorem isValid_of_append {source : String} {before after : List Char}
    (text : source.toList = before ++ after) :
    String.Pos.Raw.IsValid source ⟨byteLength before⟩ := by
  refine String.Pos.Raw.isValid_iff_exists_append.2
    ⟨String.ofList before, String.ofList after, ?_, ?_⟩
  · rw [← String.ofList_append, ← text, String.ofList_toList]
  · have sameSize := byteLength_toList (String.ofList before)
    rw [String.toList_ofList] at sameSize
    rw [sameSize]
    rfl

namespace Cuts

variable {source : String} {span : Span} {before inside after : List Char}

theorem isValid_start (cuts : Cuts source.toList span before inside after) :
    String.Pos.Raw.IsValid source ⟨span.start⟩ := by
  rw [cuts.start]
  exact isValid_of_append (cuts.text.trans (List.append_assoc _ _ _))

theorem isValid_stop (cuts : Cuts source.toList span before inside after) :
    String.Pos.Raw.IsValid source ⟨span.stop⟩ := by
  rw [cuts.stop]
  exact isValid_of_append cuts.text

/-- A span cuts a text in one way. -/
theorem unique {chars otherBefore otherInside otherAfter : List Char}
    (cuts : Cuts chars span before inside after)
    (others : Cuts chars span otherBefore otherInside otherAfter) :
    before = otherBefore ∧ inside = otherInside ∧ after = otherAfter := by
  have sameText := cuts.text.symm.trans others.text
  obtain ⟨sameFirst, rfl⟩ :=
    append_inj_of_byteLength sameText (cuts.stop.symm.trans others.stop)
  obtain ⟨rfl, rfl⟩ :=
    append_inj_of_byteLength sameFirst (cuts.start.symm.trans others.start)
  exact ⟨rfl, rfl, rfl⟩

theorem start_le_stop {chars : List Char} (cuts : Cuts chars span before inside after) :
    span.start ≤ span.stop := by
  rw [cuts.start, cuts.stop, byteLength_append]
  omega

theorem stop_le (cuts : Cuts source.toList span before inside after) :
    span.stop ≤ source.utf8ByteSize := by
  rw [← byteLength_toList, cuts.text, cuts.stop, byteLength_append (before ++ inside)]
  omega

end Cuts

/-! ## What an item stands for -/

/-- A text that no name can reach into: it is over, or it starts with a separator. -/
def Apart (rest : List Char) : Prop := ∀ char, rest.head? = some char → isNameChar char = false

/-- The characters that an item stands for, with those before and after them. The run of a name
cannot be extended to either side. -/
inductive Lexeme : Item → List Char → List Char → List Char → Prop
  | dot {span : Span} {before after : List Char} :
      Lexeme (.token .dot span) before ['.'] after
  | pipe {span : Span} {before after : List Char} :
      Lexeme (.token .pipe span) before ['|'] after
  | star {span : Span} {before after : List Char} :
      Lexeme (.token .star span) before ['*'] after
  | name {span : Span} {before run after : List Char} (notEmpty : run ≠ [])
      (nameChars : ∀ char ∈ run, isNameChar char = true) (apartBefore : Apart before.reverse)
      (apartAfter : Apart after) :
      Lexeme (.token (.name (String.ofList run)) span) before run after
  | fault {char : Char} {span : Span} {before after : List Char}
      (isBlank : Text.isBlank char = true) (skipped : Text.isSeparator char = false) :
      Lexeme (.fault ⟨.reservedBlank char, span⟩) before [char] after

theorem Lexeme.ne_nil {item : Item} {before inside after : List Char}
    (lexeme : Lexeme item before inside after) : inside ≠ [] := by
  cases lexeme with
  | name notEmpty => exact notEmpty
  | _ => exact List.cons_ne_nil _ _

theorem Cuts.start_lt_stop {chars : List Char} {item : Item} {before inside after : List Char}
    (cuts : Cuts chars item.span before inside after)
    (lexeme : Lexeme item before inside after) : item.span.start < item.span.stop := by
  have := byteLength_pos lexeme.ne_nil
  rw [cuts.start, cuts.stop, byteLength_append]
  omega

/-- No name reaches from what was read into what is left. -/
def Parted (done rest : List Char) : Prop := Apart done.reverse ∨ Apart rest

theorem apart_reverse_concat {done : List Char} {char : Char}
    (notName : isNameChar char = false) : Apart (done ++ [char]).reverse := by
  intro last isLast
  rw [List.reverse_concat, List.head?_cons] at isLast
  exact Option.some.inj isLast ▸ notName

theorem isNameChar_eq_false {char : Char} (isBlank : Text.isBlank char = true) :
    isNameChar char = false := by
  simp [isNameChar, isBlank]

/-- Behind `done`, an item stands for `inside` and leaves `rest`. -/
structure Takes (done : List Char) (item : Item) (inside rest : List Char) : Prop where
  lexeme : Lexeme item done inside rest
  span : item.span = ⟨byteLength done, byteLength (done ++ inside)⟩
  parted : Parted (done ++ inside) rest

theorem takes_single {done rest : List Char} {char : Char} {item : Item}
    (notName : isNameChar char = false) (lexeme : Lexeme item done [char] rest)
    (span : item.span = ⟨byteLength done, byteLength done + char.utf8Size⟩) :
    Takes done item [char] rest where
  lexeme := lexeme
  span := by
    rw [span, byteLength_append]
    rfl
  parted := .inl (apart_reverse_concat notName)

theorem takes_name {done rest : List Char} {first : Char} {span : Span}
    (isFirst : isNameChar first = true) (parted : Parted done (first :: rest))
    (isSpan : span
      = ⟨byteLength done, byteLength done + byteLength (first :: rest.takeWhile isNameChar)⟩) :
    Takes done (.token (.name (String.ofList (first :: rest.takeWhile isNameChar))) span)
      (first :: rest.takeWhile isNameChar) (rest.dropWhile isNameChar) := by
  have nameChars : ∀ char ∈ first :: rest.takeWhile isNameChar, isNameChar char = true :=
    List.forall_mem_cons.2 ⟨isFirst, fun char member => List.mem_takeWhile_imp member⟩
  have apartBefore : Apart done.reverse := by
    rcases parted with apart | apart
    · exact apart
    · exact absurd (apart first rfl) (Bool.not_eq_false _ ▸ isFirst)
  have apartAfter : Apart (rest.dropWhile isNameChar) := by
    intro char isHead
    have stopped := List.head?_dropWhile_not isNameChar rest
    rwa [isHead] at stopped
  exact {
    lexeme := .name (List.cons_ne_nil _ _) nameChars apartBefore apartAfter
    span := by
      rw [byteLength_append]
      exact isSpan
    parted := .inr apartAfter }

namespace Remainder

/-- The item that starts with a character takes it, and all that belongs to a name. -/
theorem takes_itemFrom {done : List Char} {first : Char} {rest : List Char}
    (skipped : Text.isSeparator first = false) (parted : Parted done (first :: rest)) :
    ∃ inside behind, first :: rest = inside ++ behind
      ∧ Takes done (itemFrom (byteLength done) first rest).1 inside behind
      ∧ (itemFrom (byteLength done) first rest).2 = ⟨byteLength (done ++ inside), behind⟩ := by
  have single : (⟨byteLength done + first.utf8Size, rest⟩ : Remainder)
      = ⟨byteLength (done ++ [first]), rest⟩ := by
    rw [byteLength_append]
    rfl
  unfold itemFrom
  by_cases isDot : first = '.'
  · subst isDot
    exact ⟨['.'], rest, rfl, takes_single (by decide) .dot rfl, single⟩
  rw [if_neg isDot]
  by_cases isPipe : first = '|'
  · subst isPipe
    exact ⟨['|'], rest, rfl, takes_single (by decide) .pipe rfl, single⟩
  rw [if_neg isPipe]
  by_cases isStar : first = '*'
  · subst isStar
    exact ⟨['*'], rest, rfl, takes_single (by decide) .star rfl, single⟩
  rw [if_neg isStar]
  by_cases isFirst : isNameChar first = true
  · rw [if_pos isFirst]
    refine ⟨first :: rest.takeWhile isNameChar, rest.dropWhile isNameChar, ?_,
      takes_name isFirst parted rfl, ?_⟩
    · rw [List.cons_append, List.takeWhile_append_dropWhile]
    · rw [byteLength_append]
  · rw [if_neg isFirst]
    have notName : isNameChar first = false := Bool.eq_false_iff.2 isFirst
    have isBlank : Text.isBlank first = true := by
      simpa [isNameChar, isDot, isPipe, isStar] using notName
    exact ⟨[first], rest, rfl, takes_single notName (.fault isBlank skipped) rfl, single⟩

/-- Reading skips separators and then takes an item. -/
theorem takes_of_nextFrom {offset : Nat} {chars : List Char} {item : Item} {behind : Remainder}
    (isNext : nextFrom offset chars = some (item, behind)) {done : List Char}
    (isOffset : offset = byteLength done) (parted : Parted done chars) :
    ∃ gap inside rest, chars = gap ++ inside ++ rest
      ∧ (∀ char ∈ gap, Text.isSeparator char = true)
      ∧ Takes (done ++ gap) item inside rest
      ∧ behind = ⟨byteLength (done ++ gap ++ inside), rest⟩ := by
  fun_induction nextFrom offset chars generalizing done with
  | case1 => cases isNext
  | case2 offset first more separates inductionHypothesis =>
      have sameOffset : offset + first.utf8Size = byteLength (done ++ [first]) := by
        rw [isOffset, byteLength_append]
        rfl
      have notName := isNameChar_eq_false (Text.isBlank_of_isSeparator separates)
      obtain ⟨gap, inside, rest, rfl, isGap, takes, isBehind⟩ :=
        inductionHypothesis isNext sameOffset (.inl (apart_reverse_concat notName))
      rw [List.append_assoc done] at takes isBehind
      exact ⟨first :: gap, inside, rest, rfl, List.forall_mem_cons.2 ⟨separates, isGap⟩, takes,
        isBehind⟩
  | case3 offset first more starts =>
      subst isOffset
      obtain ⟨inside, rest, text, takes, isBehind⟩ :=
        takes_itemFrom (Bool.eq_false_iff.2 starts) parted
      rw [Option.some.inj isNext] at takes isBehind
      refine ⟨[], inside, rest, text, List.forall_mem_nil _, ?_, ?_⟩
      · rw [List.append_nil]
        exact takes
      · rw [List.append_nil]
        exact isBehind

theorem isSeparator_of_nextFrom_eq_none {offset : Nat} {chars : List Char}
    (isEnd : nextFrom offset chars = none) : ∀ char ∈ chars, Text.isSeparator char = true := by
  fun_induction nextFrom offset chars with
  | case1 => exact List.forall_mem_nil _
  | case2 offset first rest separates inductionHypothesis =>
      exact List.forall_mem_cons.2 ⟨separates, inductionHypothesis isEnd⟩
  | case3 => cases isEnd

end Remainder

/-! ## Tilings -/

/-- Behind `done`, items and separators between them make up the rest of a text. -/
inductive Tiles : List Char → List Char → List Item → Prop
  | stop {done rest : List Char} (isGap : ∀ char ∈ rest, Text.isSeparator char = true) :
      Tiles done rest []
  | item {done gap inside rest : List Char} {item : Item} {items : List Item}
      (isGap : ∀ char ∈ gap, Text.isSeparator char = true)
      (takes : Takes (done ++ gap) item inside rest)
      (more : Tiles (done ++ gap ++ inside) rest items) :
      Tiles done (gap ++ inside ++ rest) (item :: items)

namespace Remainder

theorem items_of_next {remainder behind : Remainder} {item : Item}
    (isNext : remainder.next = some (item, behind)) : remainder.items = item :: behind.items := by
  rw [items]
  split
  · rename_i isEnd
    rw [isEnd] at isNext
    cases isNext
  · rename_i found
    rw [found] at isNext
    cases isNext
    rfl

theorem items_of_end {remainder : Remainder} (isEnd : remainder.next = none) :
    remainder.items = [] := by
  rw [items]
  split
  · rfl
  · rename_i found
    rw [found] at isEnd
    cases isEnd

/-- The items of what is left of a text, up to a number of them. -/
def itemsWithin : Nat → Remainder → List Item
  | 0, _ => []
  | bound + 1, remainder =>
      match remainder.next with
      | none => []
      | some (item, behind) => item :: itemsWithin bound behind

/-- There are no more items than characters. -/
theorem itemsWithin_eq_items {bound : Nat} {remainder : Remainder}
    (enough : remainder.chars.length ≤ bound) : itemsWithin bound remainder = remainder.items := by
  induction bound generalizing remainder with
  | zero =>
      have isEnd : remainder.next = none := by
        unfold next
        rw [List.length_eq_zero_iff.1 (Nat.le_zero.1 enough)]
        rfl
      rw [items_of_end isEnd]
      rfl
  | succ bound inductionHypothesis =>
      unfold itemsWithin
      cases isNext : remainder.next with
      | none => exact (items_of_end isNext).symm
      | some found =>
          obtain ⟨item, behind⟩ := found
          have shorter : behind.chars.length < remainder.chars.length := next_length isNext
          rw [items_of_next isNext]
          exact congrArg (item :: ·) (inductionHypothesis (by omega))

/-- The items of what is left of a text tile it. -/
theorem tiles_items {remainder : Remainder} {done : List Char}
    (isOffset : remainder.offset = byteLength done) (parted : Parted done remainder.chars) :
    Tiles done remainder.chars remainder.items := by
  fun_induction items remainder generalizing done with
  | case1 remainder isEnd => exact .stop (isSeparator_of_nextFrom_eq_none isEnd)
  | case2 remainder item behind isNext inductionHypothesis =>
      obtain ⟨gap, inside, rest, text, isGap, takes, rfl⟩ :=
        takes_of_nextFrom isNext isOffset parted
      rw [text]
      exact .item isGap takes (inductionHypothesis rfl takes.parted)

end Remainder

/-- The items of a text can be computed: the bound decreases where the text gets shorter. -/
theorem itemsOf_eq_itemsWithin (source : String) :
    itemsOf source = (Remainder.ofText source).itemsWithin source.toList.length :=
  (Remainder.itemsWithin_eq_items (Nat.le_refl _)).symm

namespace Tiles

variable {done rest : List Char} {items : List Item}

theorem exists_cuts (tiles : Tiles done rest items) {item : Item} (member : item ∈ items) :
    ∃ before inside after, Cuts (done ++ rest) item.span before inside after
      ∧ Lexeme item before inside after := by
  induction tiles with
  | stop => cases member
  | @item done gap inside rest first items isGap takes more inductionHypothesis =>
      have regrouped : done ++ (gap ++ inside ++ rest) = done ++ gap ++ inside ++ rest := by
        simp only [List.append_assoc]
      rw [regrouped]
      rcases List.mem_cons.1 member with rfl | later
      · exact ⟨done ++ gap, inside, rest, ⟨rfl, by rw [takes.span], by rw [takes.span]⟩,
          takes.lexeme⟩
      · exact inductionHypothesis later

/-- Items stand behind what was read before them. -/
theorem le_start (tiles : Tiles done rest items) {item : Item} (member : item ∈ items) :
    byteLength done ≤ item.span.start := by
  induction tiles with
  | stop => cases member
  | item isGap takes more inductionHypothesis =>
      rcases List.mem_cons.1 member with rfl | later
      · simp only [takes.span, byteLength_append]
        omega
      · have := inductionHypothesis later
        simp only [byteLength_append] at this
        omega

theorem pairwise (tiles : Tiles done rest items) :
    items.Pairwise fun first second => first.span.stop ≤ second.span.start := by
  induction tiles with
  | stop => exact .nil
  | item isGap takes more inductionHypothesis =>
      refine List.pairwise_cons.2 ⟨?_, inductionHypothesis⟩
      intro second later
      rw [takes.span]
      exact more.le_start later

/-- A character of one of two parts of a text stands in the first or in the second. -/
theorem split_append {left right before after : List Char} {char : Char}
    (text : left ++ right = before ++ char :: after) :
    (∃ more, left = before ++ char :: more)
      ∨ ∃ more, before = left ++ more ∧ right = more ++ char :: after := by
  rcases List.append_eq_append_iff.1 text with inRight | inLeft
  · exact .inr inRight
  · obtain ⟨behind, isLeft, isAfter⟩ := inLeft
    cases behind with
    | nil => exact .inr ⟨[], by simpa using isLeft.symm, isAfter.symm⟩
    | cons next more =>
        obtain ⟨rfl, -⟩ := List.cons.inj isAfter
        exact .inl ⟨more, isLeft⟩

/-- What no item stands for only separates. -/
theorem isSeparator_of_outside (tiles : Tiles done rest items) {before after : List Char}
    {char : Char} (text : rest = before ++ char :: after)
    (outside : ∀ item ∈ items, ¬ item.span.Contains (byteLength (done ++ before))) :
    Text.isSeparator char = true := by
  induction tiles generalizing before with
  | stop isGap => exact isGap char (text ▸ List.mem_append_right before List.mem_cons_self)
  | @item done gap inside rest item items isGap takes more inductionHypothesis =>
      obtain ⟨outsideFirst, outsideMore⟩ := List.forall_mem_cons.1 outside
      rw [List.append_assoc] at text
      rcases split_append text with ⟨_, rfl⟩ | ⟨behindGap, rfl, onward⟩
      · exact isGap char (List.mem_append_right before List.mem_cons_self)
      rcases split_append onward with ⟨_, rfl⟩ | ⟨behindItem, rfl, isRest⟩
      · -- The character would stand inside the item.
        have := char.utf8Size_pos
        refine absurd ?_ outsideFirst
        unfold Span.Contains
        simp only [takes.span, byteLength_append, byteLength_cons]
        omega
      · refine inductionHypothesis isRest ?_
        intro item later
        simpa only [List.append_assoc] using outsideMore item later

end Tiles

theorem apart_nil : Apart [] := by
  intro char isHead
  cases isHead

theorem tiles_itemsOf (source : String) : Tiles [] source.toList (itemsOf source) := by
  have parted : Parted [] (Remainder.ofText source).chars := .inl apart_nil
  exact Remainder.tiles_items rfl parted

theorem exists_cuts_of_mem_itemsOf {source : String} {item : Item}
    (member : item ∈ itemsOf source) :
    ∃ before inside after, Cuts source.toList item.span before inside after
      ∧ Lexeme item before inside after :=
  (tiles_itemsOf source).exists_cuts member

/-! ## Item after item -/

/-- Taking item after item from a cursor gives these, and then the end of the text. -/
inductive Cursor.Yields : Cursor → List Item → Prop
  | stop {cursor : Cursor} (isEnd : cursor.next.1 = none) : Yields cursor []
  | item {cursor : Cursor} {item : Item} {items : List Item}
      (isNext : cursor.next.1 = some item) (more : Yields cursor.next.2 items) :
      Yields cursor (item :: items)

theorem Cursor.yields_items (remainder : Remainder) :
    (Cursor.mk remainder none).Yields remainder.items := by
  fun_induction Remainder.items remainder with
  | case1 remainder isEnd =>
      have isLast : (Cursor.mk remainder none).next.1 = none := by
        simp only [Cursor.next, Cursor.advance, isEnd]
      exact .stop isLast
  | case2 remainder item behind isNext inductionHypothesis =>
      have step : (Cursor.mk remainder none).next = (some item, ⟨behind, none⟩) := by
        simp only [Cursor.next, Cursor.advance, isNext]
      refine .item (congrArg Prod.fst step) ?_
      rw [step]
      exact inductionHypothesis

/-- Items partition a text: each stands for some of its characters, later items for later
characters, and a character that no item stands for only separates. -/
structure Partitions (source : String) (items : List Item) : Prop where
  lexeme : ∀ item ∈ items, ∃ before inside after,
    Cuts source.toList item.span before inside after ∧ Lexeme item before inside after
  isValid : ∀ item ∈ items, String.Pos.Raw.IsValid source ⟨item.span.start⟩
    ∧ String.Pos.Raw.IsValid source ⟨item.span.stop⟩
  notEmpty : ∀ item ∈ items, item.span.start < item.span.stop
  increasing : items.Pairwise fun first second =>
    first.span.start < second.span.start ∧ first.span.stop ≤ second.span.start
  separated : ∀ before char after, source.toList = before ++ char :: after →
    (∀ item ∈ items, ¬ item.span.Contains (byteLength before)) → Text.isSeparator char = true

/-- **The items of a source partition it.** Taking item after item from a source comes to its end,
and the items stand for characters of their own, in order: a reserved character for itself, a name
for a longest run of name characters, and a fault for a blank that does not separate. All other
characters are separators. -/
theorem itemsOf_partition (source : String) :
    (Cursor.ofText source).Yields (itemsOf source) ∧ Partitions source (itemsOf source) := by
  have notEmpty : ∀ item ∈ itemsOf source, item.span.start < item.span.stop := by
    intro item member
    obtain ⟨_, _, _, cuts, lexeme⟩ := exists_cuts_of_mem_itemsOf member
    exact cuts.start_lt_stop lexeme
  refine ⟨Cursor.yields_items (Remainder.ofText source), ?_⟩
  exact {
    lexeme := fun item member => exists_cuts_of_mem_itemsOf member
    isValid := by
      intro item member
      obtain ⟨_, _, _, cuts, _⟩ := exists_cuts_of_mem_itemsOf member
      exact ⟨cuts.isValid_start, cuts.isValid_stop⟩
    notEmpty := notEmpty
    increasing := by
      refine (tiles_itemsOf source).pairwise.imp_of_mem ?_
      intro first second isFirst _ apart
      have := notEmpty first isFirst
      exact ⟨by omega, apart⟩
    separated := fun before char after text outside =>
      (tiles_itemsOf source).isSeparator_of_outside text outside }

end EagerLoad.Path
