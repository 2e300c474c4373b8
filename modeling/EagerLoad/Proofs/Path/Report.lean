import EagerLoad.Proofs.Path.Rejection

/-!
Contract: what the report of a rejected source marks.

Owns: the lines of a report, the column of a fault, and the marks below the source.

Does not own: where a fault is found (`Rejection.lean`).

A span counts bytes, and a reader counts characters. The column and the spaces before the marks
are counted in characters, so the marks start below the right one. The marks themselves are one for
each byte, so they end below the right one only where characters and bytes are the same.
-/

set_option autoImplicit false

namespace EagerLoad.Path

/-! ## Characters and bytes -/

theorem charsBefore_of_le {offset position : Nat} (passed : offset ≤ position)
    (chars : List Char) : charsBefore offset position chars = 0 := by
  induction chars generalizing position with
  | nil => rfl
  | cons char rest inductionHypothesis =>
      rw [charsBefore, if_neg (by omega), inductionHypothesis (by omega)]

theorem charsBefore_append (position : Nat) (before rest : List Char) :
    charsBefore (position + byteLength before) position (before ++ rest) = before.length := by
  induction before generalizing position with
  | nil => exact charsBefore_of_le (Nat.le_refl _) rest
  | cons char more inductionHypothesis =>
      have := char.utf8Size_pos
      have onward := inductionHypothesis (position + char.utf8Size)
      rw [Nat.add_assoc] at onward
      rw [List.cons_append, charsBefore, byteLength_cons, if_pos (by omega), onward,
        List.length_cons]
      omega

/-- The column of a span is one more than the number of characters before it. -/
theorem Cuts.columnOf_start {source : String} {span : Span} {before inside after : List Char}
    (cuts : Cuts source.toList span before inside after) :
    columnOf source span.start = before.length + 1 := by
  have counted := charsBefore_append 0 before (inside ++ after)
  rw [Nat.zero_add] at counted
  rw [columnOf, cuts.text, cuts.start, List.append_assoc, counted]

theorem Cuts.length_span {chars : List Char} {span : Span} {before inside after : List Char}
    (cuts : Cuts chars span before inside after) : span.length = byteLength inside := by
  rw [Span.length, cuts.start, cuts.stop, byteLength_append]
  omega

theorem length_le_byteLength (chars : List Char) : chars.length ≤ byteLength chars := by
  induction chars with
  | nil => exact Nat.le_refl _
  | cons char rest inductionHypothesis =>
      have := char.utf8Size_pos
      rw [List.length_cons, byteLength_cons]
      omega

/-- There are as many bytes as characters if and only if each character is one byte. -/
theorem byteLength_eq_length_iff {chars : List Char} :
    byteLength chars = chars.length ↔ ∀ char ∈ chars, char.utf8Size = 1 := by
  induction chars with
  | nil => simp
  | cons char rest inductionHypothesis =>
      have := char.utf8Size_pos
      have := length_le_byteLength rest
      rw [List.forall_mem_cons, ← inductionHypothesis, byteLength_cons, List.length_cons]
      omega

/-! ## The lines of a report -/

def linesOf (text : String) : List (List Char) := text.toList.splitOn '\n'

theorem linesOf_append_line {line : String} (single : '\n' ∉ line.toList) (rest : String) :
    linesOf (line ++ "\n" ++ rest) = line.toList :: linesOf rest := by
  have asLines : (line ++ "\n" ++ rest).toList = line.toList ++ '\n' :: rest.toList := by
    simp
  rw [linesOf, asLines, List.splitOn_append_cons_self_of_not_mem single]
  rfl

theorem not_mem_toList_append {char : Char} {first second : String}
    (absentFirst : char ∉ first.toList) (absentSecond : char ∉ second.toList) :
    char ∉ (first ++ second).toList := by
  rw [String.toList_append, List.mem_append, not_or]
  exact ⟨absentFirst, absentSecond⟩

theorem not_mem_repr (number : Nat) : '\n' ∉ (Nat.repr number).toList := by
  rw [Nat.repr_eq_ofList_toDigits, String.toList_ofList]
  intro member
  have isDigit := Nat.isDigit_of_mem_toDigits (by decide) (by decide) member
  revert isDigit
  decide

/-- The description of a token is on one line. -/
theorem Lexeme.not_mem_describe {token : Token} {span : Span} {before inside after : List Char}
    (lexeme : Lexeme (.token token span) before inside after) :
    '\n' ∉ token.describe.toList := by
  cases lexeme with
  | dot => decide
  | pipe => decide
  | star => decide
  | name notEmpty nameChars =>
      have absent : '\n' ∉ (String.ofList inside).toList := by
        rw [String.toList_ofList]
        intro member
        have isName := nameChars _ member
        revert isName
        decide
      have quote : '\n' ∉ "'".toList := by decide
      exact not_mem_toList_append (not_mem_toList_append quote absent) quote

/-- The message about an item is on one line. -/
theorem Lexeme.not_mem_message {item : Item} {before inside after : List Char}
    (lexeme : Lexeme item before inside after) (phase : Phase) :
    '\n' ∉ (phase.refuse item).fault.message.toList := by
  cases item with
  | token token span =>
      have described := lexeme.not_mem_describe
      cases phase with
      | atom => exact not_mem_toList_append (by decide) described
      | continuation => exact not_mem_toList_append (by decide) described
  | fault located =>
      cases lexeme with
      | @fault char _ _ _ _ skipped =>
          have absent : '\n' ∉ (String.singleton char).toList := by
            rw [String.toList_singleton, List.mem_singleton]
            rintro rfl
            revert skipped
            decide
          have isMessage : '\n'
              ∉ ("unexpected character '" ++ String.singleton char ++ "'").toList :=
            not_mem_toList_append (not_mem_toList_append (by decide) absent) (by decide)
          cases phase <;> exact isMessage

theorem not_mem_message {source : String} {located : LocatedFault}
    (rejected : parse source = .error located) : '\n' ∉ located.fault.message.toList := by
  rcases located_cases rejected with rfl | ⟨item, member, phase, rfl⟩ | rfl
  · decide
  · obtain ⟨_, _, _, _, lexeme⟩ := exists_cuts_of_mem_itemsOf member
    exact lexeme.not_mem_message phase
  · show '\n' ∉ Fault.missingName.message.toList
    decide

/-- The lines of a report: the message, the column, the source, the marks below it, and the hint if
there is one. -/
theorem Diagnostic.linesOf_report (diagnostic : Diagnostic) {source : String}
    (messageSingle : '\n' ∉ diagnostic.message.toList) (sourceSingle : '\n' ∉ source.toList) :
    ∃ hintLines, linesOf (diagnostic.report source)
      = ("error: " ++ diagnostic.message).toList
        :: ("  --> column " ++ Nat.repr (columnOf source diagnostic.span.start)).toList
        :: "   |".toList
        :: ("   | " ++ source).toList
        :: ("   | " ++ diagnostic.markerLine source).toList
        :: hintLines := by
  have markerSingle : '\n' ∉ (diagnostic.markerLine source).toList := by
    simp [markerLine, marks]
  have columnSingle := not_mem_repr (columnOf source diagnostic.span.start)
  have gutter : '\n' ∉ "   | ".toList := by decide
  have asLines : diagnostic.report source
      = "error: " ++ diagnostic.message ++ "\n"
        ++ ("  --> column " ++ Nat.repr (columnOf source diagnostic.span.start) ++ "\n"
        ++ ("   |" ++ "\n"
        ++ ("   | " ++ source ++ "\n"
        ++ ("   | " ++ diagnostic.markerLine source ++ "\n"
        ++ diagnostic.hint.elim "" fun hint => "   = hint: " ++ hint ++ "\n")))) := by
    have gutterLine : "   |\n" = "   |" ++ "\n" := rfl
    unfold report
    rw [gutterLine]
    cases diagnostic.hint with
    | none => simp only [String.append_assoc, Option.elim_none]
    | some hint => simp only [String.append_assoc, Option.elim_some]
  rw [asLines, linesOf_append_line (not_mem_toList_append (by decide) messageSingle),
    linesOf_append_line (not_mem_toList_append (by decide) columnSingle),
    linesOf_append_line (by decide),
    linesOf_append_line (not_mem_toList_append gutter sourceSingle),
    linesOf_append_line (not_mem_toList_append gutter markerSingle)]
  exact ⟨_, rfl⟩

/-! ## The marks below the source -/

/-- A line of marks: spaces, a caret, and a tilde for every mark after the first. -/
def marksBelow (spaces marks : Nat) : List Char :=
  List.replicate spaces ' ' ++ '^' :: List.replicate (marks - 1) '~'

theorem marksBelow_inj {spaces marks others : Nat} :
    marksBelow spaces marks = marksBelow spaces others ↔ marks - 1 = others - 1 := by
  simp [marksBelow, List.replicate_inj]

/-- A line has a mark for every byte of a span, and starts below its first character. -/
theorem Cuts.toList_markerLine {source : String} {diagnostic : Diagnostic}
    {before inside after : List Char}
    (cuts : Cuts source.toList diagnostic.span before inside after) :
    (diagnostic.markerLine source).toList = marksBelow before.length (byteLength inside) := by
  rw [Diagnostic.markerLine, String.toList_ofList, Diagnostic.marks, cuts.columnOf_start,
    cuts.length_span, Nat.add_sub_cancel]
  rfl

/-- As many marks as bytes are as many as characters if and only if each character is one byte. -/
theorem marks_eq_iff {chars : List Char} :
    byteLength chars - 1 = chars.length - 1 ↔ ∀ char ∈ chars, char.utf8Size = 1 := by
  rw [← byteLength_eq_length_iff]
  have := length_le_byteLength chars
  cases chars with
  | nil => simp
  | cons char rest =>
      rw [List.length_cons] at this ⊢
      omega

/-- The report of a fault gives the column of its first character and the source, and marks the
fault below it: from under its first character on, with as many marks as `count` says of its
characters, but at least one. -/
def ReportMarks (count : List Char → Nat) (source : String) (located : LocatedFault) : Prop :=
  ∃ before inside after, Cuts source.toList located.span before inside after
    ∧ (linesOf (located.diagnostic.report source))[1]?
      = some ("  --> column " ++ Nat.repr (before.length + 1)).toList
    ∧ (linesOf (located.diagnostic.report source))[3]? = some ("   | " ++ source).toList
    ∧ (linesOf (located.diagnostic.report source))[4]?
      = some ("   | ".toList ++ marksBelow before.length (count inside))

/-- Wherever the span of a fault cuts a source of one line, its report marks bytes. -/
theorem Cuts.report_lines {source : String} {located : LocatedFault}
    {before inside after : List Char} (single : '\n' ∉ source.toList)
    (rejected : parse source = .error located)
    (cuts : Cuts source.toList located.span before inside after) :
    (linesOf (located.diagnostic.report source))[1]?
        = some ("  --> column " ++ Nat.repr (before.length + 1)).toList
      ∧ (linesOf (located.diagnostic.report source))[3]? = some ("   | " ++ source).toList
      ∧ (linesOf (located.diagnostic.report source))[4]?
        = some ("   | ".toList ++ marksBelow before.length (byteLength inside)) := by
  obtain ⟨hintLines, isReport⟩ :=
    located.diagnostic.linesOf_report (not_mem_message rejected) single
  have isColumn : columnOf source located.diagnostic.span.start = before.length + 1 :=
    cuts.columnOf_start
  have isMarker : ("   | " ++ located.diagnostic.markerLine source).toList
      = "   | ".toList ++ marksBelow before.length (byteLength inside) := by
    rw [String.toList_append, Cuts.toList_markerLine cuts]
  rw [isColumn, isMarker] at isReport
  rw [isReport]
  exact ⟨rfl, rfl, rfl⟩

/-- **A report marks bytes.** The report of a rejected source of one line marks its fault, from
under the first character on, with one mark for each byte. So it has one for each character if and
only if each character of the fault is one byte. -/
theorem report_marks_bytes {source : String} {located : LocatedFault}
    (single : '\n' ∉ source.toList) (rejected : parse source = .error located) :
    ReportMarks byteLength source located
      ∧ (ReportMarks List.length source located
        ↔ ∃ before inside after, Cuts source.toList located.span before inside after
          ∧ ∀ char ∈ inside, char.utf8Size = 1) := by
  refine ⟨?_, ?_, ?_⟩
  · obtain ⟨before, inside, after, cuts⟩ := exists_cuts_of_rejected rejected
    exact ⟨before, inside, after, cuts, cuts.report_lines single rejected⟩
  · rintro ⟨before, inside, after, cuts, -, -, isLength⟩
    obtain ⟨-, -, isByteLength⟩ := cuts.report_lines single rejected
    rw [isByteLength, Option.some_inj, List.append_cancel_left_eq, marksBelow_inj,
      marks_eq_iff] at isLength
    exact ⟨before, inside, after, cuts, isLength⟩
  · rintro ⟨before, inside, after, cuts, singleBytes⟩
    obtain ⟨isColumn, isSource, isByteLength⟩ := cuts.report_lines single rejected
    rw [marksBelow_inj.2 (marks_eq_iff.2 singleBytes)] at isByteLength
    exact ⟨before, inside, after, cuts, isColumn, isSource, isByteLength⟩

/-- The fault of the second name of `a é`, which is one character of two bytes. -/
def secondName : LocatedFault := ⟨.expectedContinuation (.name "é"), ⟨2, 4⟩⟩

theorem parse_eq_secondName : parse "a é" = .error secondName := by
  rw [parse, segmentsOf, itemsOf_eq_itemsWithin]
  rfl

theorem report_marks_bytes_secondName :
    '\n' ∉ "a é".toList
      ∧ parse "a é" = .error secondName
      ∧ ReportMarks byteLength "a é" secondName
      ∧ (ReportMarks List.length "a é" secondName
        ↔ ∃ before inside after, Cuts "a é".toList secondName.span before inside after
          ∧ ∀ char ∈ inside, char.utf8Size = 1) := by
  have single : '\n' ∉ "a é".toList := by decide
  exact ⟨single, parse_eq_secondName, report_marks_bytes single parse_eq_secondName⟩

/-- A name of one character of two bytes is marked twice. -/
theorem secondName_not_marked_by_characters :
    '\n' ∉ "a é".toList
      ∧ parse "a é" = .error secondName
      ∧ ¬ ReportMarks List.length "a é" secondName := by
  have single : '\n' ∉ "a é".toList := by decide
  refine ⟨single, parse_eq_secondName, ?_⟩
  rintro ⟨before, inside, after, cuts, -, -, isLength⟩
  obtain ⟨-, -, isByteLength⟩ := cuts.report_lines single parse_eq_secondName
  rw [isByteLength, Option.some_inj, List.append_cancel_left_eq, marksBelow_inj] at isLength
  have isCut : Cuts "a é".toList secondName.span ['a', ' '] ['é'] [] := ⟨rfl, rfl, rfl⟩
  obtain ⟨-, rfl, -⟩ := cuts.unique isCut
  revert isLength
  decide

end EagerLoad.Path
