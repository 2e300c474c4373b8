import EagerLoad.Proofs.Path.Denotation
import EagerLoad.Proofs.Path.Partition

/-!
Contract: the text of a path is an expression of that path alone.

Owns: the names that a text can hold, that the tokens of a source have such names, the tokens of
the text of a path, and the agreement of a source with the list of the texts of its paths.

Does not own: the paths of a source in general (`Denotation.lean`).

A name that was read is a longest run of name characters. In the text of a path it stands between
separators or ends of the text, where no name character can extend it, so reading takes the same
run again.
-/

set_option autoImplicit false

namespace EagerLoad.Path

/-! ## Names -/

/-- A text that is read as one name wherever no name character stands next to it. -/
structure IsName (text : String) : Prop where
  notEmpty : text.toList ≠ []
  nameChars : ∀ char ∈ text.toList, isNameChar char = true

def Segment.Writable : Segment → Prop
  | .relation name => IsName name
  | .wildcard => True

/-- A path whose text can be read: it has a segment, and its names are names. -/
structure RelationPath.Writable (path : RelationPath) : Prop where
  notEmpty : path.segments ≠ []
  segments : ∀ segment ∈ path.segments, segment.Writable

/-- The names among the items of a text are names. -/
theorem isName_of_mem_itemsOf {source text : String} {span : Span}
    (member : .token (.name text) span ∈ itemsOf source) : IsName text := by
  obtain ⟨_, _, _, _, lexeme⟩ := exists_cuts_of_mem_itemsOf member
  cases lexeme with
  | name notEmpty nameChars =>
      constructor
      · rw [String.toList_ofList]
        exact notEmpty
      · rw [String.toList_ofList]
        exact nameChars

/-! ## Segments that were read -/

theorem AreTokens.exists_mem {items : List Item} {tokens : List Token}
    (areTokens : AreTokens items tokens) {token : Token} (member : token ∈ tokens) :
    ∃ span, Item.token token span ∈ items := by
  induction areTokens with
  | nil => cases member
  | cons span _ inductionHypothesis =>
      rcases List.mem_cons.1 member with rfl | later
      · exact ⟨span, List.mem_cons_self⟩
      · obtain ⟨otherSpan, found⟩ := inductionHypothesis later
        exact ⟨otherSpan, List.mem_cons_of_mem _ found⟩

theorem IsSegment.exists_isAtom {tokens : List Token} {alternatives : List Segment}
    (isSegment : IsSegment tokens alternatives) {segment : Segment}
    (member : segment ∈ alternatives) : ∃ token ∈ tokens, IsAtom token segment := by
  induction isSegment with
  | atom isAtom =>
      rw [List.mem_singleton.1 member]
      exact ⟨_, List.mem_singleton_self _, isAtom⟩
  | pipe isAtom _ inductionHypothesis =>
      rcases List.mem_cons.1 member with rfl | later
      · exact ⟨_, List.mem_cons_self, isAtom⟩
      · obtain ⟨token, found, tokenIsAtom⟩ := inductionHypothesis later
        exact ⟨token, List.mem_cons_of_mem _ (List.mem_cons_of_mem _ found), tokenIsAtom⟩

theorem IsExpression.exists_isAtom {tokens : List Token} {segments : List (List Segment)}
    (isExpression : IsExpression tokens segments) {alternatives : List Segment}
    (isMember : alternatives ∈ segments) {segment : Segment} (member : segment ∈ alternatives) :
    ∃ token ∈ tokens, IsAtom token segment := by
  induction isExpression with
  | segment isSegment =>
      rw [List.mem_singleton.1 isMember] at member
      exact isSegment.exists_isAtom member
  | dot isSegment _ inductionHypothesis =>
      rcases List.mem_cons.1 isMember with rfl | later
      · obtain ⟨token, found, isAtom⟩ := isSegment.exists_isAtom member
        exact ⟨token, List.mem_append_left _ found, isAtom⟩
      · obtain ⟨token, found, isAtom⟩ := inductionHypothesis later
        exact ⟨token, List.mem_append_right _ (List.mem_cons_of_mem _ found), isAtom⟩

theorem Spells.writable {source : String} {segments : List (List Segment)}
    (spells : Spells source segments) {alternatives : List Segment}
    (isMember : alternatives ∈ segments) {segment : Segment} (member : segment ∈ alternatives) :
    segment.Writable := by
  obtain ⟨tokens, areTokens, isExpression⟩ := spells
  obtain ⟨token, found, isAtom⟩ := isExpression.exists_isAtom isMember member
  cases isAtom with
  | star => trivial
  | name text =>
      obtain ⟨span, isItem⟩ := areTokens.exists_mem found
      exact isName_of_mem_itemsOf isItem

theorem Spells.ne_nil {source : String} {segments : List (List Segment)}
    (spells : Spells source segments) : segments ≠ [] := by
  obtain ⟨tokens, _, isExpression⟩ := spells
  cases isExpression with
  | segment => exact List.cons_ne_nil _ _
  | dot => exact List.cons_ne_nil _ _

theorem IsChoice.exists_mem {choice : List Segment} {segments : List (List Segment)}
    (isChoice : IsChoice choice segments) {segment : Segment} (member : segment ∈ choice) :
    ∃ alternatives ∈ segments, segment ∈ alternatives := by
  induction isChoice with
  | nil => cases member
  | cons isAlternative _ inductionHypothesis =>
      rcases List.mem_cons.1 member with rfl | later
      · exact ⟨_, List.mem_cons_self, isAlternative⟩
      · obtain ⟨alternatives, found, isLater⟩ := inductionHypothesis later
        exact ⟨alternatives, List.mem_cons_of_mem _ found, isLater⟩

/-- The paths of a source can be written. -/
theorem writable_of_parse {source : String} {paths : List RelationPath}
    (parsed : parse source = .ok paths) {path : RelationPath} (listed : path ∈ paths) :
    path.Writable := by
  obtain ⟨segments, spells, lists⟩ := exists_spells_of_parse parsed
  have isChoice := (lists.complete path).1 listed
  constructor
  · intro isEmpty
    have sameLength := isChoice.length_eq
    rw [isEmpty] at sameLength
    exact spells.ne_nil (List.eq_nil_of_length_eq_zero sameLength.symm)
  · intro segment member
    obtain ⟨alternatives, isMember, isAlternative⟩ := isChoice.exists_mem member
    exact spells.writable isMember isAlternative

/-! ## The tokens of the text of a path -/

def Segment.token : Segment → Token
  | .relation name => .name name
  | .wildcard => .star

theorem Segment.isAtom_token (segment : Segment) : IsAtom segment.token segment := by
  cases segment with
  | relation name => exact .name name
  | wildcard => exact .star

theorem takeWhile_isNameChar_append {run rest : List Char}
    (inside : ∀ char ∈ run, isNameChar char = true) (apart : Apart rest) :
    (run ++ rest).takeWhile isNameChar = run := by
  rw [List.takeWhile_append_of_pos inside]
  cases rest with
  | nil => exact List.append_nil run
  | cons char more =>
      rw [List.takeWhile_cons_of_neg (Bool.eq_false_iff.1 (apart char rfl)), List.append_nil]

theorem dropWhile_isNameChar_append {run rest : List Char}
    (inside : ∀ char ∈ run, isNameChar char = true) (apart : Apart rest) :
    (run ++ rest).dropWhile isNameChar = rest := by
  rw [List.dropWhile_append_of_pos inside]
  cases rest with
  | nil => rfl
  | cons char more => exact List.dropWhile_cons_of_neg (Bool.eq_false_iff.1 (apart char rfl))

theorem isSeparator_eq_false {char : Char} (isName : isNameChar char = true) :
    Text.isSeparator char = false := by
  cases separates : Text.isSeparator char with
  | false => rfl
  | true =>
      unfold isNameChar at isName
      rw [Text.isBlank_of_isSeparator separates] at isName
      simp at isName

namespace Remainder

theorem next_name {name : String} (isName : IsName name) {rest : List Char} (apart : Apart rest)
    (offset : Nat) :
    ∃ span stop, (Remainder.mk offset (name.toList ++ rest)).next
      = some (.token (.name name) span, ⟨stop, rest⟩) := by
  cases chars : name.toList with
  | nil => exact absurd chars isName.notEmpty
  | cons first run =>
      have inside := isName.nameChars
      rw [chars] at inside
      obtain ⟨isFirst, isRun⟩ := List.forall_mem_cons.1 inside
      have isText : String.ofList (first :: run) = name := by rw [← chars, String.ofList_toList]
      have notReserved := isFirst
      simp only [isNameChar, Bool.and_eq_true, bne_iff_ne] at notReserved
      obtain ⟨⟨⟨notDot, notPipe⟩, notStar⟩, _⟩ := notReserved
      show ∃ span stop, nextFrom offset (first :: (run ++ rest)) = _
      rw [nextFrom, isSeparator_eq_false isFirst]
      unfold itemFrom
      rw [if_neg notDot, if_neg notPipe, if_neg notStar, if_pos isFirst,
        takeWhile_isNameChar_append isRun apart, dropWhile_isNameChar_append isRun apart, ← isText]
      exact ⟨_, _, rfl⟩

theorem next_star (rest : List Char) (offset : Nat) :
    ∃ span stop, (Remainder.mk offset ('*' :: rest)).next
      = some (.token .star span, ⟨stop, rest⟩) := ⟨_, _, rfl⟩

theorem next_dot (rest : List Char) (offset : Nat) :
    ∃ span stop, (Remainder.mk offset ('.' :: rest)).next
      = some (.token .dot span, ⟨stop, rest⟩) := ⟨_, _, rfl⟩

/-- The text of a segment is read as its token. -/
theorem next_segment {segment : Segment} (writable : segment.Writable) {rest : List Char}
    (apart : Apart rest) (offset : Nat) :
    ∃ span stop, (Remainder.mk offset (segment.text.toList ++ rest)).next
      = some (.token segment.token span, ⟨stop, rest⟩) := by
  cases segment with
  | relation name => exact next_name writable apart offset
  | wildcard => exact next_star rest offset

end Remainder

/-- The characters of the text of some segments. -/
def written (segments : List Segment) : List Char :=
  ['.'].intercalate (segments.map fun segment => segment.text.toList)

theorem toList_text (path : RelationPath) : path.text.toList = written path.segments := by
  unfold RelationPath.text written
  rw [String.toList_intercalate, List.map_map]
  rfl

theorem written_cons_cons (first second : Segment) (rest : List Segment) :
    written (first :: second :: rest) = first.text.toList ++ '.' :: written (second :: rest) := by
  unfold written
  rw [List.map_cons, List.map_cons, List.intercalate_cons_cons, List.append_assoc]
  rfl

/-- Written segments are read as an expression with one alternative in every segment. -/
theorem exists_isExpression_of_written (first : Segment) (rest : List Segment)
    (writable : ∀ segment ∈ first :: rest, segment.Writable) (offset : Nat) :
    ∃ tokens, AreTokens (Remainder.mk offset (written (first :: rest))).items tokens
      ∧ IsExpression tokens ((first :: rest).map fun segment => [segment]) := by
  obtain ⟨firstWritable, restWritable⟩ := List.forall_mem_cons.1 writable
  induction rest generalizing first offset with
  | nil =>
      have isLast : written [first] = first.text.toList ++ [] := by
        rw [List.append_nil]
        exact List.intercalate_singleton
      obtain ⟨span, stop, isNext⟩ := Remainder.next_segment firstWritable apart_nil offset
      rw [isLast, Remainder.items_of_next isNext, Remainder.items_of_end rfl]
      exact ⟨[first.token], .cons span .nil, .segment (.atom first.isAtom_token)⟩
  | cons second more inductionHypothesis =>
      obtain ⟨secondWritable, moreWritable⟩ := List.forall_mem_cons.1 restWritable
      have apart : Apart ('.' :: written (second :: more)) := by
        intro char isHead
        cases isHead
        rfl
      obtain ⟨span, stop, isNext⟩ := Remainder.next_segment firstWritable apart offset
      obtain ⟨dotSpan, dotStop, dotIsNext⟩ := Remainder.next_dot (written (second :: more)) stop
      obtain ⟨tokens, areTokens, isExpression⟩ :=
        inductionHypothesis second restWritable dotStop secondWritable moreWritable
      rw [written_cons_cons, Remainder.items_of_next isNext, Remainder.items_of_next dotIsNext]
      exact ⟨first.token :: .dot :: tokens, .cons span (.cons dotSpan areTokens),
        .dot (.atom first.isAtom_token) isExpression⟩

theorem RelationPath.Writable.spells_text {path : RelationPath} (writable : path.Writable) :
    Spells path.text (path.segments.map fun segment => [segment]) := by
  obtain ⟨notEmpty, segmentsWritable⟩ := writable
  cases isSegments : path.segments with
  | nil => exact absurd isSegments notEmpty
  | cons first rest =>
      rw [isSegments] at segmentsWritable
      unfold Spells itemsOf Remainder.ofText
      rw [toList_text, isSegments]
      exact exists_isExpression_of_written first rest segmentsWritable 0

theorem choices_singletons (segments : List Segment) :
    choices ((segments.map fun segment => [segment]).map firstOccurrences) = [segments] := by
  induction segments with
  | nil => rfl
  | cons first rest inductionHypothesis =>
      rw [List.map_cons, List.map_cons, choices, inductionHypothesis]
      rfl

theorem RelationPath.Writable.parse_text {path : RelationPath} (writable : path.Writable) :
    parse path.text = .ok [path] := by
  rw [writable.spells_text.parse_eq, choices_singletons]
  rfl

/-! ## One source against the list of its paths -/

theorem acceptedPaths_of_parse {source : String} {paths : List RelationPath}
    (parsed : parse source = .ok paths) : Expression.acceptedPaths source = paths := by
  unfold Expression.acceptedPaths
  rw [parsed]

theorem flatMap_acceptedPaths {paths : List RelationPath}
    (writable : ∀ path ∈ paths, path.Writable) :
    (paths.map RelationPath.text).flatMap Expression.acceptedPaths = paths := by
  rw [List.flatMap_map]
  calc paths.flatMap (fun path => Expression.acceptedPaths path.text)
      = paths.flatMap fun path => [path] :=
        List.flatMap_congr fun path member =>
          acceptedPaths_of_parse (writable path member).parse_text
    _ = paths := List.flatMap_singleton' paths

/-- **Writing paths loses nothing.** The text of each path of a source is an expression of that
path alone, and the list of these texts denotes the paths of the source, as the source does. -/
theorem parse_text_of_parse {source : String} {paths : List RelationPath}
    (parsed : parse source = .ok paths) :
    (∀ path ∈ paths, parse path.text = .ok [path])
      ∧ (Expression.many (paths.map RelationPath.text)).paths = paths
      ∧ (Expression.single source).paths = paths := by
  have writable : ∀ path ∈ paths, path.Writable := fun path listed =>
    writable_of_parse parsed listed
  obtain ⟨_, _, lists⟩ := exists_spells_of_parse parsed
  refine ⟨fun path listed => (writable path listed).parse_text, ?_, ?_⟩
  · show firstOccurrences ((paths.map RelationPath.text).flatMap Expression.acceptedPaths) = paths
    rw [flatMap_acceptedPaths writable, firstOccurrences_of_nodup lists.nodup]
  · show firstOccurrences ([source].flatMap Expression.acceptedPaths) = paths
    rw [List.flatMap_singleton, acceptedPaths_of_parse parsed,
      firstOccurrences_of_nodup lists.nodup]

/-- The paths to everything of the comments on posts, and of the likes of posts. -/
def postPaths : List RelationPath :=
  [⟨[.relation "posts", .relation "comments", .wildcard]⟩,
    ⟨[.relation "posts", .relation "likes", .wildcard]⟩]

def postItems : List Item :=
  [.token (.name "posts") ⟨0, 5⟩, .token .dot ⟨5, 6⟩, .token (.name "comments") ⟨6, 14⟩,
    .token .pipe ⟨14, 15⟩, .token (.name "likes") ⟨15, 20⟩, .token .dot ⟨20, 21⟩,
    .token .star ⟨21, 22⟩]

theorem itemsOf_posts : itemsOf "posts.comments|likes.*" = postItems := by
  rw [itemsOf_eq_itemsWithin]
  rfl

theorem parse_text_of_parse_posts :
    parse "posts.comments|likes.*" = .ok postPaths
      ∧ (∀ path ∈ postPaths, parse path.text = .ok [path])
      ∧ (Expression.many (postPaths.map RelationPath.text)).paths = postPaths
      ∧ (Expression.single "posts.comments|likes.*").paths = postPaths := by
  have parsed : parse "posts.comments|likes.*" = .ok postPaths := by
    rw [parse, segmentsOf, itemsOf_posts]
    rfl
  exact ⟨parsed, parse_text_of_parse parsed⟩

end EagerLoad.Path
