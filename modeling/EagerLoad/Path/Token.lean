import EagerLoad.Path.Fault
import EagerLoad.Text.Blank

/-!
Contract: the tokens of path expressions, in the order of the text.

Owns: the reading of one item from a text, the list of all items, and the cursor
that looks at most one item ahead.

Does not own: which sequences of tokens are paths (`Path/Grammar.lean`).

Separators are skipped. A name is a longest run of characters that are neither
reserved nor blank, so names in any script need no quoting. A blank that is no
separator is an item of its own, a fault, and reading goes on behind it.
-/

set_option autoImplicit false

namespace EagerLoad.Path

def isNameChar (char : Char) : Bool :=
  char != '.' && char != '|' && char != '*' && !Text.isBlank char

inductive Item where
  | token (token : Token) (span : Span)
  | fault (located : LocatedFault)
  deriving DecidableEq, Repr

namespace Item

def span : Item → Span
  | .token _ span => span
  | .fault located => located.span

end Item

/-- What remains of a text, and the byte offset at which it starts. -/
structure Remainder where
  offset : Nat
  chars : List Char
  deriving DecidableEq, Repr

namespace Remainder

def ofText (source : String) : Remainder := ⟨0, source.toList⟩

/-- The item that starts with a given character that is no separator, and the text
behind it. -/
def itemFrom (offset : Nat) (first : Char) (rest : List Char) : Item × Remainder :=
  let single : Span := ⟨offset, offset + first.utf8Size⟩
  let behind : Remainder := ⟨offset + first.utf8Size, rest⟩
  if first = '.' then (.token .dot single, behind)
  else if first = '|' then (.token .pipe single, behind)
  else if first = '*' then (.token .star single, behind)
  else if isNameChar first then
    let name := first :: rest.takeWhile isNameChar
    let stop := offset + byteLength name
    (.token (.name (String.ofList name)) ⟨offset, stop⟩, ⟨stop, rest.dropWhile isNameChar⟩)
  else (.fault ⟨.reservedBlank first, single⟩, behind)

def nextFrom (offset : Nat) : List Char → Option (Item × Remainder)
  | [] => none
  | first :: rest =>
      if Text.isSeparator first then nextFrom (offset + first.utf8Size) rest
      else some (itemFrom offset first rest)

def next (remainder : Remainder) : Option (Item × Remainder) :=
  nextFrom remainder.offset remainder.chars

/-- An item takes at least its first character. -/
theorem itemFrom_length (offset : Nat) (first : Char) (rest : List Char) :
    (itemFrom offset first rest).2.chars.length ≤ rest.length := by
  unfold itemFrom
  simp only
  split
  · exact Nat.le_refl _
  · split
    · exact Nat.le_refl _
    · split
      · exact Nat.le_refl _
      · split
        · exact (List.dropWhile_sublist isNameChar).length_le
        · exact Nat.le_refl _

theorem nextFrom_length {offset : Nat} {chars : List Char} {found : Item × Remainder}
    (isNext : nextFrom offset chars = some found) :
    found.2.chars.length < chars.length := by
  fun_induction nextFrom offset chars with
  | case1 => cases isNext
  | case2 offset first rest separates inductionHypothesis =>
    exact Nat.lt_succ_of_lt (inductionHypothesis isNext)
  | case3 offset first rest starts =>
    cases isNext
    exact Nat.lt_succ_of_le (itemFrom_length offset first rest)

/-- Reading an item leaves a shorter text. -/
theorem next_length {remainder : Remainder} {found : Item × Remainder}
    (isNext : remainder.next = some found) :
    found.2.chars.length < remainder.chars.length :=
  nextFrom_length isNext

def items (remainder : Remainder) : List Item :=
  match _isNext : remainder.next with
  | none => []
  | some (item, behind) => item :: items behind
termination_by remainder.chars.length
decreasing_by exact next_length _isNext

end Remainder

def itemsOf (source : String) : List Item := (Remainder.ofText source).items

/-! ## Looking one item ahead -/

/-- A cursor into the items of a text. `ahead` is the result of looking ahead, when
that has been done: an item, or the end of the text. -/
structure Cursor where
  remainder : Remainder
  ahead : Option (Option Item)

namespace Cursor

def ofText (source : String) : Cursor := ⟨Remainder.ofText source, none⟩

/-- Reads one item past whatever was looked at. -/
def advance (cursor : Cursor) : Option Item × Remainder :=
  match cursor.remainder.next with
  | none => (none, cursor.remainder)
  | some (item, behind) => (some item, behind)

def peek (cursor : Cursor) : Option Item × Cursor :=
  match cursor.ahead with
  | some item => (item, cursor)
  | none =>
      let (item, behind) := cursor.advance
      (item, ⟨behind, some item⟩)

def next (cursor : Cursor) : Option Item × Cursor :=
  match cursor.ahead with
  | some item => (item, { cursor with ahead := none })
  | none =>
      let (item, behind) := cursor.advance
      (item, ⟨behind, none⟩)

end Cursor

end EagerLoad.Path
