/-!
Contract: the characters with the Unicode property `White_Space`.

Owns: the list of their ranges, and the four of them that text formats skip
between tokens.

Does not own: what a format does with a blank that it does not skip.
-/

set_option autoImplicit false

namespace EagerLoad.Text

/-- Inclusive ranges of the code points with the property `White_Space`. -/
def blankRanges : List (Nat × Nat) :=
  [(0x09, 0x0d), (0x20, 0x20), (0x85, 0x85), (0xa0, 0xa0), (0x1680, 0x1680), (0x2000, 0x200a),
   (0x2028, 0x2029), (0x202f, 0x202f), (0x205f, 0x205f), (0x3000, 0x3000)]

/-- Whether a character has the property `White_Space`. -/
def isBlank (char : Char) : Bool :=
  blankRanges.any fun range => range.1 ≤ char.toNat && char.toNat ≤ range.2

/-- Whether a character only separates tokens: space, tab, carriage return, line feed. -/
def isSeparator (char : Char) : Bool :=
  char = ' ' || char = '\t' || char = '\r' || char = '\n'

theorem isBlank_of_isSeparator {char : Char} (separates : isSeparator char = true) :
    isBlank char = true := by
  simp only [isSeparator, Bool.or_eq_true, decide_eq_true_eq] at separates
  rcases separates with ((isSpace | isTab) | isReturn) | isFeed
  · subst isSpace; decide
  · subst isTab; decide
  · subst isReturn; decide
  · subst isFeed; decide

end EagerLoad.Text
