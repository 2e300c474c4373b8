/-!
Contract: places in a path expression.

Owns: spans as pairs of byte offsets into the UTF-8 text of the expression, and
the column that a byte offset falls into.

Does not own: what is found at a place.
-/

set_option autoImplicit false

namespace EagerLoad.Path

/-- A stretch of text from byte offset `start` up to byte offset `stop`. -/
structure Span where
  start : Nat
  stop : Nat
  deriving DecidableEq, Repr

namespace Span

def point (offset : Nat) : Span := ⟨offset, offset⟩

def length (span : Span) : Nat := span.stop - span.start

def isEmpty (span : Span) : Bool := span.start == span.stop

end Span

/-- The number of bytes of some characters in UTF-8. -/
def byteLength (chars : List Char) : Nat :=
  chars.foldr (fun char total => char.utf8Size + total) 0

@[simp] theorem byteLength_nil : byteLength [] = 0 := rfl

@[simp] theorem byteLength_cons (char : Char) (rest : List Char) :
    byteLength (char :: rest) = char.utf8Size + byteLength rest := rfl

@[simp] theorem byteLength_append (left right : List Char) :
    byteLength (left ++ right) = byteLength left + byteLength right := by
  induction left with
  | nil => simp
  | cons char rest inductionHypothesis =>
    simp only [List.cons_append, byteLength_cons, inductionHypothesis]
    omega

/-- The number of characters that start before a byte offset, when the first of
them starts at `position`. -/
def charsBefore (offset position : Nat) : List Char → Nat
  | [] => 0
  | char :: rest =>
      (if position < offset then 1 else 0) + charsBefore offset (position + char.utf8Size) rest

/-- The column of a byte offset: one more than the number of characters before it. -/
def columnOf (source : String) (offset : Nat) : Nat :=
  charsBefore offset 0 source.toList + 1

end EagerLoad.Path
