import EagerLoad.Json.Number
import EagerLoad.Text.Blank

/-!
Contract: the tokens of JSON text.

Owns: numerals, string literals with their escapes, literal names and
punctuation, each read from the front of a character list.

Does not own: how tokens nest (`Json/Document.lean`).

A numeral beyond the largest finite value and a literal whose escapes contain an
unpaired surrogate are still tokens: they are errors only where their content is
asked for. Text that starts no token gives `malformed`.
-/

set_option autoImplicit false

namespace EagerLoad.Json

/-- One token. The content of a numeral or a string is absent when the spelling
is in order but denotes nothing. -/
inductive Token where
  | openArray
  | closeArray
  | openObject
  | closeObject
  | comma
  | colon
  | null
  | bool (flag : Bool)
  | number (content : Option Number)
  | string (content : Option String)
  | malformed

namespace Token

/-! ## Numerals -/

def isDigit (char : Char) : Bool := '0' ≤ char && char ≤ '9'

/-- The natural number a list of decimal digits spells. -/
def naturalOf (digits : List Char) : Nat :=
  digits.foldl (fun value digit => 10 * value + (digit.toNat - '0'.toNat)) 0

/-- An optional part of a numeral: what it says and the text after it. -/
structure Part (α : Type) where
  content : α
  rest : List Char

/-- The digits after the point, if there is a point; at least one must follow it. -/
def fraction? (input : List Char) : Option (Part (Option (List Char))) :=
  match input with
  | '.' :: after =>
      let digits := after.takeWhile isDigit
      if digits.isEmpty then none else some ⟨some digits, after.dropWhile isDigit⟩
  | _ => some ⟨none, input⟩

/-- The digits of an exponent; at least one is needed. -/
def exponentDigits? (negative : Bool) (input : List Char) : Option (Part (Option Int)) :=
  let digits := input.takeWhile isDigit
  if digits.isEmpty then none
  else some ⟨some (Number.signed negative (naturalOf digits)), input.dropWhile isDigit⟩

def exponent? (input : List Char) : Option (Part (Option Int)) :=
  match input with
  | mark :: after =>
      if mark = 'e' || mark = 'E' then
        match after with
        | '+' :: digits => exponentDigits? false digits
        | '-' :: digits => exponentDigits? true digits
        | digits => exponentDigits? false digits
      else
        some ⟨none, input⟩
  | [] => some ⟨none, input⟩

def numberOf (negative : Bool) (whole : List Char) (fraction : Option (List Char))
    (exponent : Option Int) : Option Number :=
  match fraction, exponent with
  | none, none => Number.ofDigits? negative (naturalOf whole)
  | _, _ =>
      let places := fraction.getD []
      Number.ofDecimal? negative (naturalOf (whole ++ places))
        (exponent.getD 0 - (places.length : Int))

/-- An unsigned numeral: no zero leads another digit. -/
def numeral (negative : Bool) (input : List Char) : Token × List Char :=
  let whole := input.takeWhile isDigit
  let afterWhole := input.dropWhile isDigit
  if whole.isEmpty || (whole.head? == some '0' && whole.length != 1) then
    (malformed, [])
  else
    match fraction? afterWhole with
    | none => (malformed, [])
    | some fraction =>
        match exponent? fraction.rest with
        | none => (malformed, [])
        | some exponent =>
            (number (numberOf negative whole fraction.content exponent.content), exponent.rest)

/-! ## String literals -/

/-- A piece of a string literal: a character, or the 16-bit unit of a `\u` escape. -/
inductive Piece where
  | char (char : Char)
  | unit (code : Nat)

def hexadecimalDigit? (char : Char) : Option Nat :=
  if isDigit char then some (char.toNat - '0'.toNat)
  else if 'a' ≤ char && char ≤ 'f' then some (char.toNat - 'a'.toNat + 10)
  else if 'A' ≤ char && char ≤ 'F' then some (char.toNat - 'A'.toNat + 10)
  else none

/-- The 16-bit unit that four hexadecimal digits spell. -/
def unit? (first second third fourth : Char) : Option Nat := do
  let high ← hexadecimalDigit? first
  let upper ← hexadecimalDigit? second
  let lower ← hexadecimalDigit? third
  let low ← hexadecimalDigit? fourth
  some (((high * 16 + upper) * 16 + lower) * 16 + low)

def escaped? (letter : Char) : Option Char :=
  if letter = '"' || letter = '\\' || letter = '/' then some letter
  else if letter = 'b' then some '\x08'
  else if letter = 'f' then some '\x0c'
  else if letter = 'n' then some '\n'
  else if letter = 'r' then some '\r'
  else if letter = 't' then some '\t'
  else none

/-- The pieces of a string literal after its opening quote, last piece first, and
the text after its closing quote. Control characters must be escaped. -/
def pieces? (found : List Piece) : List Char → Option (List Piece × List Char)
  | [] => none
  | '"' :: rest => some (found, rest)
  | '\\' :: 'u' :: first :: second :: third :: fourth :: rest =>
      match unit? first second third fourth with
      | some code => pieces? (.unit code :: found) rest
      | none => none
  | '\\' :: letter :: rest =>
      match escaped? letter with
      | some char => pieces? (.char char :: found) rest
      | none => none
  | char :: rest =>
      if char.toNat < 0x20 || char = '\\' then none else pieces? (.char char :: found) rest

/-- Whether a 16-bit unit is the first half of a surrogate pair. -/
def isLeadingUnit (code : Nat) : Bool := 0xd800 ≤ code && code < 0xdc00

/-- Whether a 16-bit unit is the second half of a surrogate pair. -/
def isTrailingUnit (code : Nat) : Bool := 0xdc00 ≤ code && code < 0xe000

/-- The characters that pieces in reading order denote, put before `after`; a
surrogate must stand in a pair. The pieces are given last one first. -/
def charsOf? (after : List Char) : List Piece → Option (List Char)
  | [] => some after
  | .char char :: rest => charsOf? (char :: after) rest
  | .unit low :: .unit high :: rest =>
      if isTrailingUnit low then
        if isLeadingUnit high then
          charsOf? (Char.ofNat (0x10000 + (high - 0xd800) * 0x400 + (low - 0xdc00)) :: after) rest
        else none
      else if isLeadingUnit low then none
      else charsOf? (Char.ofNat low :: after) (.unit high :: rest)
  | .unit code :: rest =>
      if isLeadingUnit code || isTrailingUnit code then none
      else charsOf? (Char.ofNat code :: after) rest

def literal (input : List Char) : Token × List Char :=
  match pieces? [] input with
  | none => (malformed, [])
  | some (pieces, rest) => (string ((charsOf? [] pieces).map String.ofList), rest)

/-! ## The first token of a text -/

/-- The token that starts with a given character, and the text after it. -/
def startingWith (first : Char) (rest : List Char) : Token × List Char :=
  match first, rest with
  | '[', rest => (openArray, rest)
  | ']', rest => (closeArray, rest)
  | '{', rest => (openObject, rest)
  | '}', rest => (closeObject, rest)
  | ',', rest => (comma, rest)
  | ':', rest => (colon, rest)
  | '"', rest => literal rest
  | '-', rest => numeral true rest
  | 'n', 'u' :: 'l' :: 'l' :: rest => (null, rest)
  | 't', 'r' :: 'u' :: 'e' :: rest => (bool true, rest)
  | 'f', 'a' :: 'l' :: 's' :: 'e' :: rest => (bool false, rest)
  | first, rest => if isDigit first then numeral false (first :: rest) else (malformed, [])

/-! ## Reading a token uses up text -/

theorem fraction?_length {input : List Char} {part : Part (Option (List Char))}
    (isRead : fraction? input = some part) : part.rest.length ≤ input.length := by
  unfold fraction? at isRead
  split at isRead
  · rename_i after
    have shorter := (after.dropWhile_sublist isDigit).length_le
    dsimp only at isRead
    split at isRead
    · cases isRead
    · cases isRead
      simp only [List.length_cons]
      omega
  · cases isRead
    exact Nat.le_refl _

theorem exponentDigits?_length {negative : Bool} {input : List Char} {part : Part (Option Int)}
    (isRead : exponentDigits? negative input = some part) :
    part.rest.length ≤ input.length := by
  unfold exponentDigits? at isRead
  have shorter := (input.dropWhile_sublist isDigit).length_le
  dsimp only at isRead
  split at isRead
  · cases isRead
  · cases isRead
    exact shorter

theorem exponent?_length {input : List Char} {part : Part (Option Int)}
    (isRead : exponent? input = some part) : part.rest.length ≤ input.length := by
  unfold exponent? at isRead
  split at isRead
  · split at isRead
    · split at isRead
      · have shorter := exponentDigits?_length isRead
        simp only [List.length_cons]
        omega
      · have shorter := exponentDigits?_length isRead
        simp only [List.length_cons]
        omega
      · have shorter := exponentDigits?_length isRead
        simp only [List.length_cons]
        omega
    · cases isRead
      exact Nat.le_refl _
  · cases isRead
    exact Nat.le_refl _

theorem numeral_length (negative : Bool) (input : List Char) :
    (numeral negative input).2.length ≤ (input.dropWhile isDigit).length := by
  unfold numeral
  simp only
  split
  · exact Nat.zero_le _
  · split
    · exact Nat.zero_le _
    · rename_i fraction fractionRead
      have afterFraction := fraction?_length fractionRead
      split
      · exact Nat.zero_le _
      · rename_i exponent exponentRead
        have afterExponent := exponent?_length exponentRead
        exact Nat.le_trans afterExponent afterFraction

theorem pieces?_length {found : List Piece} {input : List Char}
    {read : List Piece × List Char} (isRead : pieces? found input = some read) :
    read.2.length ≤ input.length := by
  fun_induction pieces? found input with
  | case1 => cases isRead
  | case2 found rest =>
    cases isRead
    exact Nat.le_succ _
  | case3 found first second third fourth rest code isUnit inductionHypothesis =>
    have shorter := inductionHypothesis isRead
    simp only [List.length_cons]
    omega
  | case4 => cases isRead
  | case5 found letter rest notUnit char isEscape inductionHypothesis =>
    have shorter := inductionHypothesis isRead
    simp only [List.length_cons]
    omega
  | case6 => cases isRead
  | case7 => cases isRead
  | case8 found char rest notQuote notUnit notEscape isPlain inductionHypothesis =>
    have shorter := inductionHypothesis isRead
    simp only [List.length_cons]
    omega

theorem literal_length (input : List Char) : (literal input).2.length ≤ input.length := by
  unfold literal
  split
  · exact Nat.zero_le _
  · rename_i pieces rest isRead
    exact pieces?_length isRead

/-- A token takes at least its first character. -/
theorem startingWith_length (first : Char) (rest : List Char) :
    (startingWith first rest).2.length ≤ rest.length := by
  unfold startingWith
  split
  all_goals first
    | exact Nat.le_refl _
    | exact literal_length _
    | exact Nat.le_trans (numeral_length _ _) (List.dropWhile_sublist _).length_le
    | skip
  · simp only [List.length_cons]; omega
  · simp only [List.length_cons]; omega
  · simp only [List.length_cons]; omega
  · split
    · rename_i digit
      refine Nat.le_trans (numeral_length _ _) ?_
      rw [List.dropWhile_cons_of_pos digit]
      exact (List.dropWhile_sublist _).length_le
    · exact Nat.zero_le _

end Token

end EagerLoad.Json
