import EagerLoad.Text.Unprintable

/-!
Contract: the quoted form of a text inside a message.

Owns: which characters are escaped and how: the quote and the backslash behind a
backslash, the four named controls by their letter, every other unprintable
character by its code point in braces.

Does not own: the string literals of JSON (`Json/Text.lean`), which follow other
rules.
-/

set_option autoImplicit false

namespace EagerLoad.Text

/-- The lower-case hexadecimal digits of a number, without padding. -/
def hexadecimal (value : Nat) : String :=
  String.ofList (Nat.toDigits 16 value)

/-- How one character appears between the quotes of a message. -/
def quotedChar (char : Char) : String :=
  if char = '"' then "\\\""
  else if char = '\\' then "\\\\"
  else if char = '\n' then "\\n"
  else if char = '\r' then "\\r"
  else if char = '\t' then "\\t"
  else if char = '\x00' then "\\0"
  else if isUnprintable char then "\\u\x7b" ++ hexadecimal char.toNat ++ "\x7d"
  else char.toString

/-- A text between quotes, with every character visible. -/
def quoted (text : String) : String :=
  "\"" ++ String.join (text.toList.map quotedChar) ++ "\""

end EagerLoad.Text
