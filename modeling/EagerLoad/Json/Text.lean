import EagerLoad.Json.Value

/-!
Contract: the text of a JSON value.

Owns: string literals, the compact form without blanks, and the indented form
with one member or item a line.

Does not own: the text of numbers (`Json/Number.lean`).
-/

set_option autoImplicit false

namespace EagerLoad.Json

/-- How one character appears in a string literal: quote, backslash and controls
are escaped, everything else stands for itself. -/
def literalChar (char : Char) : String :=
  if char = '"' then "\\\""
  else if char = '\\' then "\\\\"
  else if char = '\x08' then "\\b"
  else if char = '\x0c' then "\\f"
  else if char = '\n' then "\\n"
  else if char = '\r' then "\\r"
  else if char = '\t' then "\\t"
  else if char.toNat < 0x20 then
    "\\u00" ++ String.ofList (List.replicate (2 - (Nat.toDigits 16 char.toNat).length) '0'
      ++ Nat.toDigits 16 char.toNat)
  else char.toString

def literalText (text : String) : String :=
  "\"" ++ String.join (text.toList.map literalChar) ++ "\""

namespace Value

mutual

/-- The compact form: no blanks between tokens. -/
def compact : Value → String
  | .null => "null"
  | .bool true => "true"
  | .bool false => "false"
  | .number content => content.text
  | .string text => literalText text
  | .array items => "[" ++ ",".intercalate (compactItems items) ++ "]"
  | .object members => "\x7b" ++ ",".intercalate (compactMembers members) ++ "\x7d"

def compactItems : List Value → List String
  | [] => []
  | item :: rest => item.compact :: compactItems rest

def compactMembers : List (String × Value) → List String
  | [] => []
  | (key, value) :: rest => (literalText key ++ ":" ++ value.compact) :: compactMembers rest

end

/-- A line break and the indentation of the line after it. -/
def lineBreak (level : Nat) : String :=
  String.ofList ('\n' :: List.replicate (2 * level) ' ')

/-- Parts between brackets, each on a line of its own, one level further in;
nothing stands between the brackets when there is no part. -/
def bracketed (level : Nat) (opening closing : String) (parts : List String) : String :=
  match parts with
  | [] => opening ++ closing
  | parts =>
      opening ++ lineBreak (level + 1) ++ ("," ++ lineBreak (level + 1)).intercalate parts
        ++ lineBreak level ++ closing

mutual

/-- The indented form, for a value that starts on a line of the given level. -/
def indentedAt (level : Nat) : Value → String
  | .array items => bracketed level "[" "]" (indentedItems (level + 1) items)
  | .object members => bracketed level "\x7b" "\x7d" (indentedMembers (level + 1) members)
  | .null => "null"
  | .bool true => "true"
  | .bool false => "false"
  | .number content => content.text
  | .string text => literalText text

def indentedItems (level : Nat) : List Value → List String
  | [] => []
  | item :: rest => item.indentedAt level :: indentedItems level rest

def indentedMembers (level : Nat) : List (String × Value) → List String
  | [] => []
  | (key, value) :: rest =>
      (literalText key ++ ": " ++ value.indentedAt level) :: indentedMembers level rest

end

/-- The indented form: two spaces a level. -/
def indented (value : Value) : String := value.indentedAt 0

end Value

end EagerLoad.Json
