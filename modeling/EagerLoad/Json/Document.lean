import EagerLoad.Json.Token
import EagerLoad.Json.Value

/-!
Contract: what a JSON text says, as far as it can be read.

Owns: the document tree, which keeps members in the order of the text and marks
the places where the text stops being JSON; the building of a tree from tokens;
and the value that a document denotes.

Does not own: reading documents as particular records (`Json/Reading.lean`).

A text is read from left to right and the first fault counts, whether it lies in
the JSON or in what the JSON says. A document therefore does not reject faulty
text. It ends there: an array or object that is cut off is not `closed`, and
`unreadable` stands where a value should have been. Whoever walks a document in
order meets its faults in order.
-/

set_option autoImplicit false

namespace EagerLoad.Json

/-- What a JSON text says. A number, string or key without content is spelled in
order but denotes nothing. -/
inductive Document where
  | unreadable
  | null
  | bool (flag : Bool)
  | number (content : Option Number)
  | string (content : Option String)
  | array (items : List Document) (closed : Bool)
  | object (members : List (Option String × Document)) (closed : Bool)
  deriving Inhabited

namespace Document

/-! ## Building a document from tokens -/

/-- An array or object around the place that is being read, with what came before
that place, last first. -/
inductive Frame where
  | item (before : List Document)
  | member (before : List (Option String × Document)) (key : Option String)

/-- Where an object stands between two of its members. -/
inductive Gap where
  | opened
  | afterMember
  | afterComma
  deriving DecidableEq

inductive Stage where
  | value
  | items (before : List Document) (opened : Bool)
  | members (before : List (Option String × Document)) (gap : Gap)
  | colon (before : List (Option String × Document)) (key : Option String)
  | ended (document : Document) (complete : Bool)

/-- A place in a text: the innermost unfinished document and those around it. -/
structure Place where
  stage : Stage
  frames : List Frame

namespace Place

def start : Place := ⟨.value, []⟩

/-- Hands a finished document to the one around it. -/
def deliver (frames : List Frame) (document : Document) : Place :=
  match frames with
  | [] => ⟨.ended document true, []⟩
  | .item before :: outer => ⟨.items (document :: before) false, outer⟩
  | .member before key :: outer => ⟨.members ((key, document) :: before) .afterMember, outer⟩

/-- The whole document when its reading stops inside `document`. -/
def cutOff (frames : List Frame) (document : Document) : Document :=
  match frames with
  | [] => document
  | .item before :: outer => cutOff outer (.array (document :: before).reverse false)
  | .member before key :: outer =>
      cutOff outer (.object ((key, document) :: before).reverse false)

def stop (frames : List Frame) (document : Document) : Place :=
  ⟨.ended (cutOff frames document) false, []⟩

def startValue (frames : List Frame) : Token → Place
  | .null => deliver frames .null
  | .bool flag => deliver frames (.bool flag)
  | .number content => deliver frames (.number content)
  | .string content => deliver frames (.string content)
  | .openArray => ⟨.items [] true, frames⟩
  | .openObject => ⟨.members [] .opened, frames⟩
  | .closeArray | .closeObject | .comma | .colon | .malformed => stop frames .unreadable

/-- A token where a key must stand. Only a string is one; reading stops at anything
else, before the member. -/
def startMember (frames : List Frame) (before : List (Option String × Document)) :
    Token → Place
  | .string content => ⟨.colon before content, frames⟩
  | _ => stop frames (.object before.reverse false)

def step (place : Place) (token : Token) : Place :=
  match place.stage with
  | .value => startValue place.frames token
  | .items before opened =>
      match token, opened with
      | .closeArray, _ => deliver place.frames (.array before.reverse true)
      | .comma, false => ⟨.value, .item before :: place.frames⟩
      | token, true => startValue (.item before :: place.frames) token
      | _, false => stop place.frames (.array before.reverse false)
  | .members before gap =>
      match token, gap with
      | .closeObject, .opened => deliver place.frames (.object before.reverse true)
      | .closeObject, .afterMember => deliver place.frames (.object before.reverse true)
      | .comma, .afterMember => ⟨.members before .afterComma, place.frames⟩
      | _, .afterMember => stop place.frames (.object before.reverse false)
      | token, _ => startMember place.frames before token
  | .colon before key =>
      match token with
      | .colon => ⟨.value, .member before key :: place.frames⟩
      | _ => stop place.frames (.object ((key, .unreadable) :: before).reverse false)
  | .ended document _ => ⟨.ended document false, []⟩

/-- The document when the text ends here, and whether the text is one whole
document with nothing after it. -/
def finish (place : Place) : Document × Bool :=
  match place.stage with
  | .value => (cutOff place.frames .unreadable, false)
  | .items before _ => (cutOff place.frames (.array before.reverse false), false)
  | .members before _ => (cutOff place.frames (.object before.reverse false), false)
  | .colon before key =>
      (cutOff place.frames (.object ((key, .unreadable) :: before).reverse false), false)
  | .ended document complete => (document, complete)

end Place

def readFrom (place : Place) (input : List Char) : Place :=
  match input with
  | [] => place
  | first :: rest =>
      if Text.isSeparator first then readFrom place rest
      else
        readFrom (place.step (Token.startingWith first rest).1) (Token.startingWith first rest).2
termination_by input.length
decreasing_by
  · exact Nat.lt_succ_self _
  · exact Nat.lt_succ_of_le (Token.startingWith_length first rest)

/-- What a text says, and whether it is one whole document with nothing after it. -/
def ofText (text : String) : Document × Bool :=
  (readFrom Place.start text.toList).finish

/-! ## The value a document denotes -/

mutual

/-- Whether a document is free of faults, leaving aside what its numerals and
strings denote and how deep it nests. -/
def isReadable : Document → Bool
  | .unreadable => false
  | .null | .bool _ | .number _ | .string _ => true
  | .array items closed => areReadable items && closed
  | .object members closed => areReadableMembers members && closed

def areReadable : List Document → Bool
  | [] => true
  | item :: rest => item.isReadable && areReadable rest

def areReadableMembers : List (Option String × Document) → Bool
  | [] => true
  | (_, value) :: rest => value.isReadable && areReadableMembers rest

end

mutual

/-- The value of a document that nests at most `room` arrays and objects deep. -/
def value? (room : Nat) : Document → Option Value
  | .unreadable => none
  | .null => some .null
  | .bool flag => some (.bool flag)
  | .number content => content.map .number
  | .string content => content.map .string
  | .array items closed =>
      match room with
      | 0 => none
      | inner + 1 => if closed then (values? inner items).map .array else none
  | .object members closed =>
      match room with
      | 0 => none
      | inner + 1 => if closed then (memberValues? inner members).map .object else none

def values? (room : Nat) : List Document → Option (List Value)
  | [] => some []
  | item :: rest => do
      let value ← item.value? room
      let values ← values? room rest
      some (value :: values)

/-- The members of an object as a value: the last one of a key counts. -/
def memberValues? (room : Nat) : List (Option String × Document) → Option Members
  | [] => some []
  | (key, item) :: rest => do
      let name ← key
      let value ← item.value? room
      let members ← memberValues? room rest
      some (if (members.get? name).isSome then members else members.insert name value)

end

/-- How many arrays and objects may nest in a text. -/
def nestingLimit : Nat := 127

def valueOfText? (room : Nat) (text : String) : Option Value :=
  match ofText text with
  | (document, true) => document.value? room
  | (_, false) => none

/-! ## The document of a value -/

mutual

/-- The document that says exactly this value. -/
def ofValue : Value → Document
  | .null => .null
  | .bool flag => .bool flag
  | .number content => .number (some content)
  | .string text => .string (some text)
  | .array items => .array (ofValues items) true
  | .object members => .object (ofMembers members) true

def ofValues : List Value → List Document
  | [] => []
  | item :: rest => ofValue item :: ofValues rest

def ofMembers : List (String × Value) → List (Option String × Document)
  | [] => []
  | (key, value) :: rest => (some key, ofValue value) :: ofMembers rest

end

end Document

end EagerLoad.Json
