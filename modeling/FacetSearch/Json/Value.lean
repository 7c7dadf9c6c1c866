import FacetSearch.Number.Shortest

set_option autoImplicit false

/-! # JSON values

A value keeps what its text says: a whole number that fits 64 bits stays a whole number, and an
object keeps its members in order, repeated names included. What is well formed but cannot be held is
`unreadable`; it does no harm where nothing reads it. `sorted` is the value with every name once (the
last member wins) and names in order. The printers write names in the order they find them. -/

namespace FacetSearch

/-- A number of a JSON text. -/
inductive Numeral where
  | integer (value : Int)
  /-- A number with a fraction, an exponent or too many digits; infinite when it is out of range. -/
  | real (value : Binary64)
deriving DecidableEq, Repr, Inhabited

inductive Json where
  | null
  | bool (value : Bool)
  | number (value : Numeral)
  | string (text : String)
  | array (items : List Json)
  | object (members : List (String × Json))
  /-- A number out of range, a string or a name with half a surrogate pair, or nesting that is too
      deep. -/
  | unreadable
deriving Repr, Inhabited

namespace Json

/-! ## Objects -/

/-- Set `name` in members that are sorted by name. -/
def setMember (name : String) (value : Json) : List (String × Json) → List (String × Json)
  | [] => [(name, value)]
  | (other, held) :: rest =>
    if name < other then (name, value) :: (other, held) :: rest
    else if name = other then (name, value) :: rest
    else (other, held) :: setMember name value rest

mutual

/-- The value with each name of an object once, the last member winning, and names in order. -/
def sorted : Json → Json
  | .array items => .array (sortedItems items)
  | .object members => .object (sortedMembers [] members)
  | other => other

def sortedItems : List Json → List Json
  | [] => []
  | item :: rest => item.sorted :: sortedItems rest

def sortedMembers (done : List (String × Json)) : List (String × Json) → List (String × Json)
  | [] => done
  | (name, value) :: rest => sortedMembers (setMember name value.sorted done) rest

end

/-- The members without those whose value is null. -/
def dropNulls (members : List (String × Json)) : List (String × Json) :=
  members.filter fun member => match member.2 with
    | .null => false
    | _ => true

/-- The first member of that name in an object. -/
def get? (name : String) : Json → Option Json
  | .object members => members.lookup name
  | _ => none

/-! ## Readable values -/

/-- A number as a value. -/
def ofNumeral : Numeral → Json
  | .integer n => .number (.integer n)
  | .real x => if x.isFinite then .number (.real x) else .unreadable

mutual

/-- Every part of the value can be held. -/
def readable : Json → Bool
  | .unreadable => false
  | .array items => readableItems items
  | .object members => readableMembers members
  | _ => true

def readableItems : List Json → Bool
  | [] => true
  | item :: rest => item.readable && readableItems rest

def readableMembers : List (String × Json) → Bool
  | [] => true
  | (_, value) :: rest => value.readable && readableMembers rest

end

/-! ## Text -/

/-- The four hexadecimal digits of a control character. -/
def controlEscape (c : Char) : List Char :=
  let hex (n : Nat) : Char := if n < 10 then Char.ofNat (48 + n) else Char.ofNat (87 + n)
  ['\\', 'u', '0', '0', hex (c.toNat / 16), hex (c.toNat % 16)]

/-- A character inside quotes: quotes, backslashes and control characters are escaped, all else
    stands for itself. -/
def quotedChar (c : Char) : List Char :=
  if c = '"' then ['\\', '"']
  else if c = '\\' then ['\\', '\\']
  else if c = '\n' then ['\\', 'n']
  else if c = '\r' then ['\\', 'r']
  else if c = '\t' then ['\\', 't']
  else if c.toNat = 8 then ['\\', 'b']
  else if c.toNat = 12 then ['\\', 'f']
  else if c.toNat < 32 then controlEscape c
  else [c]

def quoted (text : String) : String :=
  String.ofList ('"' :: text.toList.flatMap quotedChar ++ ['"'])

def Numeral.text : Numeral → String
  | .integer value => toString value
  | .real value => value.general

mutual

/-- The value without any white space. -/
def compact : Json → String
  | .null | .unreadable => "null"
  | .bool value => if value then "true" else "false"
  | .number n => Numeral.text n
  | .string text => quoted text
  | .array items => "[" ++ ",".intercalate (compactItems items) ++ "]"
  | .object members => "\x7b" ++ ",".intercalate (compactMembers members) ++ "\x7d"

def compactItems : List Json → List String
  | [] => []
  | item :: rest => item.compact :: compactItems rest

def compactMembers : List (String × Json) → List String
  | [] => []
  | (name, value) :: rest => (quoted name ++ ":" ++ value.compact) :: compactMembers rest

end

/-- Lines of a bracketed list, each one level deeper than the brackets. -/
def block (opening closing : String) (indent : Nat) (entries : List String) : String :=
  if entries.isEmpty then opening ++ closing
  else
    let pad (n : Nat) := String.ofList (List.replicate (2 * n) ' ')
    let lines := entries.map fun entry => pad (indent + 1) ++ entry
    opening ++ "\n" ++ ",\n".intercalate lines ++ "\n" ++ pad indent ++ closing

mutual

/-- The value on several lines, two spaces for each level. -/
def pretty (indent : Nat) : Json → String
  | .array items => block "[" "]" indent (prettyItems (indent + 1) items)
  | .object members => block "\x7b" "\x7d" indent (prettyMembers (indent + 1) members)
  | .null | .unreadable => "null"
  | .bool value => if value then "true" else "false"
  | .number n => Numeral.text n
  | .string text => quoted text

def prettyItems (indent : Nat) : List Json → List String
  | [] => []
  | item :: rest => item.pretty indent :: prettyItems indent rest

def prettyMembers (indent : Nat) : List (String × Json) → List String
  | [] => []
  | (name, value) :: rest =>
    (quoted name ++ ": " ++ value.pretty indent) :: prettyMembers indent rest

end

end Json

end FacetSearch
