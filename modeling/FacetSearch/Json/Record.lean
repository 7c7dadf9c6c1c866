import Std.Data.ExtTreeMap
import FacetSearch.Json.Reader

set_option autoImplicit false

/-! # Typed reading of JSON values

A record is an object whose members are looked up by name: unknown names are ignored, a known name that
stands twice is an error. A record may also be written as an array of its fields in order. Reading
gives an answer or nothing, since the texts of such errors belong to no one who reads them. -/

namespace FacetSearch.Json

/-! ## Records -/

/-- The known members of a record. -/
structure Record where
  members : List (String × Json)
  /-- The fields were given by position, so that none in the middle is left out. -/
  positional : Bool := false

/-- No name stands twice. -/
def distinctNames (members : List (String × Json)) : Bool :=
  match members with
  | [] => true
  | (name, _) :: rest => (rest.lookup name).isNone && distinctNames rest

/-- A record with fields `names`, from an object or from an array. -/
def record? (names : List String) : Json → Option Record
  | .object members =>
    let known := members.filter fun member => names.contains member.1
    if distinctNames known then some { members := known } else none
  | .array items =>
    if items.length ≤ names.length then
      some { members := names.zip items, positional := true }
    else none
  | _ => none

namespace Record

variable {α : Type}

/-- A field that has to be there. -/
def required (r : Record) (name : String) (read : Json → Option α) : Option α :=
  (r.members.lookup name).bind read

/-- A field that has a value of its own when it is left out. -/
def withDefault (r : Record) (name : String) (default : α) (read : Json → Option α) : Option α :=
  match r.members.lookup name with
  | none => some default
  | some value => read value

/-- Null as absence. -/
def nullable (read : Json → Option α) : Json → Option (Option α)
  | .null => some none
  | value => (read value).map some

/-- A field that may be null or left out. -/
def optional (r : Record) (name : String) (read : Json → Option α) : Option (Option α) :=
  r.withDefault name none (nullable read)

/-- A field that may be null, and be left out where the fields have names. -/
def named (r : Record) (name : String) (read : Json → Option α) : Option (Option α) :=
  if r.positional then r.required name (nullable read) else r.optional name read

end Record

/-! ## Values -/

def string? : Json → Option String
  | .string text => some text
  | _ => none

def bool? : Json → Option Bool
  | .bool value => some value
  | _ => none

/-- A whole number from 0 to `greatest`. -/
def natUpTo? (greatest : Nat) : Json → Option Nat
  | .number (.integer (.ofNat n)) => if n ≤ greatest then some n else none
  | _ => none

/-- An unsigned 64-bit number. -/
def word? : Json → Option Nat := natUpTo? Decimal.greatestWord

/-- A count of documents. -/
def count? (value : Json) : Option UInt64 := value.word?.map UInt64.ofNat

/-- A signed 64-bit number. -/
def int64? : Json → Option Int
  | .number (.integer n) => if Decimal.fitsInt64 n then some n else none
  | _ => none

/-- Any number, as a binary64 number. -/
def binary64? : Json → Option Binary64
  | .number (.integer n) => some (.ofInt n)
  | .number (.real x) => some x
  | _ => none

/-- Any value that can be held. -/
def value? (value : Json) : Option Json :=
  if value.readable then some value.sorted else none

/-- The name of a choice without contents: a string, or an object that has it as its only member,
    with null. -/
def choice? : Json → Option String
  | .string name => some name
  | .object [(name, .null)] => some name
  | _ => none

variable {α : Type}

/-- A list with every item read. -/
def list? (read : Json → Option α) : Json → Option (List α)
  | .array items => items.mapM read
  | _ => none

/-- A map from names, a later member taking the place of an earlier one. -/
def map? (read : Json → Option α) : Json → Option (Std.ExtTreeMap String α)
  | .object members =>
    members.foldlM (fun held (name, value) => (read value).map (held.insert name ·)) ∅
  | _ => none

/-! ## Writing -/

/-- A list of strings. -/
def strings (texts : List String) : Json := .array (texts.map .string)

/-- A whole number. -/
def ofNat (n : Nat) : Json := .number (.integer n)

/-- A map as an object, in the order of its names. -/
def ofMap (write : α → Json) (held : Std.ExtTreeMap String α) : Json :=
  .object (held.toList.map fun (name, value) => (name, write value))

/-- An optional value, null when it is absent. -/
def ofOption (write : α → Json) : Option α → Json
  | none => .null
  | some value => write value

end FacetSearch.Json
