import FacetSearch.Json.Value

set_option autoImplicit false

/-! # Building TOML tables

A TOML document fills a tree of tables statement by statement. Each table knows how it came to be,
since a name may be defined once only: a header opens a table that only longer headers have passed
through, a dotted key goes through tables of dotted keys, and values and tables written in one go are
closed. The finished tree is an object with the same names and values. -/

namespace FacetSearch.Toml

/-! ## Trees -/

/-- How a table came to be. -/
inductive Origin where
  /-- A longer header passed through it. -/
  | passed
  /-- A header opened it. -/
  | opened
  /-- A dotted key passed through it. -/
  | dotted
deriving DecidableEq, Repr

inductive Node where
  /-- A value, which nothing can be added to. -/
  | value (held : Json)
  | table (origin : Origin) (members : List (String × Node))
  /-- An array of tables, of which the last one is open. -/
  | tables (done : List Json) (last : List (String × Node))

abbrev Members := List (String × Node)

mutual

/-- The value that a node has come to. -/
def Node.json : Node → Json
  | .value held => held
  | .table _ members => .object (membersJson members)
  | .tables done last => .array (done ++ [.object (membersJson last)])

def membersJson : List (String × Node) → List (String × Json)
  | [] => []
  | (name, node) :: rest => (name, node.json) :: membersJson rest

end

/-- Change the member of that name, which is added at the end when it is new. -/
def alter (name : String) (change : Option Node → Option Node) : Members → Option Members
  | [] => (change none).map fun node => [(name, node)]
  | (other, node) :: rest =>
    if other = name then (change (some node)).map fun node => (name, node) :: rest
    else (alter name change rest).map ((other, node) :: ·)

/-! ## Headers -/

/-- Go down to the table at `path` and change its members. Tables on the way are passed through. -/
def below (change : Members → Option Members) : List String → Members → Option Members
  | [], members => change members
  | name :: path, members =>
    alter name (fun
      | none => (below change path []).map (.table .passed)
      | some (.table origin inner) => (below change path inner).map (.table origin)
      | some (.tables done last) => (below change path last).map (.tables done)
      | some (.value _) => none) members

/-- Open the table of a header `[name]`. -/
def openTable (name : String) : Members → Option Members :=
  alter name fun
    | none => some (.table .opened [])
    | some (.table .passed inner) => some (.table .opened inner)
    | _ => none

/-- Open one more table of a header `[[name]]`. -/
def openItem (name : String) : Members → Option Members :=
  alter name fun
    | none => some (.tables [] [])
    | some (.tables done last) => some (.tables (done ++ [.object (membersJson last)]) [])
    | _ => none

/-! ## Keys -/

/-- Set a key, of which `path` is the part before the last name. A table that a header has opened
    takes no dotted keys. One that headers only passed through, and the last of an array of tables,
    lets a longer path go on below it. -/
def setKey (value : Json) (name : String) : List String → Members → Option Members
  | [], members =>
    alter name (fun
      | none => some (.value value)
      | some _ => none) members
  | step :: path, members =>
    alter step (fun
      | none => (setKey value name path []).map (.table .dotted)
      | some (.table .dotted inner) => (setKey value name path inner).map (.table .dotted)
      | some (.table .passed inner) =>
        if path.isEmpty then none else (setKey value name path inner).map (.table .passed)
      | some (.tables done last) =>
        if path.isEmpty then none else (setKey value name path last).map (.tables done)
      | _ => none) members

/-- A key as the part before its last name, and that name. -/
def splitKey : List String → Option (List String × String)
  | [] => none
  | names => names.getLast?.map fun name => (names.dropLast, name)

end FacetSearch.Toml
