import FacetSearch.Entity.Snapshot

set_option autoImplicit false

/-! # Catalogue

The known entities with an index of their names. A name belongs to the first entity that was inserted
with it, as identifier, slug or URI alike; later entities never take it over. -/

namespace FacetSearch

structure Catalogue where
  entities : Array Entity := #[]
  /-- For each name, the place of the entity that owns it. -/
  owners : Std.ExtTreeMap String Nat := ∅

namespace Catalogue

def empty : Catalogue := {}

/-- Give each of some names an owner, unless it has one. -/
def assignOwner (place : Nat) (owners : Std.ExtTreeMap String Nat) (names : List String) :
    Std.ExtTreeMap String Nat :=
  names.foldl (fun held name => held.insertIfNew name place) owners

def insert (c : Catalogue) (e : Entity) : Catalogue where
  entities := c.entities.push e
  owners := assignOwner c.entities.size c.owners e.names

def ofList (entities : List Entity) : Catalogue := entities.foldl insert empty

def size (c : Catalogue) : Nat := c.entities.size

/-- The entity that owns a name. -/
def find? (c : Catalogue) (name : String) : Option Entity :=
  c.owners[name]?.bind fun place => c.entities[place]?

/-- A catalogue in a JSON text, as a list of entities. -/
def ofText? (text : String) : Option Catalogue :=
  ((Json.parse? text).bind (Json.list? Entity.ofJson?)).map ofList

end Catalogue

/-- The catalogue could not be asked. -/
inductive StoreError where
  | unavailable (why : String)
deriving DecidableEq, Repr

def StoreError.message : StoreError → String
  | unavailable why => s!"Entity store unavailable: {why}"

end FacetSearch
