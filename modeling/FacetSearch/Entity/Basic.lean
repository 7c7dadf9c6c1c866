import FacetSearch.Number.Binary64
import FacetSearch.Text.Blank

set_option autoImplicit false

/-! # Entities

What the catalogue knows about a place, a predicate, a concept or a project: three names it answers to,
a label, the kind of its values and the names of its parents. -/

namespace FacetSearch

/-! ## Item types -/

inductive ItemType where
  | subject
  | predicate
  | concept
  | project
  | person
  | media
  | document
  | other
deriving DecidableEq, Repr, Inhabited

namespace ItemType

/-- The value that the index stores for the type. -/
def token : ItemType → String
  | subject => "subjects"
  | predicate => "predicates"
  | concept => "types"
  | project => "projects"
  | person => "persons"
  | media => "media"
  | document => "documents"
  | other => "other"

/-- A type by its token, in the singular too, in any case and with white space around it. -/
def ofToken? (raw : String) : Option ItemType :=
  let name := (Text.trim raw).toLower
  if name = "subjects" ∨ name = "subject" then some subject
  else if name = "predicates" ∨ name = "predicate" then some predicate
  else if name = "types" ∨ name = "type" ∨ name = "concepts" ∨ name = "concept" then some concept
  else if name = "projects" ∨ name = "project" then some project
  else if name = "persons" ∨ name = "person" then some person
  else if name = "media" then some media
  else if name = "documents" ∨ name = "document" then some document
  else none

/-- The name of the type in records. -/
def name : ItemType → String
  | subject => "subject"
  | predicate => "predicate"
  | concept => "concept"
  | project => "project"
  | person => "person"
  | media => "media"
  | document => "document"
  | other => "other"

/-- A type by its name in records; an unknown name is `other`. -/
def ofName (raw : String) : ItemType :=
  ([subject, predicate, concept, project, person, media, document].find? (·.name = raw)).getD other

end ItemType

/-! ## Kinds of values -/

/-- The kind of the values stored under a field. -/
inductive DataKind where
  | id
  | numeric
  | date
  | string
deriving DecidableEq, Repr, Inhabited

namespace DataKind

/-- The kinds in their own order. -/
def all : List DataKind := [id, numeric, date, string]

def suffix : DataKind → String
  | id => "id"
  | numeric => "numeric"
  | date => "date"
  | string => "string"

def ofSuffix? (raw : String) : Option DataKind := all.find? (·.suffix = raw)

/-- The values are literals and not entities. -/
def isLiteral : DataKind → Bool
  | id => false
  | _ => true

/-- The values are queried as ranges. -/
def isRanged : DataKind → Bool
  | numeric | date => true
  | _ => false

end DataKind

/-! ## Metadata -/

structure GeoMetadata where
  lat : Binary64
  lon : Binary64
  geotile : Option String := none
deriving DecidableEq, Repr

structure ChronoMetadata where
  earliestYear : Int
  latestYear : Int
deriving DecidableEq, Repr

inductive MetadataKind where
  | geo
  | chrono
deriving DecidableEq, Repr

inductive Metadata where
  | geo (value : GeoMetadata)
  | chrono (value : ChronoMetadata)
deriving DecidableEq, Repr

structure EntityMetadata where
  geo : Option GeoMetadata := none
  chrono : Option ChronoMetadata := none
deriving DecidableEq, Repr, Inhabited

def EntityMetadata.get (m : EntityMetadata) : MetadataKind → Option Metadata
  | .geo => m.geo.map .geo
  | .chrono => m.chrono.map .chrono

/-! ## Entities -/

structure Entity where
  identifier : String
  uri : String
  slug : String
  label : String
  itemType : ItemType
  dataKind : Option DataKind := none
  /-- The names of the parents, the preferred one first. -/
  parents : List String := []
  hasChildren : Bool := false
  /-- The entity is a link to related records. -/
  related : Bool := false
  metadata : EntityMetadata := {}
deriving DecidableEq, Repr, Inhabited

namespace Entity

/-- An entity with the usual URI and nothing else known. -/
def make (identifier slug label : String) (itemType : ItemType) : Entity :=
  { identifier, slug, label, itemType, uri := "/" ++ itemType.token ++ "/" ++ identifier }

def addParent (e : Entity) (parent : String) : Entity :=
  { e with parents := e.parents ++ [parent] }

def setGeo (e : Entity) (lat lon : Binary64) : Entity :=
  { e with metadata := { e.metadata with geo := some { lat, lon } } }

def setChrono (e : Entity) (earliestYear latestYear : Int) : Entity :=
  { e with metadata := { e.metadata with chrono := some { earliestYear, latestYear } } }

def isPredicate (e : Entity) : Bool := e.itemType = .predicate

/-- The kind of the field that the entity's values are stored under. A predicate with children is
    navigated like any other entity, whatever kind it declares. -/
def fieldKind (e : Entity) : DataKind :=
  if e.isPredicate && e.hasChildren then .id else e.dataKind.getD .id

/-- The names the entity answers to. -/
def names (e : Entity) : List String := [e.identifier, e.slug, e.uri]

def answersTo (e : Entity) (name : String) : Bool := e.names.contains name

end Entity

end FacetSearch
