import FacetSearch.Entity.Basic

set_option autoImplicit false

/-! # Field names

The fixed fields of the index and the fields that are named after entities. A field of the second sort
holds what lies below the entity that a path has reached: `weight___pred_numeric` holds values of the
predicate with slug `weight`, and `root___context_id` the places of the top level. Once a path has gone
through a link to related records, its mark stands in front of every deeper field. -/

namespace FacetSearch

/-! ## Fixed fields -/

namespace Field

/-- Free text. -/
def text : String := "text"
def uuid : String := "uuid"
def persistentUri : String := "persistent_uri"
def itemType : String := "item_type"
def slugTypeUriLabel : String := "slug_type_uri_label"
def interestScore : String := "interest_score"
def updated : String := "updated"
def published : String := "published"
def contextPath : String := "context_path"
def chronoTile : String := "form_use_life_chrono_tile"
def chronoEarliest : String := "form_use_life_chrono_earliest"
def chronoLatest : String := "form_use_life_chrono_latest"
def geoTile : String := "discovery_geotile"

/-- The stored fields that every record is returned with. -/
def returned : List String := [uuid, slugTypeUriLabel, itemType, persistentUri, updated, published]

/-- A character as it stands in a field name. -/
def safeChar (c : Char) : Char := if c.isAlphanum || c = '_' then c else '_'

/-- A slug as it stands in a field name. -/
def safe (slug : String) : String := String.ofList (slug.toList.map safeChar)

/-- The slug that stands for the top of a hierarchy. -/
def rootSlug : String := "root"

/-- What separates the slug from the rest of a field name. -/
def delimiter : String := "___"

end Field

/-! ## Fields along a path -/

inductive FieldFamily where
  /-- Places and what they contain. -/
  | context
  /-- Descriptive properties. -/
  | predicate
  /-- Projects and their parts. -/
  | project
deriving DecidableEq, Repr

namespace FieldFamily

def token : FieldFamily → String
  | context => "context"
  | predicate => "pred"
  | project => "project"

end FieldFamily

/-- An entity on a path. -/
structure FieldStep where
  identifier : String
  slug : String
  label : String
  /-- The kind of the values below the entity. -/
  kind : DataKind
deriving DecidableEq, Repr

/-- The entities that a path has gone through, which name the field it has reached. -/
structure FieldPath where
  family : FieldFamily
  /-- The mark of related records, once the path has gone through a link. -/
  mark : Option String := none
  /-- The entities from the top on. -/
  steps : List FieldStep := []
deriving DecidableEq, Repr

namespace FieldPath

def root (family : FieldFamily) : FieldPath := { family }

/-- One step deeper, through `e`; a mark that is already there stays. -/
def child (p : FieldPath) (e : Entity) (mark : Option String) : FieldPath :=
  { p with
    mark := p.mark <|> mark
    steps := p.steps ++ [⟨e.identifier, e.slug, e.label, e.fieldKind⟩] }

/-- The entity whose values the field holds. -/
def parent (p : FieldPath) : Option FieldStep := p.steps.getLast?

def isRelated (p : FieldPath) : Bool := p.mark.isSome

/-- The kind of the values of the field. -/
def kind (p : FieldPath) : DataKind := (p.parent.map (·.kind)).getD .id

/-- The name of the field. -/
def name (p : FieldPath) : String :=
  p.mark.getD "" ++ (p.parent.map fun step => Field.safe step.slug).getD Field.rootSlug
    ++ Field.delimiter ++ p.family.token ++ "_" ++ p.kind.suffix

end FieldPath

end FacetSearch
