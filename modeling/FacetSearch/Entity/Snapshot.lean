import FacetSearch.Entity.Basic
import FacetSearch.Json.Record

set_option autoImplicit false

/-! # Entity snapshots

Entities as JSON. Writing leaves out what is absent; reading fills in what is left out, ignores what it
does not know and takes an unknown item type as `other`. So what is written reads back as the same
entity, which is what the shared cache rests on. -/

namespace FacetSearch

/-! ## Writing -/

/-- A coordinate; what is no finite number is null. -/
def coordinateJson (x : Binary64) : Json := if x.isFinite then .number (.real x) else .null

def GeoMetadata.toJson (g : GeoMetadata) : Json :=
  .object ([("lat", coordinateJson g.lat), ("lon", coordinateJson g.lon)]
    ++ Json.dropNulls [("geotile", Json.ofOption Json.string g.geotile)])

def ChronoMetadata.toJson (c : ChronoMetadata) : Json :=
  .object [("earliest_year", .number (.integer c.earliestYear)),
    ("latest_year", .number (.integer c.latestYear))]

def EntityMetadata.toJson (m : EntityMetadata) : Json :=
  .object (Json.dropNulls [("geo", Json.ofOption GeoMetadata.toJson m.geo),
    ("chrono", Json.ofOption ChronoMetadata.toJson m.chrono)])

namespace Entity

def toJson (e : Entity) : Json :=
  .object ([("identifier", .string e.identifier), ("canonical_uri", .string e.uri),
      ("slug", .string e.slug), ("label", .string e.label), ("item_type", .string e.itemType.name)]
    ++ Json.dropNulls [("data_type", Json.ofOption (fun kind => .string kind.suffix) e.dataKind)]
    ++ [("parent_refs", .strings e.parents), ("has_children", .bool e.hasChildren),
      ("related", .bool e.related), ("metadata", e.metadata.toJson)])

/-- The text that a cache keeps of an entity. -/
def snapshot (e : Entity) : String := e.toJson.compact

end Entity

/-! ## Reading -/

def GeoMetadata.ofJson? (value : Json) : Option GeoMetadata := do
  let r ← value.record? ["lat", "lon", "geotile"]
  return {
    lat := ← r.required "lat" Json.binary64?
    lon := ← r.required "lon" Json.binary64?
    geotile := ← r.optional "geotile" Json.string? }

def ChronoMetadata.ofJson? (value : Json) : Option ChronoMetadata := do
  let r ← value.record? ["earliest_year", "latest_year"]
  return {
    earliestYear := ← r.required "earliest_year" Json.int64?
    latestYear := ← r.required "latest_year" Json.int64? }

def EntityMetadata.ofJson? (value : Json) : Option EntityMetadata := do
  let r ← value.record? ["geo", "chrono"]
  return {
    geo := ← r.optional "geo" GeoMetadata.ofJson?
    chrono := ← r.optional "chrono" ChronoMetadata.ofJson? }

def DataKind.ofJson? (value : Json) : Option DataKind := value.choice?.bind DataKind.ofSuffix?

namespace Entity

def ofJson? (value : Json) : Option Entity := do
  let r ← value.record? ["identifier", "canonical_uri", "slug", "label", "item_type", "data_type",
    "parent_refs", "has_children", "related", "metadata"]
  return {
    identifier := ← r.required "identifier" Json.string?
    uri := ← r.required "canonical_uri" Json.string?
    slug := ← r.required "slug" Json.string?
    label := ← r.required "label" Json.string?
    itemType := ItemType.ofName (← r.required "item_type" Json.choice?)
    dataKind := ← r.optional "data_type" DataKind.ofJson?
    parents := ← r.withDefault "parent_refs" [] (Json.list? Json.string?)
    hasChildren := ← r.withDefault "has_children" false Json.bool?
    related := ← r.withDefault "related" false Json.bool?
    metadata := ← r.withDefault "metadata" {} EntityMetadata.ofJson? }

/-- The entity that a kept text describes, if it does. -/
def ofSnapshot? (text : String) : Option Entity := (Json.parse? text).bind ofJson?

end Entity

end FacetSearch
