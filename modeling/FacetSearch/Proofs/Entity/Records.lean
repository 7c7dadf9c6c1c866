import FacetSearch.Entity.Snapshot
import FacetSearch.Proofs.Json.Records

set_option autoImplicit false

/-! # What entities are read from

The members of a record describe an entity when the fields that have to be there hold its names, its label
and its type, and each other field holds what the entity has, or is left out where the entity has the
default (`Entity.Described`). An unknown type is `other` (`ItemType.IsNamed`), and places and periods are
records within records. Entities are read from the records that describe them and from nothing else
(`Entity.ofJson?_eq_some_iff`). -/

namespace FacetSearch

open Json

/-! ## What entities are read from -/

/-- The type that a name of records stands for: its own, or `other` for an unknown name. -/
def ItemType.IsNamed (name : String) (t : ItemType) : Prop :=
  t.name = name ∨ t = .other ∧ ∀ known : ItemType, known.name ≠ name

/-- The value names the type. -/
def ItemType.IsValue (value : Json) (t : ItemType) : Prop := ∃ name, IsChoice value name ∧ IsNamed name t

/-- The value names the kind. -/
def DataKind.IsValue (value : Json) (kind : DataKind) : Prop := IsChoice value kind.suffix

def GeoMetadata.fields : List String := ["lat", "lon", "geotile"]

/-- The members describe the place. -/
@[mk_iff]
structure GeoMetadata.Described (members : List (String × Json)) (g : GeoMetadata) : Prop where
  lat : Given members "lat" IsNumber g.lat
  lon : Given members "lon" IsNumber g.lon
  geotile : GivenOr none members "geotile" (OrNull (As .string)) g.geotile

def ChronoMetadata.fields : List String := ["earliest_year", "latest_year"]

/-- The members describe the period. -/
@[mk_iff]
structure ChronoMetadata.Described (members : List (String × Json)) (c : ChronoMetadata) : Prop where
  earliestYear : Given members "earliest_year" IsInt64 c.earliestYear
  latestYear : Given members "latest_year" IsInt64 c.latestYear

def EntityMetadata.fields : List String := ["geo", "chrono"]

/-- The members describe the metadata. -/
@[mk_iff]
structure EntityMetadata.Described (members : List (String × Json)) (m : EntityMetadata) : Prop where
  geo : GivenOr none members "geo" (OrNull (IsRecord GeoMetadata.fields GeoMetadata.Described)) m.geo
  chrono : GivenOr none members "chrono"
    (OrNull (IsRecord ChronoMetadata.fields ChronoMetadata.Described)) m.chrono

namespace Entity

/-- The fields that an entity cannot be read without. -/
def requiredFields : List String := ["identifier", "canonical_uri", "slug", "label", "item_type"]

/-- All fields, in their order. -/
def fields : List String :=
  requiredFields ++ ["data_type", "parent_refs", "has_children", "related", "metadata"]

/-- The members describe the entity. -/
@[mk_iff]
structure Described (members : List (String × Json)) (e : Entity) : Prop where
  identifier : Given members "identifier" (As .string) e.identifier
  uri : Given members "canonical_uri" (As .string) e.uri
  slug : Given members "slug" (As .string) e.slug
  label : Given members "label" (As .string) e.label
  itemType : Given members "item_type" ItemType.IsValue e.itemType
  dataKind : GivenOr none members "data_type" (OrNull DataKind.IsValue) e.dataKind
  parents : GivenOr [] members "parent_refs" (As strings) e.parents
  hasChildren : GivenOr false members "has_children" (As .bool) e.hasChildren
  related : GivenOr false members "related" (As .bool) e.related
  metadata : GivenOr {} members "metadata"
    (IsRecord EntityMetadata.fields EntityMetadata.Described) e.metadata

/-- The fields that may be left out hold values of their types where they are there. -/
structure OthersTyped (members : List (String × Json)) : Prop where
  dataKind : WellTyped members "data_type" (OrNull DataKind.IsValue)
  parents : WellTyped members "parent_refs" (As strings)
  hasChildren : WellTyped members "has_children" (As .bool)
  related : WellTyped members "related" (As .bool)
  metadata : WellTyped members "metadata" (IsRecord EntityMetadata.fields EntityMetadata.Described)

end Entity

/-! ## Reading -/

theorem ItemType.ofName_eq_iff (name : String) (t : ItemType) : ofName name = t ↔ IsNamed name t := by
  have hname : ∀ known : ItemType, ofName known.name = known := by
    intro known
    cases known <;> rfl
  constructor
  · rintro rfl
    by_cases hknown : ∃ known : ItemType, known.name = name
    · obtain ⟨known, rfl⟩ := hknown
      exact .inl (congrArg ItemType.name (hname known))
    · refine .inr ⟨?_, not_exists.1 hknown⟩
      rw [ofName, List.find?_eq_none.2 fun known _ => by simpa using not_exists.1 hknown known]
      rfl
  · rintro (rfl | ⟨rfl, hunknown⟩)
    · exact hname t
    · rw [ofName, List.find?_eq_none.2 fun known _ => by simpa using hunknown known]
      rfl

theorem DataKind.ofSuffix?_suffix (kind : DataKind) : ofSuffix? kind.suffix = some kind := by
  cases kind <;> rfl

theorem DataKind.ofSuffix?_eq_some_iff (suffix : String) (kind : DataKind) :
    ofSuffix? suffix = some kind ↔ suffix = kind.suffix := by
  constructor
  · intro h
    have hfound := List.find?_some h
    exact (of_decide_eq_true hfound).symm
  · rintro rfl
    exact ofSuffix?_suffix kind

theorem DataKind.ofJson?_eq_some_iff (value : Json) (kind : DataKind) :
    DataKind.ofJson? value = some kind ↔ IsValue value kind := by
  simp only [DataKind.ofJson?, Option.bind_eq_some_iff, choice?_eq_some_iff, ofSuffix?_eq_some_iff]
  constructor
  · rintro ⟨_, hchoice, rfl⟩
    exact hchoice
  · exact fun h => ⟨_, h, rfl⟩

theorem GeoMetadata.ofJson?_eq_some_iff (value : Json) (g : GeoMetadata) :
    GeoMetadata.ofJson? value = some g ↔ IsRecord fields Described value g := by
  refine bind_record?_eq_some_iff (by decide) (fun r members h g => ?_) value g
  simp only [Option.bind_eq_bind, Option.bind_eq_some_iff, Option.pure_def, Option.some.injEq,
    h.required_eq_some_iff (by decide : "lat" ∈ fields) binary64?_eq_some_iff,
    h.required_eq_some_iff (by decide : "lon" ∈ fields) binary64?_eq_some_iff,
    h.optional_eq_some_iff (by decide : "geotile" ∈ fields) string?_eq_some_iff rfl]
  constructor
  · rintro ⟨lat, hlat, lon, hlon, geotile, hgeotile, rfl⟩
    exact ⟨hlat, hlon, hgeotile⟩
  · rintro ⟨hlat, hlon, hgeotile⟩
    exact ⟨_, hlat, _, hlon, _, hgeotile, rfl⟩

theorem ChronoMetadata.ofJson?_eq_some_iff (value : Json) (c : ChronoMetadata) :
    ChronoMetadata.ofJson? value = some c ↔ IsRecord fields Described value c := by
  refine bind_record?_eq_some_iff (by decide) (fun r members h c => ?_) value c
  simp only [Option.bind_eq_bind, Option.bind_eq_some_iff, Option.pure_def, Option.some.injEq,
    h.required_eq_some_iff (by decide : "earliest_year" ∈ fields) int64?_eq_some_iff,
    h.required_eq_some_iff (by decide : "latest_year" ∈ fields) int64?_eq_some_iff]
  constructor
  · rintro ⟨earliest, hearliest, latest, hlatest, rfl⟩
    exact ⟨hearliest, hlatest⟩
  · rintro ⟨hearliest, hlatest⟩
    exact ⟨_, hearliest, _, hlatest, rfl⟩

theorem EntityMetadata.ofJson?_eq_some_iff (value : Json) (m : EntityMetadata) :
    EntityMetadata.ofJson? value = some m ↔ IsRecord fields Described value m := by
  refine bind_record?_eq_some_iff (by decide) (fun r members h m => ?_) value m
  simp only [Option.bind_eq_bind, Option.bind_eq_some_iff, Option.pure_def, Option.some.injEq,
    h.optional_eq_some_iff (by decide : "geo" ∈ fields) GeoMetadata.ofJson?_eq_some_iff rfl,
    h.optional_eq_some_iff (by decide : "chrono" ∈ fields) ChronoMetadata.ofJson?_eq_some_iff rfl]
  constructor
  · rintro ⟨geo, hgeo, chrono, hchrono, rfl⟩
    exact ⟨hgeo, hchrono⟩
  · rintro ⟨hgeo, hchrono⟩
    exact ⟨_, hgeo, _, hchrono, rfl⟩

namespace Entity

/-- An entity is read from the records that describe it. -/
theorem ofJson?_eq_some_iff (value : Json) (e : Entity) :
    ofJson? value = some e ↔ IsRecord fields Described value e := by
  refine bind_record?_eq_some_iff (by decide) (fun r members h e => ?_) value e
  simp only [Option.bind_eq_bind, Option.bind_eq_some_iff, Option.pure_def, Option.some.injEq,
    h.required_eq_some_iff (by decide : "identifier" ∈ fields) string?_eq_some_iff,
    h.required_eq_some_iff (by decide : "canonical_uri" ∈ fields) string?_eq_some_iff,
    h.required_eq_some_iff (by decide : "slug" ∈ fields) string?_eq_some_iff,
    h.required_eq_some_iff (by decide : "label" ∈ fields) string?_eq_some_iff,
    h.required_eq_some_iff (by decide : "item_type" ∈ fields) choice?_eq_some_iff,
    h.optional_eq_some_iff (by decide : "data_type" ∈ fields) DataKind.ofJson?_eq_some_iff rfl,
    h.withDefault_eq_some_iff (by decide : "parent_refs" ∈ fields) strings?_eq_some_iff,
    h.withDefault_eq_some_iff (by decide : "has_children" ∈ fields) bool?_eq_some_iff,
    h.withDefault_eq_some_iff (by decide : "related" ∈ fields) bool?_eq_some_iff,
    h.withDefault_eq_some_iff (by decide : "metadata" ∈ fields) EntityMetadata.ofJson?_eq_some_iff]
  constructor
  · rintro ⟨identifier, hidentifier, uri, huri, slug, hslug, label, hlabel, name, ⟨value, hmem, hname⟩,
      kind, hkind, parents, hparents, children, hchildren, related, hrelated, metadata, hmetadata, rfl⟩
    exact ⟨hidentifier, huri, hslug, hlabel,
      ⟨value, hmem, name, hname, (ItemType.ofName_eq_iff _ _).1 rfl⟩, hkind, hparents, hchildren,
      hrelated, hmetadata⟩
  · rintro ⟨hidentifier, huri, hslug, hlabel, ⟨value, hmem, name, hname, hnamed⟩, hkind, hparents,
      hchildren, hrelated, hmetadata⟩
    rw [← ItemType.ofName_eq_iff] at hnamed
    refine ⟨_, hidentifier, _, huri, _, hslug, _, hlabel, _, ⟨value, hmem, hname⟩, _, hkind, _,
      hparents, _, hchildren, _, hrelated, _, hmetadata, ?_⟩
    rw [hnamed]

/-- An object without repeated fields is read when it has the required ones as texts and the others are
    well typed where they are there. -/
theorem exists_described {members : List (String × Json)}
    (hrequired : ∀ name ∈ requiredFields, ∃ text, (name, .string text) ∈ members)
    (hothers : OthersTyped members) : ∃ e, Described members e := by
  obtain ⟨identifier, hidentifier⟩ := hrequired "identifier" (by decide)
  obtain ⟨uri, huri⟩ := hrequired "canonical_uri" (by decide)
  obtain ⟨slug, hslug⟩ := hrequired "slug" (by decide)
  obtain ⟨label, hlabel⟩ := hrequired "label" (by decide)
  obtain ⟨type, htype⟩ := hrequired "item_type" (by decide)
  obtain ⟨kind, hkind⟩ := hothers.dataKind.exists_givenOr none
  obtain ⟨parents, hparents⟩ := hothers.parents.exists_givenOr []
  obtain ⟨children, hchildren⟩ := hothers.hasChildren.exists_givenOr false
  obtain ⟨related, hrelated⟩ := hothers.related.exists_givenOr false
  obtain ⟨metadata, hmetadata⟩ := hothers.metadata.exists_givenOr {}
  exact ⟨⟨identifier, uri, slug, label, ItemType.ofName type, kind, parents, children, related, metadata⟩,
    ⟨_, hidentifier, rfl⟩, ⟨_, huri, rfl⟩, ⟨_, hslug, rfl⟩, ⟨_, hlabel, rfl⟩,
    ⟨_, htype, type, .inl rfl, (ItemType.ofName_eq_iff _ _).1 rfl⟩, hkind, hparents, hchildren,
    hrelated, hmetadata⟩

end Entity

end FacetSearch
