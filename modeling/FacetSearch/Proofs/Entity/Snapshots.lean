import FacetSearch.Proofs.Ancestry.Recognition
import FacetSearch.Proofs.Entity.Records
import FacetSearch.Proofs.Json.Printing

set_option autoImplicit false

/-! # Snapshots of entities

What is written of an entity leaves out an absent kind, place, period or tile, and is still a record of
this entity and of no other (`Entity.isRecord_toJson_iff`), so it is read back
(`Entity.ofJson?_toJson_iff`). A coordinate that is no number cannot be written.

A snapshot is the text of that value. Strings and years are read back from their texts; a coordinate may
come back as a neighbour, since its text is rounded when it is read, so `Entity.PlaceIsExact` asks that it
does not. Then nothing in a lookup depends on whether the cache or the catalogue had the entity
(`runsAlike_of_snapshot`). -/

namespace FacetSearch

open Json

/-! ## Fields that are left out -/

namespace Json

variable {α : Type} {members : List (String × Json)} {name : String}

theorem mem_dropNulls {value : Json} :
    (name, value) ∈ dropNulls members ↔ (name, value) ∈ members ∧ value ≠ .null := by
  rw [dropNulls, List.mem_filter]
  cases value <;> simp

theorem sublist_dropNulls (members : List (String × Json)) :
    ((dropNulls members).map Prod.fst).Sublist (members.map Prod.fst) :=
  List.filter_sublist.map _

/-- What is written where it is there, and left out where it is not, is what the field holds as far as it
    is what the written value holds. -/
theorem givenOr_ofOption_iff (write : α → Json) {holds : Json → α → Prop} {found : Option α}
    (hmem : ∀ value, (name, value) ∈ members ↔ value = ofOption write found ∧ value ≠ .null)
    (hwrite : ∀ x, write x ≠ .null) :
    GivenOr none members name (OrNull holds) found ↔ ∀ x, found = some x → holds (write x) x := by
  cases found with
  | none =>
      refine iff_of_true (.inr ⟨fun value hvalue => ?_, rfl⟩) (by simp)
      obtain ⟨hnull, hne⟩ := (hmem value).1 hvalue
      exact hne hnull
  | some x =>
      have hthere : ∀ value, (name, value) ∈ members ↔ value = write x := by
        intro value
        rw [hmem]
        exact ⟨And.left, fun h => ⟨h, h ▸ hwrite x⟩⟩
      rw [givenOr_iff_of_mem hthere]
      simp [OrNull, hwrite x]

theorem Printable.ofOption {levels : Nat} {write : α → Json} {found : Option α}
    (h : ∀ x, found = some x → Printable levels (write x)) : Printable levels (ofOption write found) := by
  cases found with
  | none => exact .null levels
  | some x => exact h x rfl

theorem Printable.strings (levels : Nat) (texts : List String) :
    Printable (levels + 1) (Json.strings texts) :=
  .array fun _ hitem => by
    obtain ⟨text, -, rfl⟩ := List.mem_map.1 hitem
    exact .string levels text

end Json

/-! ## Places and periods -/

namespace GeoMetadata

/-- The coordinates are numbers. -/
def IsFinite (g : GeoMetadata) : Prop := g.lat.isFinite = true ∧ g.lon.isFinite = true

/-- The coordinates are read back from their texts. -/
def IsExact (g : GeoMetadata) : Prop := ReadsBack (.real g.lat) ∧ ReadsBack (.real g.lon)

variable {g : GeoMetadata}

theorem IsExact.isFinite (h : g.IsExact) : g.IsFinite :=
  ⟨isFinite_of_readsBack h.1, isFinite_of_readsBack h.2⟩

theorem coordinateJson_of_isFinite {x : Binary64} (h : x.isFinite = true) :
    coordinateJson x = .number (.real x) := if_pos h

theorem isNumber_coordinateJson_iff {x : Binary64} :
    IsNumber (coordinateJson x) x ↔ x.isFinite = true := by
  unfold IsNumber coordinateJson
  split
  · next h => exact iff_of_true ⟨.real x, rfl, rfl⟩ h
  · next h => exact iff_of_false (by simp) h

theorem isRecord_toJson_iff : IsRecord fields Described g.toJson g ↔ g.IsFinite := by
  have htwice : NoneTwice fields g.toJson.members := by
    refine .of_sublist (by decide) ?_
    rw [toJson, members, List.map_append]
    exact (List.Sublist.refl _).append (sublist_dropNulls _)
  have hlat : ("lat", coordinateJson g.lat) ∈ g.toJson.members := by simp [toJson, members]
  have hlon : ("lon", coordinateJson g.lon) ∈ g.toJson.members := by simp [toJson, members]
  have hgeotile : ∀ value, ("geotile", value) ∈ g.toJson.members
      ↔ value = ofOption .string g.geotile ∧ value ≠ .null := by
    simp [toJson, members, mem_dropNulls]
  refine (isRecord_object_iff : IsRecord fields Described (.object g.toJson.members) g ↔ _).trans ?_
  rw [and_iff_right htwice, described_iff, htwice.given_iff (by decide) hlat,
    htwice.given_iff (by decide) hlon, givenOr_ofOption_iff .string hgeotile (by simp),
    isNumber_coordinateJson_iff, isNumber_coordinateJson_iff]
  simp [IsFinite, As]

theorem printable_toJson (h : g.IsExact) (levels : Nat) : Printable (levels + 1) g.toJson := by
  refine .object fun member hmember => ?_
  obtain ⟨name, value⟩ := member
  rw [coordinateJson_of_isFinite h.isFinite.1, coordinateJson_of_isFinite h.isFinite.2] at hmember
  simp only [List.mem_append, mem_dropNulls, List.mem_cons, List.not_mem_nil, or_false,
    Prod.mk.injEq] at hmember
  rcases hmember with (⟨-, rfl⟩ | ⟨-, rfl⟩) | ⟨⟨-, rfl⟩, -⟩
  · exact .number levels h.1
  · exact .number levels h.2
  · exact .ofOption fun text _ => .string levels text

end GeoMetadata

namespace ChronoMetadata

/-- The years are signed 64-bit numbers. -/
def Fits (c : ChronoMetadata) : Prop :=
  Decimal.fitsInt64 c.earliestYear = true ∧ Decimal.fitsInt64 c.latestYear = true

variable {c : ChronoMetadata}

theorem isRecord_toJson_iff : IsRecord fields Described c.toJson c ↔ c.Fits := by
  have htwice : NoneTwice fields c.toJson.members := .of_sublist (by decide) (List.Sublist.refl _)
  have hearliest : ("earliest_year", .number (.integer c.earliestYear)) ∈ c.toJson.members := by
    simp [toJson, members]
  have hlatest : ("latest_year", .number (.integer c.latestYear)) ∈ c.toJson.members := by
    simp [toJson, members]
  refine (isRecord_object_iff : IsRecord fields Described (.object c.toJson.members) c ↔ _).trans ?_
  rw [and_iff_right htwice, described_iff, htwice.given_iff (by decide) hearliest,
    htwice.given_iff (by decide) hlatest]
  simp [IsInt64, Fits]

theorem printable_toJson (h : c.Fits) (levels : Nat) : Printable (levels + 1) c.toJson := by
  refine .object fun member hmember => ?_
  rcases List.mem_pair.1 hmember with rfl | rfl
  · exact .number levels (readsBack_of_fitsInt64 h.1)
  · exact .number levels (readsBack_of_fitsInt64 h.2)

end ChronoMetadata

namespace EntityMetadata

variable {m : EntityMetadata}

theorem isRecord_toJson_iff : IsRecord fields Described m.toJson m
    ↔ (∀ g, m.geo = some g → g.IsFinite) ∧ ∀ c, m.chrono = some c → c.Fits := by
  have htwice : NoneTwice fields m.toJson.members := .of_sublist (by decide) (sublist_dropNulls _)
  have hgeo : ∀ value, ("geo", value) ∈ m.toJson.members
      ↔ value = ofOption GeoMetadata.toJson m.geo ∧ value ≠ .null := by
    simp [toJson, members, mem_dropNulls]
  have hchrono : ∀ value, ("chrono", value) ∈ m.toJson.members
      ↔ value = ofOption ChronoMetadata.toJson m.chrono ∧ value ≠ .null := by
    simp [toJson, members, mem_dropNulls]
  refine (isRecord_object_iff : IsRecord fields Described (.object m.toJson.members) m ↔ _).trans ?_
  rw [and_iff_right htwice, described_iff,
    givenOr_ofOption_iff GeoMetadata.toJson hgeo (by simp [GeoMetadata.toJson]),
    givenOr_ofOption_iff ChronoMetadata.toJson hchrono (by simp [ChronoMetadata.toJson])]
  simp only [GeoMetadata.isRecord_toJson_iff, ChronoMetadata.isRecord_toJson_iff]

theorem printable_toJson (hgeo : ∀ g, m.geo = some g → g.IsExact)
    (hchrono : ∀ c, m.chrono = some c → c.Fits) (levels : Nat) : Printable (levels + 2) m.toJson := by
  refine .object fun member hmember => ?_
  obtain ⟨name, value⟩ := member
  simp only [mem_dropNulls, List.mem_cons, List.not_mem_nil, or_false, Prod.mk.injEq] at hmember
  rcases hmember with ⟨⟨-, rfl⟩ | ⟨-, rfl⟩, -⟩
  · exact .ofOption fun g hg => GeoMetadata.printable_toJson (hgeo g hg) levels
  · exact .ofOption fun c hc => ChronoMetadata.printable_toJson (hchrono c hc) levels

end EntityMetadata

/-! ## Entities -/

namespace Entity

/-- The coordinates, if there are any, are numbers. -/
def PlaceIsFinite (e : Entity) : Prop := ∀ g, e.metadata.geo = some g → g.IsFinite

/-- The coordinates, if there are any, are read back from their texts. -/
def PlaceIsExact (e : Entity) : Prop := ∀ g, e.metadata.geo = some g → g.IsExact

/-- The years, if there are any, are signed 64-bit numbers. -/
def YearsFit (e : Entity) : Prop := ∀ c, e.metadata.chrono = some c → c.Fits

variable {e : Entity}

theorem isRecord_toJson_iff :
    IsRecord fields Described e.toJson e ↔ e.PlaceIsFinite ∧ e.YearsFit := by
  have htwice : NoneTwice fields e.toJson.members := by
    refine .of_sublist (by decide) ?_
    rw [toJson, members, List.map_append, List.map_append]
    exact ((List.Sublist.refl _).append (sublist_dropNulls _)).append (List.Sublist.refl _)
  have hidentifier : ("identifier", .string e.identifier) ∈ e.toJson.members := by simp [toJson, members]
  have huri : ("canonical_uri", .string e.uri) ∈ e.toJson.members := by simp [toJson, members]
  have hslug : ("slug", .string e.slug) ∈ e.toJson.members := by simp [toJson, members]
  have hlabel : ("label", .string e.label) ∈ e.toJson.members := by simp [toJson, members]
  have htype : ("item_type", .string e.itemType.name) ∈ e.toJson.members := by simp [toJson, members]
  have hkind : ∀ value, ("data_type", value) ∈ e.toJson.members
      ↔ value = ofOption (fun kind : DataKind => .string kind.suffix) e.dataKind ∧ value ≠ .null := by
    simp [toJson, members, mem_dropNulls]
  have hparents : ("parent_refs", .strings e.parents) ∈ e.toJson.members := by simp [toJson, members]
  have hchildren : ("has_children", .bool e.hasChildren) ∈ e.toJson.members := by simp [toJson, members]
  have hrelated : ("related", .bool e.related) ∈ e.toJson.members := by simp [toJson, members]
  have hmetadata : ("metadata", e.metadata.toJson) ∈ e.toJson.members := by simp [toJson, members]
  have hnamed : ItemType.IsValue (.string e.itemType.name) e.itemType := ⟨_, .inl rfl, .inl rfl⟩
  have hsuffix (kind : DataKind) : DataKind.IsValue (.string kind.suffix) kind := .inl rfl
  refine (isRecord_object_iff : IsRecord fields Described (.object e.toJson.members) e ↔ _).trans ?_
  rw [and_iff_right htwice, described_iff, htwice.given_iff (by decide) hidentifier,
    htwice.given_iff (by decide) huri, htwice.given_iff (by decide) hslug,
    htwice.given_iff (by decide) hlabel, htwice.given_iff (by decide) htype,
    givenOr_ofOption_iff _ hkind (by simp), htwice.givenOr_iff (by decide) hparents,
    htwice.givenOr_iff (by decide) hchildren, htwice.givenOr_iff (by decide) hrelated,
    htwice.givenOr_iff (by decide) hmetadata, EntityMetadata.isRecord_toJson_iff]
  simp [As, PlaceIsFinite, YearsFit, hnamed, hsuffix]

/-- **An entity is read back from its value** exactly when its coordinates are numbers and its years have
    64 bits. -/
theorem ofJson?_toJson_iff : ofJson? e.toJson = some e ↔ e.PlaceIsFinite ∧ e.YearsFit :=
  (ofJson?_eq_some_iff _ _).trans isRecord_toJson_iff

theorem printable_toJson (hplace : e.PlaceIsExact) (hyears : e.YearsFit) (levels : Nat) :
    Printable (levels + 3) e.toJson := by
  refine .object fun member hmember => ?_
  obtain ⟨name, value⟩ := member
  simp only [List.mem_append, mem_dropNulls, List.mem_cons, List.not_mem_nil, or_false,
    Prod.mk.injEq] at hmember
  rcases hmember with ((⟨-, rfl⟩ | ⟨-, rfl⟩ | ⟨-, rfl⟩ | ⟨-, rfl⟩ | ⟨-, rfl⟩) | ⟨⟨-, rfl⟩, -⟩) |
    ⟨-, rfl⟩ | ⟨-, rfl⟩ | ⟨-, rfl⟩ | ⟨-, rfl⟩
  · exact .string _ _
  · exact .string _ _
  · exact .string _ _
  · exact .string _ _
  · exact .string _ _
  · exact .ofOption fun kind _ => .string _ _
  · exact .strings _ _
  · exact .bool _ _
  · exact .bool _ _
  · exact EntityMetadata.printable_toJson hplace hyears levels

/-- Members that are no fields are ignored. -/
theorem ofJson?_object_congr {members others : List (String × Json)}
    (h : known fields others = known fields members) :
    ofJson? (.object others) = ofJson? (.object members) := by
  change (record? fields (.object others)).bind _ = (record? fields (.object members)).bind _
  rw [record?_object_congr h]

/-- What a value says is read from its text as well. -/
theorem ofSnapshot?_compact {value : Json} (h : Printable maxNesting value) :
    ofSnapshot? value.compact = ofJson? value := by
  rw [ofSnapshot?, parse?_compact h, Option.bind_some]

/-- **An entity is read back from its snapshot**, when its coordinates are read back from their texts. -/
theorem ofSnapshot?_snapshot (hplace : e.PlaceIsExact) (hyears : e.YearsFit) :
    ofSnapshot? e.snapshot = some e := by
  have hprintable : Printable maxNesting e.toJson := printable_toJson hplace hyears 124
  rw [snapshot, ofSnapshot?_compact hprintable, ofJson?_toJson_iff]
  exact ⟨fun g hg => (hplace g hg).isFinite, hyears⟩

end Entity

/-! ## Lookups -/

section

variable {σ α : Type}

/-- The cache has nothing for a name, and the catalogue has the entity. -/
def Backing.Misses (b : Backing σ) (space name : String) (e : Entity) (world : σ) : Prop :=
  (b.cached space name world).1 = none ∧ (b.find name (b.cached space name world).2).1 = .ok (some e)

/-- The steps come to the same result and leave the same memory. -/
def RunsAlike (l : Lookups σ α) (x y : Session σ) : Prop :=
  ((l.run).run x).1 = ((l.run).run y).1 ∧ ((l.run).run x).2.memo = ((l.run).run y).2.memo

variable {b : Backing σ} {s : ResolverSettings} {raw : String} {e : Entity}

/-- Where the cache or the catalogue has the entity, a name is looked up as in a catalogue that has it. -/
theorem look_of_cached_or_misses {x : Session σ}
    (h : (b.cached s.cacheSpace (Text.trim raw) x.world).1 = some e ∨
      b.Misses s.cacheSpace (Text.trim raw) e x.world) :
    (((resolve? b s raw).run).run x).1 = (x.memo.look s (fun _ => .ok (some e)) raw).1 ∧
      (((resolve? b s raw).run).run x).2.memo = (x.memo.look s (fun _ => .ok (some e)) raw).2 := by
  have hrun := resolved_resolve? b s raw x
  generalize ((resolve? b s raw).run).run x = result at hrun ⊢
  unfold Memo.look
  cases hrun with
  | skipped hskip => simp [hskip]
  | known hname hknown => simp [hname.skips, hknown]
  | cached hname hnew hcached =>
      rcases h with hhit | ⟨hmiss, -⟩
      · obtain rfl := Option.some.inj (hcached.symm.trans hhit)
        simp [hname.skips, hnew]
      · exact absurd (hcached.symm.trans hmiss) (by simp)
  | found hname hnew hnone hfound =>
      rcases h with hhit | ⟨-, hfind⟩
      · exact absurd (hnone.symm.trans hhit) (by simp)
      · obtain rfl := Except.ok.inj (hfound.symm.trans hfind)
        simp [hname.skips, hnew]
  | failed hname hnew hnone hfailed =>
      rcases h with hhit | ⟨-, hfind⟩
      · exact absurd (hnone.symm.trans hhit) (by simp)
      · exact absurd (hfailed.symm.trans hfind) (by simp)

/-- **It makes no difference whether the cache or the catalogue has an entity.** -/
theorem runsAlike_of_snapshot (hplace : e.PlaceIsExact) (hyears : e.YearsFit) (memo : Memo)
    {hit miss : σ}
    (hhit : (b.fetch (Lru.key s.cacheSpace (Text.trim raw)) hit).1 = some e.snapshot)
    (hmiss : b.Misses s.cacheSpace (Text.trim raw) e miss) :
    RunsAlike (resolve? b s raw) ⟨memo, hit⟩ ⟨memo, miss⟩ := by
  have hcached : (b.cached s.cacheSpace (Text.trim raw) hit).1 = some e := by
    rw [Backing.cached, hhit, Option.bind_some, Entity.ofSnapshot?_snapshot hplace hyears]
  have hlookHit := look_of_cached_or_misses (x := ⟨memo, hit⟩) (.inl hcached)
  have hlookMiss := look_of_cached_or_misses (x := ⟨memo, miss⟩) (.inr hmiss)
  exact ⟨hlookHit.1.trans hlookMiss.1.symm, hlookHit.2.trans hlookMiss.2.symm⟩

end

/-! ## Snapshots survive -/

namespace Entity

/-- **Snapshots survive the cache.** An entity whose coordinates are numbers is read back from its value.
    It is read back from its text too, as far as the texts of its coordinates are exact, and then a resolver
    cannot tell a cache that has the text from a catalogue that has the entity.

    An object is read as the entity that its members describe. It is read when its fields are not repeated,
    the required ones are strings and the others have their types or are left out; members that are no
    fields change nothing. -/
theorem snapshots_survive :
    (∀ e : Entity, ofJson? e.toJson = some e ↔ e.PlaceIsFinite ∧ e.YearsFit) ∧
    (∀ e : Entity, e.PlaceIsExact → e.YearsFit →
      ofSnapshot? e.snapshot = some e ∧
      ∀ {σ : Type} (b : Backing σ) (s : ResolverSettings) (raw : String) (memo : Memo) (hit miss : σ),
        (b.fetch (Lru.key s.cacheSpace (Text.trim raw)) hit).1 = some e.snapshot →
        b.Misses s.cacheSpace (Text.trim raw) e miss →
        RunsAlike (resolve? b s raw) ⟨memo, hit⟩ ⟨memo, miss⟩) ∧
    ∀ members : List (String × Json),
      (∀ e, ofJson? (.object members) = some e ↔ NoneTwice fields members ∧ Described members e) ∧
      (NoneTwice fields members → (∀ name ∈ requiredFields, ∃ text, (name, .string text) ∈ members) →
        OthersTyped members → ∃ e, ofJson? (.object members) = some e) ∧
      ∀ others, known fields others = known fields members →
        ofJson? (.object others) = ofJson? (.object members) := by
  refine ⟨fun _ => ofJson?_toJson_iff, fun e hplace hyears => ⟨ofSnapshot?_snapshot hplace hyears, ?_⟩,
    fun members => ?_⟩
  · intro σ b s raw memo hit miss hhit hmiss
    exact runsAlike_of_snapshot hplace hyears memo hhit hmiss
  · have hread (e : Entity) :
        ofJson? (.object members) = some e ↔ NoneTwice fields members ∧ Described members e :=
      (ofJson?_eq_some_iff _ e).trans isRecord_object_iff
    refine ⟨hread, fun htwice hrequired hothers => ?_, fun others hknown => ?_⟩
    · obtain ⟨e, he⟩ := exists_described hrequired hothers
      exact ⟨e, (hread e).2 ⟨htwice, he⟩⟩
    · exact ofJson?_object_congr hknown

/-- A harbour with all that an entity may have. -/
def harbour : Entity where
  identifier := "harbour"
  uri := "/subjects/harbour"
  slug := "old-harbour"
  label := "The \"old\" harbour"
  itemType := .other
  dataKind := some .date
  parents := ["coast", "bay", "coast"]
  hasChildren := true
  related := true
  metadata := {
    geo := some { lat := .ofRatio false 413 10, lon := .ofRatio true 0 1, geotile := some "0312" }
    chrono := some { earliestYear := -0x8000000000000000, latestYear := 0x7fffffffffffffff } }

/-- A catalogue with the harbour, and an empty cache. -/
def harbourDeployment : Deployment := { catalogue := .ofList [harbour], cache := .empty 8 }

/-- What is written of a lighthouse by someone who knows towers. -/
def lighthouse : List (String × Json) :=
  [("identifier", .string "light"), ("canonical_uri", .string "/towers/light"), ("slug", .string "light"),
    ("label", .string "Light"), ("item_type", .string "tower"), ("data_type", .null),
    ("parent_refs", .strings ["harbour"])]

theorem othersTyped_lighthouse : OthersTyped lighthouse where
  dataKind := by simp [WellTyped, lighthouse, OrNull]
  parents := by simp [WellTyped, lighthouse, As]
  hasChildren := by simp [WellTyped, lighthouse]
  related := by simp [WellTyped, lighthouse]
  metadata := by simp [WellTyped, lighthouse]

/-- The harbour survives, and the lighthouse is read, whatever is said of its colour. -/
theorem snapshots_survive_harbour :
    ofJson? harbour.toJson = some harbour ∧ ofSnapshot? harbour.snapshot = some harbour ∧
    RunsAlike (resolve? Deployment.backing {} "harbour")
      ⟨{}, (((resolve? Deployment.backing {} "harbour").run).run ⟨{}, harbourDeployment⟩).2.world⟩
      ⟨{}, harbourDeployment⟩ ∧
    ∃ e, ofJson? (.object (("colour", .string "red") :: lighthouse ++ [("colour", .null)])) = some e ∧
      e.itemType = .other ∧ e.dataKind = none ∧ e.parents = ["harbour"] ∧ e.metadata = {} := by
  have hplace : harbour.PlaceIsExact := by
    intro g hg
    obtain rfl := Option.some.inj hg
    exact ⟨by decide +kernel, by decide +kernel⟩
  have hyears : harbour.YearsFit := by
    intro c hc
    obtain rfl := Option.some.inj hc
    exact ⟨by decide, by decide⟩
  have hhit : (Deployment.backing.fetch (Lru.key "entity" (Text.trim "harbour"))
      (((resolve? Deployment.backing {} "harbour").run).run ⟨{}, harbourDeployment⟩).2.world).1
        = some harbour.snapshot := by decide +kernel
  have hmiss : Deployment.backing.Misses "entity" (Text.trim "harbour") harbour harbourDeployment :=
    ⟨by decide +kernel, congrArg Except.ok (by decide +kernel)⟩
  obtain ⟨hvalue, hsnapshot, hobject⟩ := snapshots_survive
  obtain ⟨-, haccepted, hignored⟩ := hobject lighthouse
  obtain ⟨htext, halike⟩ := hsnapshot harbour hplace hyears
  refine ⟨(hvalue harbour).2 ⟨fun g hg => (hplace g hg).isFinite, hyears⟩, htext,
    halike Deployment.backing {} "harbour" {} _ _ hhit hmiss, ?_⟩
  have htwice : NoneTwice fields lighthouse := by decide
  have hrequired : ∀ name ∈ requiredFields, ∃ text, (name, .string text) ∈ lighthouse := by
    simp [requiredFields, lighthouse]
  obtain ⟨e, he⟩ := haccepted htwice hrequired othersTyped_lighthouse
  have hlight : ofJson? (.object lighthouse) = some {
      identifier := "light", uri := "/towers/light", slug := "light", label := "Light"
      itemType := .other, parents := ["harbour"] } := rfl
  obtain rfl := Option.some.inj (he.symm.trans hlight)
  exact ⟨_, (hignored _ rfl).trans he, rfl, rfl, rfl, rfl⟩

end Entity

end FacetSearch
