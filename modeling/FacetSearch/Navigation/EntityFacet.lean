import FacetSearch.Ancestry.Inquiry
import FacetSearch.Compilation.Settings
import FacetSearch.Index.Reply
import FacetSearch.Navigation.Link
import FacetSearch.Navigation.Page

set_option autoImplicit false

/-! # Facets of entities

The index returns the values of such a facet as `slug___kind___uri___label`. Options are the values
that are not filtered on yet, in the order of the index and up to a limit, grouped by the kind of what
lies below them. -/

namespace FacetSearch

/-! ## Values -/

/-- A facet value in its four parts. -/
structure CompositeValue where
  slug : String
  kind : DataKind
  uri : String
  label : String
deriving DecidableEq, Repr

/-- The parts of a value. A value without the layout is a slug, and an unknown kind is `id`. -/
def CompositeValue.parse (raw : String) : CompositeValue :=
  let parts := (Text.piecesUpTo Field.delimiter.toList 3 raw.toList).map String.ofList
  { slug := parts[0]?.getD ""
    kind := (parts[1]?.bind DataKind.ofSuffix?).getD .id
    uri := parts[2]?.getD ""
    label := parts[3]?.getD "" }

/-! ## What is filtered on -/

/-- The names in a value, alternatives and levels alike, without marks of related records. -/
def namesIn (s : CompilerSettings) (p : Parameter) (value : String) : List String :=
  let x := s.expansion p
  let segments := (x.cutLevels (match p.separator? with
    | some _ => x.bare value
    | none => value)).flatMap (Text.splitAt s.orDelimiter)
  ((segments.map Text.trim).filter (!·.isEmpty)).map fun name =>
    (Text.dropLead s.relatedMark name).getD name

/-- The names of an entity that an option can be told by. -/
def Entity.identities (e : Entity) : List String := [e.slug, e.uri]

/-- Everything that some names may be listed under: the names themselves, and the slug and the URI of
    each entity that answers to one. Empty texts tell nothing. -/
def identitiesOf : List String → Inquiry (List String)
  | [] => return []
  | name :: rest => do
    let own := match ← Inquiry.entity? name with
      | some e => name :: e.identities
      | none => [name]
    return own.filter (!·.isEmpty) ++ (← identitiesOf rest)

/-- What a parameter filters on. -/
def activeIdentities (s : CompilerSettings) (params : Params) (p : Parameter) :
    Inquiry (List String) :=
  identitiesOf ((params.values p.name).flatMap (namesIn s p))

/-- The value stands for something that is filtered on. -/
def CompositeValue.isAmong (v : CompositeValue) (identities : List String) : Bool :=
  identities.contains v.slug || (!v.uri.isEmpty && identities.contains v.uri)

/-! ## Options -/

/-- The label of the entity behind a name, or the name when there is none. -/
def labelFor (name : String) : Inquiry String := do
  match ← Inquiry.entity? name with
  | some e => return e.label
  | none => return name

/-- The values that can be options, with their counts. -/
def eligible (active : List String) (limit : Nat) (counts : List FacetCount) :
    List (CompositeValue × UInt64) :=
  ((counts.map fun c => (CompositeValue.parse c.value, c.count)).filter fun (v, _) =>
    !v.slug.isEmpty && !v.isAmong active).take limit

/-- The option that a value is, with its kind. -/
def optionOf (l : Links) (params : Params) (m : FacetMeta) (v : CompositeValue) (count : UInt64) :
    Inquiry (DataKind × FacetOption) := do
  let label ← if v.label.isEmpty then labelFor v.slug else pure v.label
  return (v.kind, {
    slug := v.slug, label, uri := v.uri, count
    link := l.filterLink (m.drill params v.slug) })

/-- Options by kind, each kind in the order of the options. -/
def groupOptions (options : List (DataKind × FacetOption)) : List OptionGroup :=
  DataKind.all.filterMap fun kind =>
    let own := (options.filter (·.1 = kind)).map (·.2)
    if own.isEmpty then none else some ⟨kind, own⟩

/-- The label of a facet at the top of a parameter. -/
def Parameter.label : Parameter → String
  | levels .context => "Context"
  | levels .predicate => "Descriptions"
  | levels .project => "Projects"
  | itemType => "Item type"
  | p => p.name

/-- The facet of some values, of which those in `active` are filtered on. -/
def entityFacet (l : Links) (params : Params) (m : FacetMeta) (active : List String) (limit : Nat)
    (counts : List FacetCount) : Inquiry EntityFacet := do
  let options ← (eligible active limit counts).mapM fun (v, count) => optionOf l params m v count
  return {
    field := m.field
    parameter := m.parameter.name
    label := m.parentLabel.getD m.parameter.label
    groups := groupOptions options }

/-! ## Item types -/

/-- The item types that a request filters on. -/
def activeTypes (s : CompilerSettings) (params : Params) : List ItemType :=
  ((params.values Parameter.itemType.name).flatMap (Text.splitAt s.orDelimiter)).filterMap
    ItemType.ofToken?

/-- The facet of item types, without those that are filtered on; unknown types stay. -/
def itemTypeFacet (l : Links) (params : Params) (active : List ItemType) (limit : Nat)
    (counts : List FacetCount) : EntityFacet :=
  let p := Parameter.itemType
  let listed := (counts.filter fun c =>
    ((ItemType.ofToken? c.value).all fun type => !active.contains type)).take limit
  let options : List FacetOption := listed.map fun c =>
    { slug := c.value, label := c.value, count := c.count
      link := l.filterLink (params.withValue p.name c.value) }
  { field := Field.itemType
    parameter := p.name
    label := p.label
    groups := groupOptions (options.map (DataKind.id, ·)) }

end FacetSearch
