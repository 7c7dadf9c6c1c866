import FacetSearch.Index.Statistics

set_option autoImplicit false

/-! # Index replies

What the index answers, and how a Solr reply body is read. A reply is read whole or not at all: an
error section wins over everything else, then the documents have to be there, then every list of facet
values has to consist of pairs of a value and a count. -/

namespace FacetSearch

/-! ## Replies -/

/-- A facet value and its number of documents. -/
structure FacetCount where
  value : String
  count : UInt64
deriving DecidableEq, Repr

/-- The buckets of a range facet, in the order in which they came. -/
structure RangeFacet where
  buckets : List FacetCount := []
  gap : Option String := none
  start : Option String := none
  stop : Option String := none
deriving DecidableEq, Repr

structure IndexReply where
  numFound : Nat := 0
  start : Nat := 0
  docs : List Json := []
  facetFields : Std.ExtTreeMap String (List FacetCount) := ∅
  facetRanges : Std.ExtTreeMap String RangeFacet := ∅
  stats : Std.ExtTreeMap String FieldStats := ∅
  /-- Snippets by document and field. -/
  highlighting : Std.ExtTreeMap String (Std.ExtTreeMap String (List String)) := ∅

/-- The statistics of a reply, as the full answer of the index. -/
def StatsTable.ofReply (reply : IndexReply) : StatsTable :=
  { fields := reply.stats, answered := true }

/-! ## Errors -/

/-- Why a reply section has the wrong shape. -/
inductive BadShape where
  | noResponse
  | oddEntries (field : String)
  | badCount (field : String)
deriving DecidableEq, Repr

inductive ReplyError where
  /-- The body is no JSON text of a reply. -/
  | json
  | shape (why : BadShape)
  /-- The index reported an error in place of results. -/
  | engine (text : String)
deriving DecidableEq, Repr

def BadShape.message : BadShape → String
  | noResponse => "missing response section"
  | oddEntries field => s!"facet '{field}' has an odd number of entries"
  | badCount field => s!"facet '{field}' has a non-integer count"

/-- The text of an error, where it has one of its own. -/
def ReplyError.message? : ReplyError → Option String
  | json => none
  | shape why => some s!"Unexpected response shape: {why.message}"
  | engine text => some s!"Search index error: {text}"

/-! ## Sections of a body -/

/-- The documents section. -/
structure SolrDocs where
  numFound : Nat
  start : Nat
  docs : List Json

/-- The range facet of one field, its values and counts in one flat list. -/
structure SolrRange where
  counts : List Json
  gap : Option Json
  start : Option Json
  stop : Option Json

structure SolrFacets where
  fields : Std.ExtTreeMap String (List Json)
  ranges : Std.ExtTreeMap String SolrRange

/-- A body whose sections have their declared types. -/
structure SolrBody where
  response : Option SolrDocs
  facets : Option SolrFacets
  stats : Option (Std.ExtTreeMap String (Option FieldStats))
  highlighting : Option (Std.ExtTreeMap String (Std.ExtTreeMap String (List String)))
  error : Option Json

def highlighting? :
    Json → Option (Std.ExtTreeMap String (Std.ExtTreeMap String (List String))) :=
  Json.map? (Json.map? (Json.list? Json.string?))

def values? : Json → Option (List Json) := Json.list? Json.value?

def SolrDocs.ofJson? (value : Json) : Option SolrDocs := do
  let r ← value.record? ["numFound", "start", "docs"]
  return {
    numFound := ← r.required "numFound" Json.word?
    start := ← r.withDefault "start" 0 Json.word?
    docs := ← r.withDefault "docs" [] values? }

def SolrRange.ofJson? (value : Json) : Option SolrRange := do
  let r ← value.record? ["counts", "gap", "start", "end"]
  return {
    counts := ← r.withDefault "counts" [] values?
    gap := ← r.named "gap" Json.value?
    start := ← r.named "start" Json.value?
    stop := ← r.named "end" Json.value? }

def SolrFacets.ofJson? (value : Json) : Option SolrFacets := do
  let r ← value.record? ["facet_fields", "facet_ranges"]
  return {
    fields := ← r.withDefault "facet_fields" ∅ (Json.map? values?)
    ranges := ← r.withDefault "facet_ranges" ∅ (Json.map? SolrRange.ofJson?) }

/-- The statistics section, where a field may have null. -/
def solrStats? (value : Json) : Option (Std.ExtTreeMap String (Option FieldStats)) := do
  let r ← value.record? ["stats_fields"]
  r.withDefault "stats_fields" ∅ (Json.map? (Json.Record.nullable FieldStats.ofJson?))

def SolrBody.ofJson? (value : Json) : Option SolrBody := do
  let r ← value.record? ["response", "facet_counts", "stats", "highlighting", "error"]
  return {
    response := ← r.named "response" SolrDocs.ofJson?
    facets := ← r.named "facet_counts" SolrFacets.ofJson?
    stats := ← r.named "stats" solrStats?
    highlighting := ← r.named "highlighting" highlighting?
    error := ← r.named "error" Json.value? }

/-! ## From a body to a reply -/

/-- The text of a value: a string as it is, all else as JSON. -/
def scalarText : Json → String
  | .string text => text
  | other => other.compact

/-- Pairs of a value and a count, from a flat list of even length. -/
def pairCounts (field : String) : List Json → Except BadShape (List FacetCount)
  | [] => .ok []
  | [_] => .error (.oddEntries field)
  | value :: count :: rest =>
    match count.count? with
    | none => .error (.badCount field)
    | some n => (pairCounts field rest).map (⟨scalarText value, n⟩ :: ·)

/-- The facet counts in a flat list. An odd length is found before any bad count. -/
def facetCounts (field : String) (flat : List Json) : Except BadShape (List FacetCount) :=
  if flat.length % 2 ≠ 0 then .error (.oddEntries field) else pairCounts field flat

/-- Read each entry of a map, in the order of its names, until one fails. -/
def readFields {α β : Type} (read : String → α → Except BadShape β)
    (held : Std.ExtTreeMap String α) : Except BadShape (Std.ExtTreeMap String β) :=
  held.toList.foldlM (fun done (field, value) => (read field value).map (done.insert field ·)) ∅

def SolrRange.facet (field : String) (range : SolrRange) : Except BadShape RangeFacet :=
  (facetCounts field range.counts).map fun buckets =>
    { buckets, gap := range.gap.map scalarText, start := range.start.map scalarText,
      stop := range.stop.map scalarText }

/-- What an error section says. -/
def engineText (error : Json) : String :=
  match error.get? "msg" with
  | some (.string text) => text
  | _ => error.compact

/-- The reply in a body whose sections have their declared types. -/
def SolrBody.reply (body : SolrBody) : Except ReplyError IndexReply := do
  if let some error := body.error then throw (.engine (engineText error))
  let some docs := body.response | throw (.shape .noResponse)
  let facets := body.facets.getD ⟨∅, ∅⟩
  let fields ← (readFields facetCounts facets.fields).mapError .shape
  let ranges ← (readFields SolrRange.facet facets.ranges).mapError .shape
  return {
    numFound := docs.numFound
    start := docs.start
    docs := docs.docs
    facetFields := fields
    facetRanges := ranges
    stats := (body.stats.getD ∅).map fun _ stats => stats.getD {}
    highlighting := body.highlighting.getD ∅ }

namespace IndexReply

/-- Read the body of a `select` call. -/
def ofSolr (body : String) : Except ReplyError IndexReply :=
  match (Json.parse? body).bind SolrBody.ofJson? with
  | none => .error .json
  | some sections => sections.reply

end IndexReply

/-! ## JSON -/

def FacetCount.ofJson? (value : Json) : Option FacetCount := do
  let r ← value.record? ["value", "count"]
  return {
    value := ← r.required "value" Json.string?
    count := ← r.required "count" Json.count? }

def FacetCount.toJson (c : FacetCount) : Json :=
  .object [("value", .string c.value), ("count", .ofNat c.count.toNat)]

def RangeFacet.ofJson? (value : Json) : Option RangeFacet := do
  let r ← value.record? ["buckets", "gap", "start", "end"]
  return {
    buckets := ← r.required "buckets" (Json.list? FacetCount.ofJson?)
    gap := ← r.named "gap" Json.string?
    start := ← r.named "start" Json.string?
    stop := ← r.named "end" Json.string? }

def RangeFacet.toJson (f : RangeFacet) : Json :=
  let text := Json.ofOption Json.string
  .object (("buckets", .array (f.buckets.map FacetCount.toJson))
    :: Json.dropNulls [("gap", text f.gap), ("start", text f.start), ("end", text f.stop)])

namespace IndexReply

def ofJson? (value : Json) : Option IndexReply := do
  let r ← value.record? ["num_found", "start", "docs", "facet_fields", "facet_ranges", "stats",
    "highlighting"]
  return {
    numFound := ← r.required "num_found" Json.word?
    start := ← r.withDefault "start" 0 Json.word?
    docs := ← r.withDefault "docs" [] values?
    facetFields := ← r.withDefault "facet_fields" ∅ (Json.map? (Json.list? FacetCount.ofJson?))
    facetRanges := ← r.withDefault "facet_ranges" ∅ (Json.map? RangeFacet.ofJson?)
    stats := ← r.withDefault "stats" ∅ (Json.map? FieldStats.ofJson?)
    highlighting := ← r.withDefault "highlighting" ∅ highlighting? }

def toJson (reply : IndexReply) : Json :=
  .object [
    ("num_found", .ofNat reply.numFound),
    ("start", .ofNat reply.start),
    ("docs", .array reply.docs),
    ("facet_fields", .ofMap (fun counts => .array (counts.map FacetCount.toJson))
      reply.facetFields),
    ("facet_ranges", .ofMap RangeFacet.toJson reply.facetRanges),
    ("stats", .ofMap FieldStats.toJson reply.stats),
    ("highlighting", .ofMap (Json.ofMap Json.strings) reply.highlighting)]

end IndexReply

/-! ## Failures of the connection -/

/-- Why the index gave no reply. Each of these fails the whole search. -/
inductive EngineError where
  | timeout (milliseconds : Nat)
  | connection (why : String)
  /-- The index answered with a status that is no success. -/
  | status (code : Nat) (body : String)
  | decode (error : ReplyError)
deriving DecidableEq, Repr

/-- The text of a failure, where it has one of its own. -/
def EngineError.message? : EngineError → Option String
  | timeout milliseconds => some s!"Search index timed out after {milliseconds} ms"
  | connection why => some s!"Search index unreachable: {why}"
  | status code body => some s!"Search index returned {code}: {body}"
  | decode error => error.message?.map ("Undecodable search response: " ++ ·)

end FacetSearch
