import FacetSearch.Index.Request
import FacetSearch.Proofs.Number.Decimal

set_option autoImplicit false

/-! # What form parameters say

The form parameters of a request are a flat list, and every part of the request that an answer depends
on can be read off it again: each stands under a name of its own (`sentUnder_param`). The names that
range facets make of their fields are told apart by field and ending whatever the field is
(`fieldParam_inj`), and begin as no other name does. -/

namespace FacetSearch.IndexRequest

/-! ## Values by name -/

/-- The values that are sent under a name, in order. -/
def sentUnder (name : String) (params : List (String × String)) : List String :=
  (params.filter (·.1 = name)).map Prod.snd

theorem sentUnder_nil (name : String) : sentUnder name [] = [] := rfl

theorem sentUnder_cons (name key value : String) (rest : List (String × String)) :
    sentUnder name ((key, value) :: rest)
      = if key = name then value :: sentUnder name rest else sentUnder name rest := by
  by_cases hname : key = name <;> simp [sentUnder, hname]

theorem sentUnder_append (name : String) (front rest : List (String × String)) :
    sentUnder name (front ++ rest) = sentUnder name front ++ sentUnder name rest := by
  simp [sentUnder]

theorem sentUnder_flatMap {α : Type} (name : String) (params : α → List (String × String))
    (items : List α) :
    sentUnder name (items.flatMap params) = items.flatMap fun item => sentUnder name (params item) := by
  induction items with
  | nil => rfl
  | cons item rest ih => rw [List.flatMap_cons, sentUnder_append, ih, List.flatMap_cons]

/-- Values that all go under one name. -/
theorem sentUnder_map (name key : String) (values : List String) :
    sentUnder name (values.map fun value => (key, value)) = if key = name then values else [] := by
  induction values with
  | nil => simp [sentUnder]
  | cons value rest ih =>
      rw [List.map_cons, sentUnder_cons, ih]
      split <;> rfl

theorem sentUnder_section? (name : String) (present : Bool) (params : List (String × String)) :
    sentUnder name (section? present params) = if present then sentUnder name params else [] := by
  cases present <;> rfl

theorem count_eq_count_sentUnder (name value : String) (params : List (String × String)) :
    params.count (name, value) = (sentUnder name params).count value := by
  induction params with
  | nil => rfl
  | cons param rest ih =>
      obtain ⟨key, held⟩ := param
      rw [sentUnder_cons, List.count_cons, ih]
      by_cases hkey : key = name
      · simp [hkey, List.count_cons]
      · simp [hkey]

/-! ## Parameters of one field -/

/-- What is said about a range facet under a name of its own. -/
inductive RangeEntry where
  | start
  | stop
  | gap
  | order
deriving DecidableEq, Repr

namespace RangeEntry

def suffix : RangeEntry → String
  | start => ".facet.range.start"
  | stop => ".facet.range.end"
  | gap => ".facet.range.gap"
  | order => ".facet.sort"

/-- The value that is sent, where there is one. -/
def said (range : RangeRequest) : RangeEntry → Option String
  | start => some range.start
  | stop => some range.stop
  | gap => some range.gap
  | order => if range.sortByIndex then some "index" else none

/-- All of them, in the order in which they are sent. -/
def all : List RangeEntry := [start, stop, gap, order]

theorem eq_of_suffix {e e' : RangeEntry} (h : e.suffix.toList <:+ e'.suffix.toList) : e = e' := by
  revert h
  cases e <;> cases e' <;> decide

end RangeEntry

/-- The name under which something is said about a field. -/
def fieldParam (field : String) (e : RangeEntry) : String := "f." ++ field ++ e.suffix

/-- **The names tell field and entry**, even if the field ends as an entry does. -/
theorem fieldParam_inj {field field' : String} {e e' : RangeEntry} :
    fieldParam field e = fieldParam field' e' ↔ field = field' ∧ e = e' := by
  refine ⟨fun h => ?_, by rintro ⟨rfl, rfl⟩; rfl⟩
  have hlist : field.toList ++ e.suffix.toList = field'.toList ++ e'.suffix.toList := by
    simpa [fieldParam, String.append_assoc] using congrArg String.toList h
  have hentry : e = e' := by
    have hsuffix : e.suffix.toList <:+ field.toList ++ e.suffix.toList := List.suffix_append ..
    have hsuffix' : e'.suffix.toList <:+ field.toList ++ e.suffix.toList :=
      hlist ▸ List.suffix_append ..
    rcases List.suffix_or_suffix_of_suffix hsuffix hsuffix' with hle | hle
    · exact RangeEntry.eq_of_suffix hle
    · exact (RangeEntry.eq_of_suffix hle).symm
  subst hentry
  exact ⟨String.toList_inj.1 (List.append_cancel_right hlist), rfl⟩

theorem fieldParam_ne {name : String} (h : name.toList.take 2 ≠ ['f', '.']) (field : String)
    (e : RangeEntry) : name ≠ fieldParam field e := by
  rintro rfl
  exact h (by simp [fieldParam])

theorem rangeParams_eq (field : String) (range : RangeRequest) :
    rangeParams field range = ("facet.range", field)
      :: RangeEntry.all.flatMap fun e => (e.said range).toList.map fun value => (fieldParam field e, value) := by
  cases hsort : range.sortByIndex <;>
    simp [rangeParams, RangeEntry.all, RangeEntry.said, fieldParam, RangeEntry.suffix, hsort]

/-- Under a name that is not made of a field, only the field itself is sent. -/
theorem sentUnder_rangeParams_of_ne {name : String} (h : name.toList.take 2 ≠ ['f', '.'])
    (field : String) (range : RangeRequest) :
    sentUnder name (rangeParams field range) = if "facet.range" = name then [field] else [] := by
  have hnone : sentUnder name (RangeEntry.all.flatMap fun e =>
      (e.said range).toList.map fun value => (fieldParam field e, value)) = [] := by
    rw [sentUnder_flatMap, List.flatMap_eq_nil_iff]
    intro e _
    rw [sentUnder_map, if_neg (fieldParam_ne h field e).symm]
  rw [rangeParams_eq, sentUnder_cons, hnone]

theorem sentUnder_rangeParams (field field' : String) (e : RangeEntry) (range : RangeRequest) :
    sentUnder (fieldParam field e) (rangeParams field' range)
      = if field' = field then (e.said range).toList else [] := by
  have hname : "facet.range" ≠ fieldParam field e := fieldParam_ne (by decide) field e
  rw [rangeParams_eq, sentUnder_cons, if_neg hname, sentUnder_flatMap]
  simp only [sentUnder_map, fieldParam_inj]
  by_cases hfield : field' = field
  · cases e <;> simp [RangeEntry.all, hfield]
  · simp [hfield]

/-! ## All parameters -/

variable {r r' : IndexRequest}

/-- The values under a name, one section after the other. -/
theorem sentUnder_toSolrParams (name : String) (r : IndexRequest) :
    sentUnder name r.toSolrParams
      = sentUnder name [("q", r.query)]
        ++ (if "fq" = name then r.filterClauses else [])
        ++ (if r.hasFacets then sentUnder name [("facet", "true"),
            ("facet.mincount", toString r.facetMinCount), ("facet.limit", toString r.facetLimit)] else [])
        ++ (if "facet.field" = name then r.facetFields.toList else [])
        ++ (r.rangeRequests.toList.flatMap fun entry => sentUnder name (rangeParams entry.1 entry.2))
        ++ (if !r.statsFields.isEmpty then sentUnder name [("stats", "true")] else [])
        ++ (if "stats.field" = name then r.statsFields.toList else [])
        ++ (if !r.highlightQueries.isEmpty then
            sentUnder name [("hl", "true"), ("hl.q", " ".intercalate r.highlightQueries)] else [])
        ++ (if !r.returnFields.isEmpty then sentUnder name [("fl", ",".intercalate r.returnFields)] else [])
        ++ (if !r.sort.isEmpty then sentUnder name
            [("sort", ", ".intercalate (r.sort.map fun spec => spec.field ++ " " ++ spec.order.name))] else [])
        ++ sentUnder name [("rows", toString r.rows), ("start", toString r.start), ("wt", "json")] := by
  simp only [toSolrParams, sentUnder_append, sentUnder_map, sentUnder_section?, sentUnder_flatMap]

/-- All range facets under a name that is not made of a field. -/
theorem flatMap_sentUnder_of_ne {name : String} (h : name.toList.take 2 ≠ ['f', '.']) (r : IndexRequest) :
    (r.rangeRequests.toList.flatMap fun entry => sentUnder name (rangeParams entry.1 entry.2))
      = if "facet.range" = name then r.rangeRequests.keys else [] := by
  simp only [sentUnder_rangeParams_of_ne h]
  rw [← Std.ExtTreeMap.map_fst_toList_eq_keys]
  split
  · rw [List.map_eq_flatMap]
  · exact List.flatMap_eq_nil_iff.2 fun _ _ => rfl

/-- What is sent under one name, whatever the fields are. -/
inductive Part where
  | query
  | filters
  | facets
  | facetFields
  | rangeFields
  | statsFields
  | rows
  | start
deriving DecidableEq, Repr

namespace Part

def param : Part → String
  | query => "q"
  | filters => "fq"
  | facets => "facet"
  | facetFields => "facet.field"
  | rangeFields => "facet.range"
  | statsFields => "stats.field"
  | rows => "rows"
  | start => "start"

/-- The values that are sent. -/
def sent (r : IndexRequest) : Part → List String
  | query => [r.query]
  | filters => r.filterClauses
  | facets => if r.hasFacets then ["true"] else []
  | facetFields => r.facetFields.toList
  | rangeFields => r.rangeRequests.keys
  | statsFields => r.statsFields.toList
  | rows => [toString r.rows]
  | start => [toString r.start]

end Part

/-- **Each part stands under its own name**, and no other part does. -/
theorem sentUnder_param (part : Part) (r : IndexRequest) :
    sentUnder part.param r.toSolrParams = part.sent r := by
  have hname : part.param.toList.take 2 ≠ ['f', '.'] := by cases part <;> decide
  rw [sentUnder_toSolrParams, flatMap_sentUnder_of_ne hname]
  cases part <;> simp [Part.param, Part.sent, sentUnder_cons, sentUnder_nil]

/-- Entries under other keys say nothing. -/
theorem flatMap_ite_of_not_mem {α β : Type} {entries : List (String × α)} {key : String}
    (h : key ∉ entries.map Prod.fst) (f : α → List β) :
    (entries.flatMap fun entry => if entry.1 = key then f entry.2 else []) = [] :=
  List.flatMap_eq_nil_iff.2 fun entry hentry =>
    if_neg fun (he : entry.1 = key) => h (he ▸ List.mem_map_of_mem hentry)

/-- Of entries with different keys, the one under `key` says all there is to say. -/
theorem flatMap_ite_of_mem {α β : Type} {entries : List (String × α)}
    (h : (entries.map Prod.fst).Nodup) {key : String} {held : α} (hmem : (key, held) ∈ entries)
    (f : α → List β) :
    (entries.flatMap fun entry => if entry.1 = key then f entry.2 else []) = f held := by
  induction entries with
  | nil => exact absurd hmem (by simp)
  | cons first rest ih =>
      obtain ⟨hfirst, hrest⟩ := List.nodup_cons.1 h
      rw [List.flatMap_cons]
      rcases List.mem_cons.1 hmem with rfl | hlater
      · rw [flatMap_ite_of_not_mem hfirst, if_pos rfl, List.append_nil]
      · have hne : first.1 ≠ key := fun he => hfirst (List.mem_map.2 ⟨_, hlater, he.symm⟩)
        rw [if_neg hne, List.nil_append, ih hrest hlater]

theorem sentUnder_fieldParam (r : IndexRequest) (field : String) (e : RangeEntry) :
    sentUnder (fieldParam field e) r.toSolrParams
      = (r.rangeRequests[field]?.bind e.said).toList := by
  have hranges : (r.rangeRequests.toList.flatMap fun entry =>
      sentUnder (fieldParam field e) (rangeParams entry.1 entry.2))
        = (r.rangeRequests[field]?.bind e.said).toList := by
    simp only [sentUnder_rangeParams]
    cases hfield : r.rangeRequests[field]? with
    | none =>
        refine flatMap_ite_of_not_mem (fun hmem => ?_) fun range => (e.said range).toList
        rw [Std.ExtTreeMap.map_fst_toList_eq_keys, Std.ExtTreeMap.mem_keys,
          Std.ExtTreeMap.mem_iff_isSome_getElem?, hfield] at hmem
        exact absurd hmem (by simp)
    | some range =>
        refine flatMap_ite_of_mem ?_ (Std.ExtTreeMap.mem_toList_iff_getElem?_eq_some.2 hfield)
          fun range => (e.said range).toList
        rw [Std.ExtTreeMap.map_fst_toList_eq_keys]
        exact Std.ExtTreeMap.nodup_keys
  rw [sentUnder_toSolrParams, hranges]
  -- no other section has a name that begins as these do
  simp (disch := decide) only [sentUnder_cons, sentUnder_nil, if_neg (fieldParam_ne _ field e)]
  simp

/-! ## The request in its parameters -/

/-- What is sent about a range facet: all but the kind of its field. -/
def sentParts (range : RangeRequest) : String × String × String × Bool :=
  (range.start, range.stop, range.gap, range.sortByIndex)

theorem sentParts_eq_of_said {range range' : RangeRequest}
    (h : ∀ e : RangeEntry, e.said range = e.said range') : sentParts range = sentParts range' := by
  have hstart : range.start = range'.start := Option.some.inj (h .start)
  have hstop : range.stop = range'.stop := Option.some.inj (h .stop)
  have hgap : range.gap = range'.gap := Option.some.inj (h .gap)
  have horder : range.sortByIndex = range'.sortByIndex := by
    have hsaid := h .order
    revert hsaid
    unfold RangeEntry.said
    cases range.sortByIndex <;> cases range'.sortByIndex <;> simp
  rw [sentParts, sentParts, hstart, hstop, hgap, horder]

theorem ranges_eq_of_toSolrParams_eq (h : r.toSolrParams = r'.toSolrParams) (field : String) :
    r.rangeRequests[field]?.map sentParts = r'.rangeRequests[field]?.map sentParts := by
  have hsaid (e : RangeEntry) :
      r.rangeRequests[field]?.bind e.said = r'.rangeRequests[field]?.bind e.said :=
    calc r.rangeRequests[field]?.bind e.said
      _ = (sentUnder (fieldParam field e) r.toSolrParams).head? := by
        rw [sentUnder_fieldParam, Option.head?_toList]
      _ = (sentUnder (fieldParam field e) r'.toSolrParams).head? := by rw [h]
      _ = r'.rangeRequests[field]?.bind e.said := by
        rw [sentUnder_fieldParam, Option.head?_toList]
  cases hrange : r.rangeRequests[field]? with
  | none =>
      cases hrange' : r'.rangeRequests[field]? with
      | none => rfl
      | some range' => exact absurd (hsaid .start) (by simp [hrange, hrange', RangeEntry.said])
  | some range =>
      cases hrange' : r'.rangeRequests[field]? with
      | none => exact absurd (hsaid .start) (by simp [hrange, hrange', RangeEntry.said])
      | some range' =>
          simp only [hrange, hrange', Option.bind_some] at hsaid
          exact congrArg some (sentParts_eq_of_said hsaid)

theorem hasFacets_iff (r : IndexRequest) :
    r.hasFacets = true ↔ ∃ field, field ∈ r.facetFields ∨ field ∈ r.rangeRequests := by
  have hfields : r.facetFields.isEmpty = false ↔ ∃ field, field ∈ r.facetFields := by
    rw [← Std.ExtTreeSet.isEmpty_toList, List.isEmpty_eq_false_iff_exists_mem]
    simp only [Std.ExtTreeSet.mem_toList]
  have hranges : r.rangeRequests.isEmpty = false ↔ ∃ field, field ∈ r.rangeRequests := by
    rw [← Std.ExtTreeMap.isEmpty_keys, List.isEmpty_eq_false_iff_exists_mem]
    simp only [Std.ExtTreeMap.mem_keys]
  rw [hasFacets, Bool.or_eq_true, Bool.not_eq_true', Bool.not_eq_true', hfields, hranges, exists_or]

theorem nodup_facetFields (r : IndexRequest) : r.facetFields.toList.Nodup := by
  refine Std.ExtTreeSet.distinct_toList.imp ?_
  rintro field _ hne rfl
  exact hne Std.ReflCmp.compare_self

theorem eq_of_toString_eq {n n' : Nat} (h : toString n = toString n') : n = n' := by
  have hread := Decimal.natChars?_toString n
  rw [h, Decimal.natChars?_toString] at hread
  exact (Option.some.inj hread).symm

/-- **Form parameters lose no part of the query.** Requests with the same parameters have the same query,
    the same filters in the same order, the same fields to count and to measure, the same window, and
    range facets over the same fields with the same ends, gaps and orders. Every field to count and every
    field of a range is named once, and facets are switched on exactly when there is one to count. -/
theorem solrParams_lossless (r : IndexRequest) :
    (∀ r' : IndexRequest, r.toSolrParams = r'.toSolrParams →
      r.query = r'.query ∧ r.filterClauses = r'.filterClauses ∧ r.facetFields = r'.facetFields ∧
      r.statsFields = r'.statsFields ∧ r.rows = r'.rows ∧ r.start = r'.start ∧
      ∀ field : String,
        r.rangeRequests[field]?.map sentParts = r'.rangeRequests[field]?.map sentParts) ∧
    (∀ field, r.toSolrParams.count ("facet.field", field) = if field ∈ r.facetFields then 1 else 0) ∧
    (∀ field, r.toSolrParams.count ("facet.range", field) = if field ∈ r.rangeRequests then 1 else 0) ∧
    (("facet", "true") ∈ r.toSolrParams ↔
      ∃ field, field ∈ r.facetFields ∨ field ∈ r.rangeRequests) := by
  refine ⟨fun r' h => ?_, fun field => ?_, fun field => ?_, ?_⟩
  · have hsent (part : Part) : part.sent r = part.sent r' := by
      rw [← sentUnder_param, h, sentUnder_param]
    exact ⟨List.head_eq_of_cons_eq (hsent .query), hsent .filters,
      Std.ExtTreeSet.toList_inj.1 (hsent .facetFields), Std.ExtTreeSet.toList_inj.1 (hsent .statsFields),
      eq_of_toString_eq (List.head_eq_of_cons_eq (hsent .rows)),
      eq_of_toString_eq (List.head_eq_of_cons_eq (hsent .start)), ranges_eq_of_toSolrParams_eq h⟩
  · have hfields : sentUnder "facet.field" r.toSolrParams = r.facetFields.toList :=
      sentUnder_param .facetFields r
    rw [count_eq_count_sentUnder, hfields, r.nodup_facetFields.count]
    simp only [Std.ExtTreeSet.mem_toList]
  · have hranges : sentUnder "facet.range" r.toSolrParams = r.rangeRequests.keys :=
      sentUnder_param .rangeFields r
    rw [count_eq_count_sentUnder, hranges, Std.ExtTreeMap.nodup_keys.count]
    simp only [Std.ExtTreeMap.mem_keys]
  · have hfacets : sentUnder "facet" r.toSolrParams = if r.hasFacets then ["true"] else [] :=
      sentUnder_param .facets r
    rw [← List.count_pos_iff, count_eq_count_sentUnder, List.count_pos_iff, hfacets, ← hasFacets_iff]
    cases r.hasFacets <;> simp

/-- Weights and dates of finds, to be counted in buckets. -/
def sherdRequest : IndexRequest where
  filterClauses := ["item_type:sherd"]
  facetFields := Std.ExtTreeSet.ofList ["root___pred_id", "item_type"]
  statsFields := Std.ExtTreeSet.ofList ["weight___pred_numeric"]
  rangeRequests := (∅ : Std.ExtTreeMap String RangeRequest)
    |>.insert "weight___pred_numeric" ⟨.numeric, "0", "10", "2.5", true⟩
    |>.insert "f.facet.sort" ⟨.date, "NOW", "NOW", "+1DAY", false⟩
  highlightQueries := ["red ware"]
  rows := 20

/-- The same, with words to mark apart and another kind of range. -/
def sherdRequest' : IndexRequest :=
  { sherdRequest with
    highlightQueries := ["red", "ware"]
    rangeRequests := sherdRequest.rangeRequests.insert "weight___pred_numeric"
      ⟨.date, "0", "10", "2.5", true⟩ }

/-- What the parameters do not tell is no part of the query. -/
theorem solrParams_lossless_sherdRequest :
    sherdRequest.toSolrParams = sherdRequest'.toSolrParams ∧
    sherdRequest.filterClauses = sherdRequest'.filterClauses ∧
    sherdRequest.rangeRequests["f.facet.sort"]?.map sentParts
      = sherdRequest'.rangeRequests["f.facet.sort"]?.map sentParts := by
  have hparams : sherdRequest.toSolrParams = sherdRequest'.toSolrParams := by decide +kernel
  obtain ⟨-, hfilters, -, -, -, -, hranges⟩ := (solrParams_lossless sherdRequest).1 _ hparams
  exact ⟨hparams, hfilters, hranges _⟩

end FacetSearch.IndexRequest
