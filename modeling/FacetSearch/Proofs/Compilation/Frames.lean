import FacetSearch.Proofs.Compilation.ClauseText
import FacetSearch.Proofs.Compilation.Levels
import Mathlib

set_option autoImplicit false

/-! # What parameters leave alone

Only some parameters narrow the result, and only hierarchical ones have ranges. All others leave the
clauses of a query or what it asks the index for as they are, whatever the answers to the names that
they ask for (`obeys_of_not_mem`, `sameRequests_of_not_levels`). Before that stands what joined fragments
and the paths of a parameter do to a query. -/

namespace FacetSearch

/-! ## Joined sets -/

namespace Fragment

theorem mem_foldl_insert {held : Std.ExtTreeSet String} {l : List String} {name : String} :
    name ∈ l.foldl (·.insert ·) held ↔ name ∈ held ∨ name ∈ l := by
  induction l generalizing held with
  | nil => simp
  | cons first rest ih =>
      rw [List.foldl_cons, ih, Std.ExtTreeSet.mem_insert, List.mem_cons,
        Std.LawfulEqCmp.compare_eq_iff_eq]
      constructor
      · rintro ((rfl | h) | h)
        · exact .inr (.inl rfl)
        · exact .inl h
        · exact .inr (.inr h)
      · rintro (h | rfl | h)
        · exact .inl (.inr h)
        · exact .inl (.inl rfl)
        · exact .inr h

theorem mem_joinSets {a b : Std.ExtTreeSet String} {name : String} :
    name ∈ joinSets a b ↔ name ∈ a ∨ name ∈ b := by
  rw [joinSets, Std.ExtTreeSet.foldl_eq_foldl_toList, mem_foldl_insert, Std.ExtTreeSet.mem_toList]

@[simp] theorem joinSets_empty (a : Std.ExtTreeSet String) : joinSets a ∅ = a := by
  refine Std.ExtTreeSet.ext_mem fun name => ?_
  rw [mem_joinSets, or_iff_left Std.ExtTreeSet.not_mem_empty]

@[simp] theorem foldl_addRange_empty (held : Std.ExtTreeMap String RangeRequest) :
    (∅ : Std.ExtTreeMap String RangeRequest).foldl addRange held = held := rfl

/-- The fragment asks the index for no facets, statistics and buckets. -/
structure Bare (f : Fragment) : Prop where
  facetFields : f.facetFields = ∅
  statsFields : f.statsFields = ∅
  ranges : f.ranges = ∅

/-- The fragment asks the index for nothing beside its clauses and words. -/
structure AsksNothing (f : Fragment) : Prop extends Bare f where
  awaited : f.awaited = ∅

theorem AsksNothing.absorb {f other : Fragment} (h : f.AsksNothing) (h' : other.AsksNothing) :
    (f.absorb other).AsksNothing := by
  refine ⟨⟨?_, ?_, ?_⟩, ?_⟩
  · simp only [Fragment.absorb, h'.facetFields, joinSets_empty, h.facetFields]
  · simp only [Fragment.absorb, h'.statsFields, joinSets_empty, h.statsFields]
  · simp only [Fragment.absorb, h'.ranges, foldl_addRange_empty, h.ranges]
  · simp only [Fragment.absorb, h'.awaited, joinSets_empty, h.awaited]

theorem asksNothing_anyOf {fragments : List Fragment} (h : ∀ f ∈ fragments, f.AsksNothing) :
    (anyOf fragments).AsksNothing := by
  have hfold : ∀ f : Fragment, f.AsksNothing → (fragments.foldl absorb f).AsksNothing := by
    induction fragments with
    | nil => exact fun _ hf => hf
    | cons first rest ih =>
        intro f hf
        rw [List.foldl_cons]
        exact ih (fun g hg => h g (List.mem_cons_of_mem _ hg)) _
          (hf.absorb (h first (List.mem_cons_self ..)))
  have hstart := hfold .empty ⟨⟨rfl, rfl, rfl⟩, rfl⟩
  exact ⟨⟨hstart.facetFields, hstart.statsFields, hstart.ranges⟩, hstart.awaited⟩

/-- What two fragments ask for together, several do. -/
theorem foldl_absorb_iff {P : Fragment → Prop} (h : ∀ f other, P (absorb f other) ↔ P f ∨ P other)
    {fragments : List Fragment} {f : Fragment} :
    P (fragments.foldl absorb f) ↔ P f ∨ ∃ other ∈ fragments, P other := by
  induction fragments generalizing f with
  | nil => simp
  | cons first rest ih =>
      rw [List.foldl_cons, ih, h, or_assoc]
      simp only [List.mem_cons, exists_eq_or_imp]

theorem mem_awaited_anyOf {fragments : List Fragment} {name : String} :
    name ∈ (anyOf fragments).awaited ↔ ∃ f ∈ fragments, name ∈ f.awaited := by
  have hfold : name ∈ (fragments.foldl absorb .empty).awaited ↔
      name ∈ empty.awaited ∨ ∃ f ∈ fragments, name ∈ f.awaited :=
    foldl_absorb_iff (P := fun f => name ∈ f.awaited) fun _ _ => mem_joinSets
  exact hfold.trans (or_iff_right Std.ExtTreeSet.not_mem_empty)

theorem mem_facetFields_anyOf {fragments : List Fragment} {name : String} :
    name ∈ (anyOf fragments).facetFields ↔ ∃ f ∈ fragments, name ∈ f.facetFields := by
  have hfold : name ∈ (fragments.foldl absorb .empty).facetFields ↔
      name ∈ empty.facetFields ∨ ∃ f ∈ fragments, name ∈ f.facetFields :=
    foldl_absorb_iff (P := fun f => name ∈ f.facetFields) fun _ _ => mem_joinSets
  exact hfold.trans (or_iff_right Std.ExtTreeSet.not_mem_empty)

end Fragment

theorem CompiledQuery.mem_awaited_requireOneOf {q : CompiledQuery} {fragments : List Fragment}
    {name : String} : name ∈ (q.requireOneOf fragments).fragment.awaited ↔
      name ∈ q.fragment.awaited ∨ ∃ f ∈ fragments, name ∈ f.awaited := by
  rw [← Fragment.mem_awaited_anyOf]
  exact Fragment.mem_joinSets

theorem CompiledQuery.mem_facetFields_requireOneOf {q : CompiledQuery} {fragments : List Fragment}
    {name : String} : name ∈ (q.requireOneOf fragments).fragment.facetFields ↔
      name ∈ q.fragment.facetFields ∨ ∃ f ∈ fragments, name ∈ f.facetFields := by
  rw [← Fragment.mem_facetFields_anyOf]
  exact Fragment.mem_joinSets

namespace Compiler

/-! ## Paths in a query -/

@[simp] theorem fragment_foldl_addAlternative (found : List Alternative) (q : CompiledQuery) :
    (found.foldl CompiledQuery.addAlternative q).fragment = q.fragment := by
  induction found generalizing q with
  | nil => rfl
  | cons a rest ih =>
      rw [List.foldl_cons, ih]
      unfold CompiledQuery.addAlternative
      cases a.range <;> cases a.facet <;> rfl

/-- What paths do to the fragment of a query depends on whether any of them comes to something. -/
theorem fragment_addPaths (q : CompiledQuery) (outcomes : List PathOutcome) :
    (q.addPaths outcomes).fragment =
      (if outcomes.filterMap PathOutcome.alternative? = [] then
        (if outcomes.filterMap PathOutcome.missing? = [] then q else q.requireNothing)
      else q.requireOneOf
        ((outcomes.filterMap PathOutcome.alternative?).map (·.fragment))).fragment := by
  unfold CompiledQuery.addPaths
  by_cases hfound : outcomes.filterMap PathOutcome.alternative? = []
  · by_cases hmissing : outcomes.filterMap PathOutcome.missing? = []
    · simp [hfound, hmissing]
    · simp [hfound, hmissing]
  · simp [hfound, CompiledQuery.requireOneOf]

theorem ranges_addAlternative (q : CompiledQuery) (a : Alternative) :
    (q.addAlternative a).ranges = match a.range with
      | some (field, state) => q.ranges.insert field state
      | none => q.ranges := by
  unfold CompiledQuery.addAlternative
  cases a.range <;> cases a.facet <;> rfl

theorem facets_addAlternative (q : CompiledQuery) (a : Alternative) :
    (q.addAlternative a).facets = match a.facet with
      | some m => q.facets.insertIfNew m.field m
      | none => q.facets := by
  unfold CompiledQuery.addAlternative
  cases a.range <;> cases a.facet <;> rfl

theorem ranges_addPaths (q : CompiledQuery) (outcomes : List PathOutcome) :
    (q.addPaths outcomes).ranges
      = ((outcomes.filterMap PathOutcome.alternative?).foldl CompiledQuery.addAlternative q).ranges := by
  simp only [CompiledQuery.addPaths]
  split
  · split <;> rfl
  · rfl

theorem facets_addPaths (q : CompiledQuery) (outcomes : List PathOutcome) :
    (q.addPaths outcomes).facets
      = ((outcomes.filterMap PathOutcome.alternative?).foldl CompiledQuery.addAlternative q).facets := by
  simp only [CompiledQuery.addPaths]
  split
  · split <;> rfl
  · rfl

theorem mem_ranges_foldl_addAlternative {found : List Alternative} {q : CompiledQuery}
    {field : String} : field ∈ (found.foldl CompiledQuery.addAlternative q).ranges ↔
      field ∈ q.ranges ∨ ∃ a ∈ found, ∃ state, a.range = some (field, state) := by
  induction found generalizing q with
  | nil => simp
  | cons a rest ih =>
      rw [List.foldl_cons, ih, ranges_addAlternative]
      cases hrange : a.range with
      | none => simp [hrange]
      | some range =>
          obtain ⟨name, state⟩ := range
          simp [hrange, or_assoc, or_left_comm]

theorem mem_facets_foldl_addAlternative {found : List Alternative} {q : CompiledQuery}
    {field : String} : field ∈ (found.foldl CompiledQuery.addAlternative q).facets ↔
      field ∈ q.facets ∨ ∃ a ∈ found, ∃ m, a.facet = some m ∧ m.field = field := by
  induction found generalizing q with
  | nil => simp
  | cons a rest ih =>
      rw [List.foldl_cons, ih, facets_addAlternative]
      cases hfacet : a.facet with
      | none => simp [hfacet]
      | some m => simp [hfacet, or_assoc, or_left_comm]

/-! ## Queries that stay as they are -/

/-- The second query narrows the result as the first one does, and its ranges have come as far. -/
structure Unmoved (q q' : CompiledQuery) : Prop where
  clauses : q'.fragment.clauses = q.fragment.clauses
  awaited : q'.fragment.awaited = q.fragment.awaited
  ranges : q'.ranges = q.ranges

/-- The ranges of the second query have come as far as those of the first one. -/
structure SameRanges (q q' : CompiledQuery) : Prop where
  ranges : q'.ranges = q.ranges
  mem_awaited : ∀ field, field ∈ q'.fragment.awaited ↔ field ∈ q.fragment.awaited

/-- The second query asks the index for what the first one does, clauses and words apart, and has the
    same facets and ranges. -/
structure SameRequests (q q' : CompiledQuery) : Prop where
  facetFields : q'.fragment.facetFields = q.fragment.facetFields
  statsFields : q'.fragment.statsFields = q.fragment.statsFields
  buckets : q'.fragment.ranges = q.fragment.ranges
  awaited : q'.fragment.awaited = q.fragment.awaited
  facets : q'.facets = q.facets
  ranges : q'.ranges = q.ranges

/-- The second query also narrows the result as the first one does. -/
structure SameSearch (q q' : CompiledQuery) : Prop extends SameRequests q q' where
  clauses : q'.fragment.clauses = q.fragment.clauses

variable {c : Compiler} {p : Parameter} {values : List String} {q q' q'' : CompiledQuery}

theorem Unmoved.sameRanges (h : Unmoved q q') : SameRanges q q' :=
  ⟨h.ranges, fun field => by rw [h.awaited]⟩

theorem SameRanges.trans (h : SameRanges q q') (h' : SameRanges q' q'') : SameRanges q q'' :=
  ⟨h'.ranges.trans h.ranges, fun field => (h'.mem_awaited field).trans (h.mem_awaited field)⟩

theorem Unmoved.refl (q : CompiledQuery) : Unmoved q q := ⟨rfl, rfl, rfl⟩

theorem Unmoved.trans (h : Unmoved q q') (h' : Unmoved q' q'') : Unmoved q q'' :=
  ⟨h'.clauses.trans h.clauses, h'.awaited.trans h.awaited, h'.ranges.trans h.ranges⟩

theorem SameRequests.sameRanges (h : SameRequests q q') : SameRanges q q' :=
  ⟨h.ranges, fun field => by rw [h.awaited]⟩

theorem SameSearch.refl (q : CompiledQuery) : SameSearch q q :=
  ⟨⟨rfl, rfl, rfl, rfl, rfl, rfl⟩, rfl⟩

theorem SameSearch.trans (h : SameSearch q q') (h' : SameSearch q' q'') : SameSearch q q'' :=
  ⟨⟨h'.facetFields.trans h.facetFields, h'.statsFields.trans h.statsFields,
    h'.buckets.trans h.buckets, h'.awaited.trans h.awaited, h'.facets.trans h.facets,
    h'.ranges.trans h.ranges⟩, h'.clauses.trans h.clauses⟩

theorem SameSearch.unmoved (h : SameSearch q q') : Unmoved q q' := ⟨h.clauses, h.awaited, h.ranges⟩

theorem sameSearch_freeText (q : CompiledQuery) (values : List String) :
    SameSearch q (freeText q values) := by
  simp only [freeText]
  split
  · exact .refl q
  · exact ⟨⟨rfl, rfl, rfl, rfl, rfl, rfl⟩, rfl⟩

theorem obeys_attributes (q : CompiledQuery) (names : List String) :
    (attributes q names).Obeys (· ∈ names) (SameSearch q) := by
  induction names generalizing q with
  | nil => exact .refl q
  | cons name rest ih =>
      refine ⟨List.mem_cons_self .., ?_⟩
      intro answer
      -- a name that is passed over and a field that is returned both leave the search as it is
      have hrest : ∀ q', SameSearch q q' →
          (attributes q' rest).Obeys (· ∈ name :: rest) (SameSearch q) := fun q' hq' =>
        (ih q').mono (fun _ => List.mem_cons_of_mem _) fun _ => hq'.trans
      cases answer with
      | none => exact hrest q (.refl q)
      | some e => exact hrest _ ⟨⟨rfl, rfl, rfl, rfl, rfl, rfl⟩, rfl⟩

theorem sameSearch_lastValue {raw : String}
    (h : c.lastValue q p raw = .ok q') : SameSearch q q' := by
  unfold lastValue at h
  split at h
  · obtain ⟨sort, -, h⟩ := Except.bind_eq_ok h
    obtain rfl := Except.ok.inj h
    exact ⟨⟨rfl, rfl, rfl, rfl, rfl, rfl⟩, rfl⟩
  · obtain ⟨rows, -, h⟩ := Except.bind_eq_ok h
    obtain rfl := Except.ok.inj h
    exact ⟨⟨rfl, rfl, rfl, rfl, rfl, rfl⟩, rfl⟩
  · obtain ⟨start, -, h⟩ := Except.bind_eq_ok h
    obtain rfl := Except.ok.inj h
    exact ⟨⟨rfl, rfl, rfl, rfl, rfl, rfl⟩, rfl⟩
  · next space =>
    obtain ⟨depth, -, h⟩ := Except.bind_eq_ok h
    obtain rfl := Except.ok.inj h
    cases space <;> exact ⟨⟨rfl, rfl, rfl, rfl, rfl, rfl⟩, rfl⟩
  · obtain rfl := Except.ok.inj h
    exact .refl q

theorem unmoved_withFacet (facets : List FacetMeta) (q : CompiledQuery) :
    Unmoved q (facets.foldl withFacet q) := by
  induction facets generalizing q with
  | nil => exact .refl q
  | cons facet rest ih =>
      refine Unmoved.trans ?_ (ih _)
      exact ⟨rfl, rfl, rfl⟩

/-! ## Parameters -/

theorem ofName?_name (p : Parameter) : Parameter.ofName? p.name = some p := by
  cases p with
  | levels family => cases family <;> rfl
  | tile space => cases space <;> rfl
  | year bound => cases bound <;> rfl
  | depth space => cases space <;> rfl
  | _ => rfl

theorem name_of_ofName? {name : String} {p : Parameter} (h : Parameter.ofName? name = some p) :
    p.name = name := by
  simpa using List.find?_some h

/-- The names that a parameter may ask for. -/
def askedBy (c : Compiler) (p : Parameter) (values : List String) : List String :=
  match p with
  | .levels _ =>
    values.flatMap fun raw => (c.paths p [raw]).flatten.map fun name => (c.unmarked name).1
  | .attributes => attributeNames values
  | _ => []

/-- A parameter that does not narrow leaves clauses and requests alone. -/
theorem sameSearch_of_not_mem (hp : p ∉ choosers) :
    (c.parameter q p values).Obeys (· ∈ c.askedBy p values) (SameSearch q) := by
  unfold parameter
  split
  · next family => exact absurd (mem_choosers_levels family) hp
  · exact absurd (by simp [choosers]) hp
  · exact Compiling.obeys_pure (sameSearch_freeText q values)
  · exact absurd (by simp [choosers]) hp
  · next space => exact absurd (mem_choosers_tile space) hp
  · next bound => exact absurd (mem_choosers_year bound) hp
  · exact Compiling.obeys_lift (obeys_attributes q _)
  -- of the others the last value counts, if there is one
  all_goals
    split
    · exact Compiling.obeys_known fun _ => sameSearch_lastValue
    · exact Compiling.obeys_pure (.refl q)

/-- **A parameter that does not narrow leaves clauses and ranges alone.** -/
theorem obeys_of_not_mem (hp : p ∉ choosers) :
    (c.parameter q p values).Obeys (· ∈ c.askedBy p values) (Unmoved q) :=
  (sameSearch_of_not_mem hp).mono (fun _ => id) fun _ => SameSearch.unmoved

/-- Clauses alone bring no requests. -/
theorem sameRequests_requireOneOf {α : Type} (q : CompiledQuery) (l : List α) (text : α → String) :
    SameRequests q (q.requireOneOf (l.map fun a => clauseFragment (text a))) := by
  have hclauses : ∀ f ∈ l.map fun a => clauseFragment (text a), f.AsksNothing := by
    intro f hf
    obtain ⟨a, -, rfl⟩ := List.mem_map.1 hf
    exact ⟨⟨rfl, rfl, rfl⟩, rfl⟩
  have hjoined := Fragment.asksNothing_anyOf hclauses
  exact ⟨by simp [CompiledQuery.requireOneOf, Fragment.merge, Fragment.absorb, hjoined.facetFields],
    by simp [CompiledQuery.requireOneOf, Fragment.merge, Fragment.absorb, hjoined.statsFields],
    by simp [CompiledQuery.requireOneOf, Fragment.merge, Fragment.absorb, hjoined.ranges],
    by simp [CompiledQuery.requireOneOf, Fragment.merge, Fragment.absorb, hjoined.awaited], rfl, rfl⟩

theorem sameRequests_itemTypes (h : c.itemTypes q values = .ok q') : SameRequests q q' := by
  obtain ⟨found, -, h⟩ := Except.bind_eq_ok h
  obtain rfl := Except.ok.inj h
  split
  · exact ⟨rfl, rfl, rfl, rfl, rfl, rfl⟩
  · have hsame := sameRequests_requireOneOf q (found.filterMap ItemType.ofToken?) fun type =>
      Field.itemType ++ ":" ++ type.token
    exact { hsame with }

theorem sameRequests_identifiers (h : c.identifiers q values = .ok q') : SameRequests q q' := by
  obtain ⟨found, -, h⟩ := Except.bind_eq_ok h
  obtain rfl := Except.ok.inj h
  exact sameRequests_requireOneOf q found identifierClause

theorem sameRequests_tiles {space : TileSpace} (h : c.tiles q space values = .ok q') :
    SameRequests q q' := by
  obtain ⟨found, -, h⟩ := Except.bind_eq_ok h
  obtain rfl := Except.ok.inj h
  have hsame := sameRequests_requireOneOf
    { q with rejected := q.rejected ++ (sortTiles space found).2 } (sortTiles space found).1
    (tileClause space)
  exact { hsame with }

theorem sameRequests_years {bound : YearBound} (h : c.years q bound values = .ok q') :
    SameRequests q q' := by
  obtain ⟨found, -, h⟩ := Except.bind_eq_ok h
  obtain ⟨years, -, h⟩ := Except.bind_eq_ok h
  obtain rfl := Except.ok.inj h
  exact sameRequests_requireOneOf q _ _

/-- **Only hierarchical parameters ask the index for facets, statistics and ranges.** -/
theorem sameRequests_of_not_levels (hp : ∀ family, p ≠ .levels family) :
    (c.parameter q p values).Obeys (· ∈ c.askedBy p values) (SameRequests q) := by
  by_cases hmem : p ∈ choosers
  · unfold parameter
    split
    · next family => exact absurd rfl (hp family)
    · exact Compiling.obeys_known fun _ => sameRequests_itemTypes
    · exact absurd hmem (by simp [choosers])
    · exact Compiling.obeys_known fun _ => sameRequests_identifiers
    · exact Compiling.obeys_known fun _ => sameRequests_tiles
    · exact Compiling.obeys_known fun _ => sameRequests_years
    all_goals exact absurd hmem (by simp [choosers])
  · exact (sameSearch_of_not_mem hmem).mono (fun _ => id) fun _ => SameSearch.toSameRequests

/-- **Only hierarchical parameters have ranges.** -/
theorem obeys_of_not_levels (hp : ∀ family, p ≠ .levels family) :
    (c.parameter q p values).Obeys (· ∈ c.askedBy p values) (SameRanges q) :=
  (sameRequests_of_not_levels hp).mono (fun _ => id) fun _ => SameRequests.sameRanges

end Compiler

end FacetSearch
