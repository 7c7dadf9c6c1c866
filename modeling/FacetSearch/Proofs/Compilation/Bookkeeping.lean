import FacetSearch.Proofs.Compilation.Arrivals
import FacetSearch.Proofs.Compilation.Effects
import FacetSearch.Proofs.Service.Course
import Mathlib

set_option autoImplicit false

/-! # Facets and what is asked of the index for them

A query asks the index for the values of some fields, and for statistics and buckets of others, and
keeps for each of these fields what its facet stands for. The two records are written in different
places: requests come with the fragments of alternatives and are joined with them, facets go straight
into the query. They agree because a field's name tells the kind of its values (`Field.axis?`), so both
are filed alike, path by path (`Arrives.filed`) and step by step (`invariant_filed`). -/

namespace FacetSearch

/-! ## Kinds of fields -/

/-- The axis of the ranges over a field, which its name ends with. -/
def Field.axis? (field : String) : Option RangeKind :=
  if "_numeric".toList <:+ field.toList then some .numeric
  else if "_date".toList <:+ field.toList then some .date
  else none

/-- **The name of a field tells whether its values are queried as ranges.** -/
theorem FieldPath.axis?_name (p : FieldPath) : Field.axis? p.name = p.kind.axis? := by
  have hend : ("_" ++ p.kind.suffix).toList <:+ p.name.toList := by
    have hname : p.name = p.mark.getD "" ++ (p.parent.map fun step => Field.safe step.slug).getD
        Field.rootSlug ++ Field.delimiter ++ p.family.token ++ ("_" ++ p.kind.suffix) := by
      simp only [FieldPath.name, String.append_assoc]
    rw [hname]
    exact ⟨_, (String.toList_append ..).symm⟩
  -- a name has one ending only, so it does not end like the name of a field of another kind
  have hother {ending : List Char} (h : ending <:+ p.name.toList) :
      ending <:+ ("_" ++ p.kind.suffix).toList ∨ ("_" ++ p.kind.suffix).toList <:+ ending :=
    List.suffix_or_suffix_of_suffix h hend
  unfold Field.axis?
  cases hkind : p.kind <;> rw [hkind] at hend hother
  case numeric =>
    rw [if_pos (show "_numeric".toList <:+ p.name.toList from hend)]
    rfl
  case date =>
    rw [if_neg fun h => absurd (hother h) (by decide),
      if_pos (show "_date".toList <:+ p.name.toList from hend)]
    rfl
  all_goals
    rw [if_neg fun h => absurd (hother h) (by decide), if_neg fun h => absurd (hother h) (by decide)]
    rfl

theorem RangeRequest.kind_union (r other : RangeRequest) : (r.union other).kind = r.kind := by
  unfold union
  split
  · rfl
  · split
    · dsimp only
      split <;> rfl
    · rfl

theorem RangeLiteral.kind_ordered (kind : RangeKind) (low high : Option Binary64) :
    (ordered kind low high).kind = kind := by
  unfold ordered
  split
  · split <;> rfl
  · rfl

theorem RangeLiteral.kind_of_parse {kind : RangeKind} {text : String} {literal : RangeLiteral}
    (h : parse kind text = .ok literal) : literal.kind = kind := by
  unfold parse at h
  dsimp only at h
  split at h
  · obtain rfl := Except.ok.inj h
    rfl
  · split at h
    · obtain ⟨low, -, h⟩ := Except.bind_eq_ok h
      obtain ⟨high, -, h⟩ := Except.bind_eq_ok h
      obtain rfl := Except.ok.inj h
      exact kind_ordered kind low high
    · obtain ⟨point, -, h⟩ := Except.bind_eq_ok h
      obtain rfl := Except.ok.inj h
      rfl

/-! ## Fragments -/

/-- What a fragment asks for stands under fields of its kind: facets of values under fields without
    ranges, buckets under fields of their axis, and statistics under the fields with buckets. -/
structure Fragment.Filed (f : Fragment) : Prop where
  facet : ∀ field ∈ f.facetFields, Field.axis? field = none
  range : ∀ field range, f.ranges[field]? = some range → Field.axis? field = some range.kind
  stats : ∀ field, field ∈ f.statsFields ↔ field ∈ f.ranges

namespace Fragment

variable {f other : Fragment} {field : String}

theorem Bare.filed (h : f.Bare) : f.Filed where
  facet field hfield := by
    rw [h.facetFields] at hfield
    exact absurd hfield Std.ExtTreeSet.not_mem_empty
  range field range hrange := by
    rw [h.ranges] at hrange
    exact absurd hrange (by simp)
  stats field := by
    rw [h.statsFields, h.ranges]
    exact iff_of_false Std.ExtTreeSet.not_mem_empty Std.ExtTreeMap.not_mem_empty

/-- Joined buckets keep the axis of their field. -/
theorem axis?_foldl_addRange {held ranges : Std.ExtTreeMap String RangeRequest}
    (hheld : ∀ field (range : RangeRequest), held[field]? = some range →
      Field.axis? field = some range.kind)
    (hranges : ∀ field (range : RangeRequest), ranges[field]? = some range →
      Field.axis? field = some range.kind) :
    ∀ field (range : RangeRequest), (ranges.foldl addRange held)[field]? = some range →
      Field.axis? field = some range.kind := by
  intro field range hrange
  rw [getElem?_foldl_addRange] at hrange
  cases hheldField : held[field]? with
  | none =>
      rw [hheldField, Option.merge_none_left] at hrange
      exact hranges field range hrange
  | some kept =>
      have hkept := hheld field kept hheldField
      rw [hheldField] at hrange
      cases hrangesField : ranges[field]? with
      | none =>
          rw [hrangesField, Option.merge_none_right] at hrange
          rwa [← Option.some.inj hrange]
      | some other =>
          rw [hrangesField, Option.merge_some_some] at hrange
          rwa [← Option.some.inj hrange, RangeRequest.kind_union]

theorem Filed.absorb (h : f.Filed) (h' : other.Filed) : (f.absorb other).Filed where
  facet field hfield := (mem_joinSets.1 hfield).elim (h.facet field) (h'.facet field)
  range := axis?_foldl_addRange h.range h'.range
  stats field :=
    mem_joinSets.trans ((or_congr (h.stats field) (h'.stats field)).trans mem_foldl_addRange.symm)

theorem filed_anyOf {fragments : List Fragment} (h : ∀ f ∈ fragments, f.Filed) :
    (anyOf fragments).Filed := by
  have hfold : ∀ f : Fragment, f.Filed → (fragments.foldl Fragment.absorb f).Filed := by
    induction fragments with
    | nil => exact fun _ hf => hf
    | cons first rest ih =>
        intro f hf
        rw [List.foldl_cons]
        exact ih (fun g hg => h g (List.mem_cons_of_mem _ hg)) _
          (hf.absorb (h first (List.mem_cons_self ..)))
  have hjoined := hfold .empty (Bare.filed ⟨rfl, rfl, rfl⟩)
  exact ⟨hjoined.facet, hjoined.range, hjoined.stats⟩

/-- A field is not asked for its values and its buckets at once. -/
theorem Filed.not_mem_ranges (h : f.Filed) (hfield : field ∈ f.facetFields) : field ∉ f.ranges := by
  intro hmem
  obtain ⟨range, hrange⟩ := Option.isSome_iff_exists.1 (Std.ExtTreeMap.mem_iff_isSome_getElem?.1 hmem)
  exact absurd ((h.facet field hfield).symm.trans (h.range field range hrange)) (by simp)

/-- The axis of a field that is asked for is the one of its buckets, if it has some. -/
theorem Filed.axis?_eq_some_iff (h : f.Filed) (hfield : field ∈ f.facetFields ∨ field ∈ f.ranges)
    (kind : RangeKind) :
    Field.axis? field = some kind ↔ ∃ range, f.ranges[field]? = some range ∧ range.kind = kind := by
  constructor
  · intro haxis
    rcases hfield with hfacet | hmem
    · exact absurd ((h.facet field hfacet).symm.trans haxis) (by simp)
    · obtain ⟨range, hrange⟩ :=
        Option.isSome_iff_exists.1 (Std.ExtTreeMap.mem_iff_isSome_getElem?.1 hmem)
      exact ⟨range, hrange, Option.some.inj ((h.range field range hrange).symm.trans haxis)⟩
  · rintro ⟨range, hrange, rfl⟩
    exact h.range field range hrange

end Fragment

/-! ## Alternatives -/

/-- The facet stands for values of the kind that its field holds. -/
def FacetMeta.Fits (m : FacetMeta) : Prop :=
  ∀ kind, m.kind = .range kind ↔ Field.axis? m.field = some kind

/-- An alternative has a facet for the field that it asks for, and a state for the field whose bounds
    matter. -/
structure Alternative.Filed (a : Alternative) : Prop where
  fragment : a.fragment.Filed
  facet : ∀ field, (∃ m, a.facet = some m ∧ m.field = field) ↔
    field ∈ a.fragment.facetFields ∨ field ∈ a.fragment.ranges
  fits : ∀ m, a.facet = some m → m.Fits
  state : ∀ field, field ∈ a.fragment.awaited ∨ field ∈ a.fragment.ranges →
    ∃ state, a.range = some (field, state)

namespace Compiler

variable {c : Compiler} {source : PathSource} {field : FieldPath} {path : List String} {f : Fragment}
  {a : Alternative} {q q' : CompiledQuery}

/-- The alternative asks for no facets, statistics and buckets, and has no facet. -/
theorem filed_of_bare (hbare : a.fragment.Bare) (hfacet : a.facet = none)
    (hstate : ∀ field ∈ a.fragment.awaited, ∃ state, a.range = some (field, state)) : a.Filed where
  fragment := hbare.filed
  facet field := by simp [hfacet, hbare.facetFields, hbare.ranges]
  fits m hm := absurd (hfacet.symm.trans hm) (by simp)
  state field hfield := by
    refine hstate field (hfield.resolve_right ?_)
    rw [hbare.ranges]
    exact Std.ExtTreeMap.not_mem_empty

theorem filed_rangeEnd {literal : RangeLiteral} {given : Bool} (hf : f.AsksNothing)
    (haxis : field.kind.axis? = some literal.kind) :
    (c.rangeEnd source field path f literal given).Filed := by
  have hname : Field.axis? field.name = some literal.kind := field.axis?_name.trans haxis
  have hrequired (clause : Clause) : (if given then f.require clause else f).AsksNothing := by
    cases given
    · exact hf
    · exact ⟨⟨hf.facetFields, hf.statsFields, hf.ranges⟩, hf.awaited⟩
  have hnone {f : Fragment} (hf : f.AsksNothing) : ∀ name ∈ f.awaited, False := by
    rw [hf.awaited]
    exact fun _ => Std.ExtTreeSet.not_mem_empty
  unfold rangeEnd
  dsimp only
  split
  · -- the range waits
    refine filed_of_bare ⟨hf.facetFields, hf.statsFields, hf.ranges⟩ rfl ?_
    intro name hawaited
    simp only [hf.awaited, Std.ExtTreeSet.mem_insert, Std.LawfulEqCmp.compare_eq_iff_eq,
      Std.ExtTreeSet.not_mem_empty, or_false] at hawaited
    exact ⟨_, by rw [hawaited]⟩
  · split
    · -- the field has no values
      have hbare := hrequired (rangeClause field.name (openEnd literal.kind literal.low)
        (openEnd literal.kind literal.high))
      exact filed_of_bare hbare.toBare rfl fun name hname => (hnone hbare name hname).elim
    · next bounds _ _ =>
      have hbare := hrequired (rangeClause field.name
        (Point.render literal.kind (literal.within bounds.min bounds.max).1)
        (Point.render literal.kind (literal.within bounds.min bounds.max).2))
      split
      · -- there are buckets, with their facet and their statistics
        refine ⟨⟨?_, ?_, ?_⟩, ?_, ?_, ?_⟩
        · simp [hbare.facetFields]
        · intro name range h
          simp only [hbare.ranges, Std.ExtTreeMap.getElem?_insert,
            Std.LawfulEqCmp.compare_eq_iff_eq] at h
          by_cases he : field.name = name
          · rw [if_pos he] at h
            obtain rfl := Option.some.inj h
            exact he ▸ hname
          · rw [if_neg he] at h
            exact absurd h (by simp)
        · simp [hbare.ranges, hbare.statsFields]
        · simp [hbare.facetFields, hbare.ranges, PathSource.facet]
        · rintro _ ⟨⟩ kind
          simp [PathSource.facet, hname]
        · simp [hbare.ranges, hbare.awaited]
      · exact filed_of_bare hbare.toBare rfl fun name hname => (hnone hbare name hname).elim

theorem filed_literalEnd {raw : Option String} (hf : f.AsksNothing)
    (h : c.literalEnd source field path f raw = .ok a) : a.Filed := by
  cases hk : field.kind.axis? with
  | some kind =>
      rw [literalEnd_of_axis hk] at h
      obtain ⟨literal, hliteral, rfl⟩ := Except.map_eq_ok h
      refine filed_rangeEnd hf (hk.trans (congrArg some ?_))
      cases raw with
      | none =>
          obtain rfl := Except.ok.inj hliteral
          rfl
      | some text =>
          rw [literalOf] at hliteral
          exact (RangeLiteral.kind_of_parse hliteral).symm
  | none =>
      -- texts and identifiers add clauses and words
      have hbare : a.fragment.AsksNothing ∧ a.facet = none := by
        unfold literalEnd at h
        cases hkind : field.kind <;> simp only [hkind, DataKind.axis?, reduceCtorEq] at hk h
        all_goals obtain rfl := Except.ok.inj h
        · exact ⟨hf, rfl⟩
        · rw [withWords_eq]
          exact ⟨⟨⟨hf.facetFields, hf.statsFields, hf.ranges⟩, hf.awaited⟩, rfl⟩
      refine filed_of_bare hbare.1.toBare hbare.2 ?_
      rw [hbare.1.awaited]
      exact fun _ hname => absurd hname Std.ExtTreeSet.not_mem_empty

/-- **What a path comes to is filed.** -/
theorem Arrives.filed {family : FieldFamily} (h : c.Arrives family a) : a.Filed := by
  obtain ⟨source, t, path, -, -, h⟩ := h
  have hlevels : (requireLevels .empty t).AsksNothing := by
    rw [requireLevels_eq]
    exact ⟨⟨rfl, rfl, rfl⟩, rfl⟩
  unfold arrival at h
  split at h
  · exact filed_literalEnd hlevels h
  · unfold pathEnd at h
    split at h
    · exact filed_literalEnd hlevels h
    · next hliteral =>
      -- the path ends at entities
      have hname : Field.axis? t.field.name = none := by
        rw [FieldPath.axis?_name]
        cases hkind : t.field.kind <;> simp_all [DataKind.isLiteral, DataKind.axis?]
      obtain rfl := Except.ok.inj h
      refine ⟨⟨?_, ?_, ?_⟩, ?_, ?_, ?_⟩
      · simp only [hlevels.facetFields, Std.ExtTreeSet.mem_insert, Std.LawfulEqCmp.compare_eq_iff_eq,
          Std.ExtTreeSet.not_mem_empty, or_false]
        rintro _ rfl
        exact hname
      · simp [hlevels.ranges]
      · simp [hlevels.ranges, hlevels.statsFields]
      · simp [hlevels.facetFields, hlevels.ranges, PathSource.facet]
      · rintro _ ⟨⟩ kind
        simp [PathSource.facet, hname]
      · simp [hlevels.ranges, hlevels.awaited]

end Compiler

/-! ## Queries -/

/-- A query has facets for just the fields that it asks for, and states for those whose bounds
    matter. -/
structure CompiledQuery.Filed (q : CompiledQuery) : Prop where
  fragment : q.fragment.Filed
  mem_facets : ∀ field, field ∈ q.facets ↔
    field ∈ q.fragment.facetFields ∨ field ∈ q.fragment.ranges
  facet : ∀ (field : String) (m : FacetMeta), q.facets[field]? = some m → m.field = field ∧ m.Fits
  state : ∀ field, field ∈ q.fragment.awaited ∨ field ∈ q.fragment.ranges → field ∈ q.ranges

namespace Compiler

variable {c : Compiler} {q q' : CompiledQuery}

/-- A facet that fits is filed under its field, unless the field has one. -/
theorem fits_insertIfNew {facets : Std.ExtTreeMap String FacetMeta} {m : FacetMeta} (hm : m.Fits)
    (hfacets : ∀ (field : String) (m : FacetMeta), facets[field]? = some m →
      m.field = field ∧ m.Fits) :
    ∀ (field : String) (m' : FacetMeta), (facets.insertIfNew m.field m)[field]? = some m' →
      m'.field = field ∧ m'.Fits := by
  intro field m' h
  rw [Std.ExtTreeMap.getElem?_insertIfNew] at h
  split at h
  · next hnew =>
    obtain rfl := Option.some.inj h
    exact ⟨Std.LawfulEqCmp.compare_eq_iff_eq.1 hnew.1, hm⟩
  · exact hfacets field m' h

theorem fits_foldl_addAlternative {found : List Alternative} (hfound : ∀ a ∈ found, a.Filed)
    (hq : ∀ (field : String) (m : FacetMeta), q.facets[field]? = some m → m.field = field ∧ m.Fits) :
    ∀ (field : String) (m : FacetMeta),
      (found.foldl CompiledQuery.addAlternative q).facets[field]? = some m →
        m.field = field ∧ m.Fits := by
  induction found generalizing q with
  | nil => exact hq
  | cons a rest ih =>
      refine ih (fun b hb => hfound b (List.mem_cons_of_mem _ hb)) ?_
      rw [facets_addAlternative]
      split
      · next m hm => exact fits_insertIfNew ((hfound a (List.mem_cons_self ..)).fits m hm) hq
      · exact hq

theorem filed_requireOneOf {found : List Alternative} (hq : q.fragment.Filed)
    (hfound : ∀ a ∈ found, a.Filed) :
    (q.requireOneOf (found.map (·.fragment))).fragment.Filed := by
  have hfragments : ∀ f ∈ found.map (·.fragment), f.Filed := by
    intro f hf
    obtain ⟨a, ha, rfl⟩ := List.mem_map.1 hf
    exact (hfound a ha).fragment
  have hjoined := hq.absorb (Fragment.filed_anyOf hfragments)
  exact ⟨hjoined.facet, hjoined.range, hjoined.stats⟩

/-- What alternatives do to a query that requires one of them. -/
theorem filed_found {found : List Alternative} (hq : q.Filed) (hfound : ∀ a ∈ found, a.Filed) :
    ((found.foldl CompiledQuery.addAlternative q).requireOneOf (found.map (·.fragment))).Filed where
  fragment := filed_requireOneOf ((fragment_foldl_addAlternative found q).symm ▸ hq.fragment) hfound
  mem_facets field := by
    have hrequest : (∃ a ∈ found, ∃ m, a.facet = some m ∧ m.field = field) ↔
        (∃ f ∈ found.map (·.fragment), field ∈ f.facetFields) ∨
          ∃ f ∈ found.map (·.fragment), field ∈ f.ranges := by
      simp only [List.mem_map, exists_exists_and_eq_and, ← exists_or, ← and_or_left]
      exact exists_congr fun a => and_congr_right fun ha => (hfound a ha).facet field
    rw [CompiledQuery.mem_facetFields_requireOneOf, CompiledQuery.mem_ranges_requireOneOf,
      fragment_foldl_addAlternative, or_or_or_comm, ← hq.mem_facets, ← hrequest]
    exact mem_facets_foldl_addAlternative
  facet := fits_foldl_addAlternative hfound hq.facet
  state field hfield := by
    rw [CompiledQuery.mem_awaited_requireOneOf, CompiledQuery.mem_ranges_requireOneOf,
      fragment_foldl_addAlternative, or_or_or_comm] at hfield
    refine mem_ranges_foldl_addAlternative.2 (hfield.imp (hq.state field) ?_)
    simp only [List.mem_map, exists_exists_and_eq_and, ← exists_or, ← and_or_left]
    rintro ⟨a, ha, hname⟩
    exact ⟨a, ha, (hfound a ha).state field hname⟩

theorem filed_addPaths {outcomes : List PathOutcome} (hq : q.Filed)
    (hfound : ∀ a ∈ outcomes.filterMap PathOutcome.alternative?, a.Filed) :
    (q.addPaths outcomes).Filed := by
  unfold CompiledQuery.addPaths
  dsimp only
  split
  · -- no path has come to anything, so nothing is asked for
    next hnone =>
    rw [List.isEmpty_iff.1 hnone]
    split <;> exact ⟨⟨hq.fragment.facet, hq.fragment.range, hq.fragment.stats⟩, hq.mem_facets,
      hq.facet, hq.state⟩
  · have h := filed_found hq hfound
    exact ⟨h.fragment, h.mem_facets, h.facet, h.state⟩

theorem SameRequests.filed (h : SameRequests q q') (hq : q.Filed) : q'.Filed where
  fragment := by
    refine ⟨?_, ?_, ?_⟩
    · rw [h.facetFields]
      exact hq.fragment.facet
    · rw [h.buckets]
      exact hq.fragment.range
    · rw [h.statsFields, h.buckets]
      exact hq.fragment.stats
  mem_facets := by
    rw [h.facets, h.facetFields, h.buckets]
    exact hq.mem_facets
  facet := by
    rw [h.facets]
    exact hq.facet
  state := by
    rw [h.awaited, h.buckets, h.ranges]
    exact hq.state

/-- No facet that every reply carries has buckets of a range. -/
theorem axis?_of_mem_defaultFacets {params : Params} {m : FacetMeta}
    (hm : m ∈ defaultFacets params) :
    Field.axis? m.field = none ∧ ∀ kind, m.kind ≠ .range kind := by
  rw [defaultFacets, List.mem_append, List.mem_filterMap] at hm
  rcases hm with ⟨family, -, hm⟩ | hm
  · dsimp only at hm
    split at hm
    · exact absurd hm (by simp)
    · obtain rfl := Option.some.inj hm
      exact ⟨FieldPath.axis?_name _, fun _ => by simp⟩
  · simp only [List.mem_cons, List.not_mem_nil, or_false] at hm
    rcases hm with rfl | rfl | rfl <;> exact ⟨by decide, fun _ => by simp⟩

theorem filed_withFacet {params : Params} {m : FacetMeta} (hm : m ∈ defaultFacets params)
    (hq : q.Filed) : (withFacet q m).Filed := by
  obtain ⟨haxis, hkind⟩ := axis?_of_mem_defaultFacets hm
  have hfits : m.Fits := fun kind => iff_of_false (hkind kind) (by simp [haxis])
  refine ⟨⟨?_, hq.fragment.range, hq.fragment.stats⟩, ?_, fits_insertIfNew hfits hq.facet, hq.state⟩
  · intro field hfield
    rcases Std.ExtTreeSet.mem_insert.1 hfield with he | hfield
    · rw [← Std.LawfulEqCmp.compare_eq_iff_eq.1 he, haxis]
    · exact hq.fragment.facet field hfield
  · intro field
    refine Std.ExtTreeMap.mem_insertIfNew.trans ?_
    rw [hq.mem_facets, ← or_assoc]
    exact or_congr_left Std.ExtTreeSet.mem_insert.symm

theorem invariant_filed (c : Compiler) : c.Invariant CompiledQuery.Filed where
  start := by
    refine ⟨Fragment.Bare.filed ⟨rfl, rfl, rfl⟩, fun field => ?_, fun field m h => ?_, fun field h => ?_⟩
    · exact iff_of_false Std.ExtTreeMap.not_mem_empty
        (not_or_intro Std.ExtTreeSet.not_mem_empty Std.ExtTreeMap.not_mem_empty)
    · exact absurd h (by simp [start])
    · exact absurd h (not_or_intro Std.ExtTreeSet.not_mem_empty Std.ExtTreeMap.not_mem_empty)
  addPaths _ hq hfound := filed_addPaths hq fun a ha => (hfound a ha).filed
  sameRequests hq hsame := hsame.filed hq
  withFacet _ hm hq := filed_withFacet hm hq

end Compiler

/-! ## Compiled queries -/

/-- **Facets and requests agree in every query that is compiled**, whatever is in the store, the
    resolver's memory and the table of statistics. The fields with facets are those that are asked for
    their values and those that are asked for buckets, and no field is both. A facet stands under its
    own field, and for a range of an axis just where the field has buckets of this axis. The fields
    with statistics are those with buckets, and every field that waits or has buckets has a state. -/
theorem facets_agree_of_compileFrom {σ : Type} {s : Settings} {b : Backing σ} {stats : StatsTable}
    {params : Params} {x : Session σ} {q : CompiledQuery}
    (h : (compileFrom s b stats params x).1 = .ok q) :
    (∀ field, field ∈ q.facets ↔ field ∈ q.fragment.facetFields ∨ field ∈ q.fragment.ranges) ∧
      (∀ field ∈ q.fragment.facetFields, field ∉ q.fragment.ranges) ∧
      (∀ (field : String) (m : FacetMeta), q.facets[field]? = some m → m.field = field ∧
        ∀ kind, m.kind = .range kind ↔
          ∃ range, q.fragment.ranges[field]? = some range ∧ range.kind = kind) ∧
      (∀ field, field ∈ q.fragment.statsFields ↔ field ∈ q.fragment.ranges) ∧
      ∀ field, field ∈ q.fragment.awaited ∨ field ∈ q.fragment.ranges → field ∈ q.ranges := by
  have hq : q.Filed :=
    of_compileFrom ((s.compilerFor stats).invariant_filed.obeys_compile params) h
  refine ⟨hq.mem_facets, fun _ => hq.fragment.not_mem_ranges, ?_, hq.fragment.stats, hq.state⟩
  intro field m hm
  obtain ⟨rfl, hfits⟩ := hq.facet field m hm
  have hfield : m.field ∈ q.facets := Std.ExtTreeMap.mem_iff_isSome_getElem?.2 (by simp [hm])
  refine ⟨rfl, fun kind => ?_⟩
  rw [hfits kind, hq.fragment.axis?_eq_some_iff ((hq.mem_facets _).1 hfield)]

/-- Weights from 10 to 20, and from 30 on. -/
def mixedWeights : Params := ⟨[("prop", ["weight---10,20||30,"])]⟩

/-- The first alternative has buckets and the second one waits, under one field. -/
theorem facets_agree_of_compileFrom_mixedWeights :
    ∃ q, (compileFrom {} Deployment.backing {} mixedWeights { world := weightDeployment }).1 = .ok q ∧
      "weight___pred_numeric" ∈ q.fragment.awaited ∧
      "weight___pred_numeric" ∈ q.facets ∧ "weight___pred_numeric" ∉ q.fragment.facetFields ∧
      "weight___pred_numeric" ∈ q.fragment.statsFields ∧ "weight___pred_numeric" ∈ q.ranges := by
  let run := compileFrom {} Deployment.backing {} mixedWeights { world := weightDeployment }
  have hrun : run.1.toOption.map (fun q => (q.fragment.ranges.contains "weight___pred_numeric",
      q.fragment.awaited.contains "weight___pred_numeric")) = some (true, true) := by decide +kernel
  cases hq : run.1 with
  | error error => exact absurd hrun (by simp [hq, Except.toOption])
  | ok q =>
      simp only [hq, Except.toOption, Option.map_some, Option.some.injEq, Prod.mk.injEq] at hrun
      have hranges : "weight___pred_numeric" ∈ q.fragment.ranges := hrun.1
      obtain ⟨hfacets, hapart, -, hstats, hstate⟩ := facets_agree_of_compileFrom hq
      exact ⟨q, rfl, hrun.2, (hfacets _).2 (.inr hranges), fun h => hapart _ h hranges,
        (hstats _).2 hranges, hstate _ (.inr hranges)⟩

end FacetSearch
