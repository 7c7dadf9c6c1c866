import FacetSearch.Proofs.Compilation.Effects
import Mathlib

set_option autoImplicit false

/-! # Paths that come to nothing

A name that no entity answers to ends its path, also behind other names that were found and had
brought clauses by then. Nothing of such a path stays in the query but its name: the values of a
parameter compile to what the paths that resolve come to by themselves, in their order
(`compileParameter_of_misses`). When there are paths and none resolves, nothing can be met. The names
are listed once each, in the order in which they first come. -/

namespace FacetSearch

/-! ## Alternatives of other values -/

/-- The alternative as a path of another value has it: only what its facet goes on from differs. -/
def Alternative.of (source : PathSource) (a : Alternative) : Alternative :=
  { a with facet := a.facet.map fun m =>
      { m with source := some source.value, before := source.before, after := source.after } }

/-- What a path comes to, as a path of another value. -/
def PathOutcome.of (source : PathSource) : PathOutcome → PathOutcome
  | compiled a => compiled (a.of source)
  | unresolved name => unresolved name

namespace Compiler

variable {c : Compiler} {answer : String → Option Entity} {family : FieldFamily}
  {source source' : PathSource} {field : FieldPath} {path : List String} {f : Fragment}

theorem rangeEnd_of (h : source.family = source'.family) (literal : RangeLiteral) (given : Bool) :
    c.rangeEnd source field path f literal given
      = (c.rangeEnd source' field path f literal given).of source := by
  have hfacet (kind : FacetKind) : source.facet field kind path
      = { source'.facet field kind path with
          source := some source.value, before := source.before, after := source.after } := by
    simp only [PathSource.facet, h]
  unfold rangeEnd
  dsimp only
  split
  · rfl
  · split
    · rfl
    · split
      · simp only [Alternative.of, Option.map_some, hfacet]
      · rfl

theorem literalEnd_of (h : source.family = source'.family) (raw : Option String) :
    c.literalEnd source field path f raw
      = (c.literalEnd source' field path f raw).map (Alternative.of source) := by
  cases hk : field.kind.axis? with
  | some kind =>
      rw [literalEnd_of_axis hk, literalEnd_of_axis hk]
      cases literalOf kind raw with
      | error e => rfl
      | ok literal => simp only [Except.map, rangeEnd_of h]
  | none =>
      unfold literalEnd
      cases hkind : field.kind <;> simp only [hkind, DataKind.axis?, reduceCtorEq] at hk <;> rfl

theorem pathEnd_of (h : source.family = source'.family) :
    c.pathEnd source field path f = (c.pathEnd source' field path f).map (Alternative.of source) := by
  unfold pathEnd
  split
  · exact literalEnd_of h none
  · simp only [Except.map, Alternative.of, Option.map_some, PathSource.facet, h]

/-- **A path comes to the same in every value**, but for what its facet goes on from. -/
theorem pathFrom_of (h : source.family = source'.family) (names : List String) :
    Compiling.under answer (c.pathFrom source field path f names)
      = (Compiling.under answer (c.pathFrom source' field path f names)).map
          (PathOutcome.of source) := by
  induction names generalizing field path f with
  | nil =>
      simp only [pathFrom, Compiling.under_known, pathEnd_of h]
      cases c.pathEnd source' field path f <;> rfl
  | cons raw rest ih =>
      unfold pathFrom
      by_cases hl : field.kind.isLiteral = true
      · rw [if_pos hl, if_pos hl]
        cases rest with
        | nil =>
            simp only [Compiling.under_known, literalEnd_of h]
            cases c.literalEnd source' field path f (some raw) <;> rfl
        | cons next rest => simp only [Compiling.under_throw, h, Except.map]
      · rw [if_neg hl, if_neg hl]
        simp only [Compiling.under_bind, Compiling.under_entity?]
        cases he : answer (c.unmarked raw).1 with
        | none => rfl
        | some e => exact ih

/-! ## Paths that resolve -/

/-- The first name on a path that no entity answers to. -/
def miss? (c : Compiler) (answer : String → Option Entity) (family : FieldFamily)
    (names : List String) : Option String :=
  match c.trail answer (.root family) names with
  | .error name => some name
  | .ok _ => none

/-- Compile some paths of a hierarchy, and no others. -/
def pathsAlone (c : Compiler) (family : FieldFamily) (paths : List (List String)) :
    Compiling CompiledQuery := do
  return c.start.addPaths (← paths.mapM (c.path { family, value := "" }))

/-- Two alternatives ask for the same, and have facets for the same field. -/
structure SameEnd (a a' : Alternative) : Prop where
  fragment : a.fragment = a'.fragment
  range : a.range = a'.range
  facet : a.facet.map (·.field) = a'.facet.map (·.field)

theorem sameEnd_of (source : PathSource) (a : Alternative) : SameEnd a (a.of source) :=
  ⟨rfl, rfl, by simp [Alternative.of, Function.comp_def]⟩

/-- What paths come to: the first names that are missing, and the alternatives of the others, which are
    also what the others come to alone. -/
theorem found_of_sources {sourced : List (PathSource × List String)} {outcomes : List PathOutcome}
    (hfamily : ∀ x ∈ sourced, x.1.family = family)
    (h : List.Forall₂ (fun x outcome => Compiling.under answer (c.path x.1 x.2) = .ok outcome)
      sourced outcomes) :
    outcomes.filterMap PathOutcome.missing? = (sourced.map Prod.snd).filterMap (c.miss? answer family) ∧
      ∃ found, List.Forall₂ SameEnd (outcomes.filterMap PathOutcome.alternative?) found ∧
        (((sourced.map Prod.snd).filter fun names => (c.miss? answer family names).isNone).mapM
          fun names => Compiling.under answer (c.path { family, value := "" } names))
            = .ok (found.map .compiled) := by
  induction h with
  | nil => exact ⟨rfl, [], .nil, rfl⟩
  | @cons x outcome sourced outcomes hfirst hrest ih =>
      obtain ⟨hmissing, found, hsame, halone⟩ := ih fun y hy => hfamily y (List.mem_cons_of_mem _ hy)
      have hx := hfamily x (List.mem_cons_self ..)
      have hyields := yields_path hfirst
      rw [hx] at hyields
      cases ht : c.trail answer (.root family) x.2 with
      | error name =>
          obtain rfl : outcome = .unresolved name := by simpa only [ht, Yields] using hyields
          have hmiss : c.miss? answer family x.2 = some name := by simp only [miss?, ht]
          refine ⟨?_, found, hsame, ?_⟩
          · rw [List.map_cons, List.filterMap_cons_some hmiss, ← hmissing]
            rfl
          · rw [List.map_cons, List.filter_cons_of_neg (by simp [hmiss])]
            exact halone
      | ok t =>
          simp only [ht, Yields] at hyields
          obtain ⟨a, rfl, -⟩ := hyields
          have hmiss : c.miss? answer family x.2 = none := by simp only [miss?, ht]
          -- the path comes to the same in the value that it stands in
          have hpath : Compiling.under answer (c.path { family, value := "" } x.2)
              = .ok (.compiled (a.of { family, value := "" })) := by
            have hmoved : Compiling.under answer (c.path { family, value := "" } x.2)
                = (Compiling.under answer (c.path x.1 x.2)).map
                    (PathOutcome.of { family, value := "" }) := by
              unfold Compiler.path
              rw [hx]
              exact pathFrom_of hx.symm x.2
            rw [hmoved, hfirst]
            rfl
          refine ⟨?_, a.of { family, value := "" } :: found, .cons (sameEnd_of _ a) hsame, ?_⟩
          · rw [List.map_cons, List.filterMap_cons_none hmiss, ← hmissing]
            rfl
          · rw [List.map_cons, List.filter_cons_of_pos (by simp [hmiss]), List.mapM_cons, hpath, halone]
            rfl

/-! ## Queries -/

section Queries

variable {q q' : CompiledQuery} {found found' : List Alternative}

theorem map_fragment_of_sameEnd (h : List.Forall₂ SameEnd found found') :
    found.map (·.fragment) = found'.map (·.fragment) := by
  induction h with
  | nil => rfl
  | cons hfirst _ ih => rw [List.map_cons, List.map_cons, hfirst.fragment, ih]

theorem ranges_of_sameEnd (h : List.Forall₂ SameEnd found found') (hq : q.ranges = q'.ranges) :
    (found.foldl CompiledQuery.addAlternative q).ranges
      = (found'.foldl CompiledQuery.addAlternative q').ranges := by
  induction h generalizing q q' with
  | nil => exact hq
  | cons hfirst _ ih =>
      refine ih ?_
      rw [ranges_addAlternative, ranges_addAlternative, hfirst.range, hq]

theorem mem_facets_of_sameEnd (h : List.Forall₂ SameEnd found found')
    (hq : ∀ field, field ∈ q.facets ↔ field ∈ q'.facets) (field : String) :
    field ∈ (found.foldl CompiledQuery.addAlternative q).facets ↔
      field ∈ (found'.foldl CompiledQuery.addAlternative q').facets := by
  rw [mem_facets_foldl_addAlternative, mem_facets_foldl_addAlternative, hq field]
  refine or_congr_right ?_
  induction h with
  | nil => rfl
  | @cons a a' _ _ hfirst _ ih =>
      have hfield : (∃ m, a.facet = some m ∧ m.field = field) ↔
          ∃ m, a'.facet = some m ∧ m.field = field := by
        rw [← Option.map_eq_some_iff, ← Option.map_eq_some_iff, hfirst.facet]
      simp only [List.mem_cons, exists_eq_or_imp, hfield, ih]

/-- Paths that come to nothing leave the fragment alone, as long as one comes to something. -/
theorem fragment_of_sameEnd {outcomes : List PathOutcome}
    (h : List.Forall₂ SameEnd (outcomes.filterMap PathOutcome.alternative?) found)
    (hfound : found ≠ [] ∨ outcomes = []) (q : CompiledQuery) :
    (q.addPaths outcomes).fragment = (q.addPaths (found.map .compiled)).fragment := by
  have hfilter : (found.map PathOutcome.compiled).filterMap PathOutcome.alternative? = found ∧
      (found.map PathOutcome.compiled).filterMap PathOutcome.missing? = [] := by
    simp [List.filterMap_map, Function.comp_def, PathOutcome.alternative?, PathOutcome.missing?]
  rw [fragment_addPaths, fragment_addPaths, hfilter.1, hfilter.2, map_fragment_of_sameEnd h]
  rcases hfound with hsome | rfl
  · have hne : outcomes.filterMap PathOutcome.alternative? ≠ [] := fun he =>
      hsome (List.forall₂_nil_left_iff.1 (he ▸ h))
    rw [if_neg hne, if_neg hsome]
  · obtain rfl := List.forall₂_nil_left_iff.1 h
    rfl

/-- Nothing can be met when there are paths and all come to nothing. -/
theorem fragment_of_misses {outcomes : List PathOutcome} (hsome : outcomes ≠ [])
    (hnone : outcomes.filterMap PathOutcome.alternative? = []) (q : CompiledQuery) :
    (q.addPaths outcomes).fragment = q.requireNothing.fragment := by
  have hmissing : outcomes.filterMap PathOutcome.missing? ≠ [] := fun hmissing =>
    hsome (eq_nil_of_filterMap_eq_nil hnone hmissing)
  rw [fragment_addPaths, if_pos hnone, if_neg hmissing]

end Queries

theorem unresolved_foldl_addAlternative (found : List Alternative) (q : CompiledQuery) :
    (found.foldl CompiledQuery.addAlternative q).unresolved = q.unresolved := by
  induction found generalizing q with
  | nil => rfl
  | cons a rest ih =>
      rw [List.foldl_cons, ih]
      unfold CompiledQuery.addAlternative
      cases a.range <;> cases a.facet <;> rfl

theorem unresolved_addPaths (q : CompiledQuery) (outcomes : List PathOutcome) :
    (q.addPaths outcomes).unresolved
      = (outcomes.filterMap PathOutcome.missing?).foldl Fragment.addNew q.unresolved := by
  rw [← unresolved_foldl_addAlternative (outcomes.filterMap PathOutcome.alternative?) q]
  simp only [CompiledQuery.addPaths]
  split
  · split <;> rfl
  · rfl

/-- Adding texts to a list that are not in it yet keeps each where it first comes. -/
theorem foldl_addNew_eq (held new : List String) :
    new.foldl Fragment.addNew held
      = held ++ (new.filter fun text => !held.contains text).eraseDups := by
  induction new generalizing held with
  | nil => simp
  | cons first rest ih =>
      rw [List.foldl_cons, ih, Fragment.addNew]
      by_cases hheld : held.contains first = true
      · rw [if_pos hheld, List.filter_cons_of_neg (by simpa using hheld)]
      · rw [if_neg hheld, List.filter_cons_of_pos (by simpa using hheld), List.eraseDups_cons,
          List.filter_filter, List.append_assoc, List.singleton_append]
        congr 3
        refine List.filter_congr fun text _ => ?_
        by_cases htext : text = first <;> simp [htext]

/-- **Misses are isolated.** When the values of a hierarchical parameter compile, their query has the
    ranges, the facet fields and the fragment that the paths without a missing name come to alone. When
    there are paths and all have one, the fragment is the clause that nothing meets. The missing names
    are listed in the order of their paths, each once. -/
theorem compileParameter_of_misses {values : List String} {q : CompiledQuery}
    (h : Compiling.under answer (c.compileParameter (.levels family) values) = .ok q) :
    let paths := c.paths (.levels family) values
    let kept := paths.filter fun names => (c.miss? answer family names).isNone
    (c.settings.expansion (.levels family)).expand values = .ok paths ∧
      (∃ q', Compiling.under answer (c.pathsAlone family kept) = .ok q' ∧ q.ranges = q'.ranges ∧
        (∀ field, field ∈ q.facets ↔ field ∈ q'.facets) ∧
        (kept ≠ [] ∨ paths = [] → q.fragment = q'.fragment)) ∧
      (paths ≠ [] → kept = [] → q.fragment = { clauses := [.nothing] }) ∧
      q.unresolved = (paths.filterMap (c.miss? answer family)).eraseDups := by
  intro paths kept
  simp only [compileParameter, levels, Compiling.under_bind, Compiling.under_pure] at h
  obtain ⟨outcomes, houtcomes, h⟩ := Except.bind_eq_ok h
  obtain rfl : c.start.addPaths outcomes = q := Except.ok.inj h
  obtain ⟨sourced, hexpand, -, hfamily, hall⟩ := sources_of_values houtcomes
  obtain ⟨hmissing, found, hsame, halone⟩ := found_of_sources hfamily hall
  have hpaths : paths = sourced.map Prod.snd := paths_eq_of_expand hexpand
  clear_value paths
  subst hpaths
  -- the paths without a missing name are those that come to something
  have hkept : kept.length = found.length := by
    rw [(Except.forall₂_of_mapM_eq_ok halone).length_eq, List.length_map]
  have hlength := hall.length_eq
  have hfilter : (found.map PathOutcome.compiled).filterMap PathOutcome.alternative? = found := by
    simp [List.filterMap_map, Function.comp_def, PathOutcome.alternative?]
  refine ⟨hexpand, ⟨c.start.addPaths (found.map .compiled), ?_, ?_, ?_, ?_⟩, ?_, ?_⟩
  · rw [pathsAlone, Compiling.under_bind, Compiling.under_mapM, halone]
    rfl
  · rw [ranges_addPaths, ranges_addPaths, hfilter]
    exact ranges_of_sameEnd hsame rfl
  · intro field
    rw [facets_addPaths, facets_addPaths, hfilter]
    exact mem_facets_of_sameEnd hsame (fun _ => Iff.rfl) field
  · intro hsome
    refine fragment_of_sameEnd hsame ?_ c.start
    rcases hsome with hne | hnil
    · left
      rwa [← List.length_pos_iff, ← hkept, List.length_pos_iff]
    · right
      rw [← List.length_eq_zero_iff, ← hlength, ← List.length_map Prod.snd, hnil]
      rfl
  · intro hsome hnil
    refine fragment_of_misses (fun he => hsome ?_) ?_ c.start
    · rw [← List.length_eq_zero_iff, List.length_map, hlength, he]
      rfl
    · rw [← List.length_eq_zero_iff, hsame.length_eq, ← hkept, hnil]
      rfl
  · rw [unresolved_addPaths, hmissing, foldl_addNew_eq]
    simp [start]

/-- Weights, among them what is not there, once as related records. -/
def weightsAndGaps : List String := ["nowhere||weight---10,20", "rel--gone", "weight", "nowhere"]

/-- The two weights are what counts. -/
theorem compileParameter_of_misses_weightsAndGaps :
    ∃ q, Compiling.under onlyWeight
        (Compiler.compileParameter {} (.levels .predicate) weightsAndGaps) = .ok q ∧
      q.unresolved = ["nowhere", "gone"] ∧
      ∃ q', Compiling.under onlyWeight
          (Compiler.pathsAlone {} .predicate [["weight", "10,20"], ["weight"]]) = .ok q' ∧
        q.fragment = q'.fragment := by
  have hok : (Compiling.under onlyWeight
      (Compiler.compileParameter {} (.levels .predicate) weightsAndGaps)).isOk = true := by
    decide +kernel
  have hpaths : Compiler.paths {} (.levels .predicate) weightsAndGaps
      = [["nowhere", "10,20"], ["weight", "10,20"], ["rel--gone"], ["weight"], ["nowhere"]] := by
    decide +kernel
  have hkept : ([["nowhere", "10,20"], ["weight", "10,20"], ["rel--gone"], ["weight"],
      ["nowhere"]].filter fun names => (Compiler.miss? {} onlyWeight .predicate names).isNone)
        = [["weight", "10,20"], ["weight"]] := by
    decide +kernel
  have hmissing : ([["nowhere", "10,20"], ["weight", "10,20"], ["rel--gone"], ["weight"],
      ["nowhere"]].filterMap (Compiler.miss? {} onlyWeight .predicate)).eraseDups
        = ["nowhere", "gone"] := by
    decide +kernel
  cases hq : Compiling.under onlyWeight
      (Compiler.compileParameter {} (.levels .predicate) weightsAndGaps) with
  | error e => exact absurd (hq ▸ hok) (by simp [Except.isOk, Except.toBool])
  | ok q =>
      obtain ⟨-, ⟨q', hq', -, -, hfragment⟩, -, hunresolved⟩ := compileParameter_of_misses hq
      rw [hpaths, hkept] at hq' hfragment
      rw [hpaths, hmissing] at hunresolved
      exact ⟨q, rfl, hunresolved, q', hq', hfragment (.inl (by simp))⟩

end Compiler

end FacetSearch
