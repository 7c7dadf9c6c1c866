import FacetSearch.Proofs.Compilation.Families
import FacetSearch.Proofs.Request.BlankValues
import FacetSearch.Proofs.Service.Course
import Mathlib

set_option autoImplicit false

/-! # Blank filter values

A blank value of a filter compiles to nothing: its parameter does to a query what it does without the
value (`parameter_append_blank`), and a parameter without other values does nothing at all. One place
looks at the presence of a parameter instead: a hierarchy counts as gone into when its parameter has
any value, so a blank one takes the top of the hierarchy away from the facets that every reply
carries. -/

namespace FacetSearch

namespace Compiler

variable {c : Compiler} {p : Parameter} {value : String} {q : CompiledQuery}

/-! ## Parameters -/

@[simp] theorem requireOneOf_nil (q : CompiledQuery) : q.requireOneOf [] = q := by
  simp only [CompiledQuery.requireOneOf, Fragment.merge, Fragment.absorb, Fragment.anyOf,
    List.foldl_nil, List.map_nil, Fragment.empty, Fragment.joinSets_empty,
    Fragment.foldl_addRange_empty, Clause.disjunction, Clause.distinctGroups]

/-- A parameter without values does nothing. -/
theorem parameter_nil (c : Compiler) (q : CompiledQuery) (p : Parameter) :
    c.parameter q p [] = pure q := by
  have hflat (p : Parameter) : c.flat p [] = .ok [] := rfl
  cases p with
  | levels family => rfl
  | itemType =>
      have hq : c.itemTypes q [] = .ok q := by simp [itemTypes, hflat]
      rw [parameter, hq]
      rfl
  | identifier =>
      have hq : c.identifiers q [] = .ok q := by simp [identifiers, hflat]
      rw [parameter, hq]
      rfl
  | tile space =>
      have hq : c.tiles q space [] = .ok q := by simp [tiles, hflat, sortTiles]
      rw [parameter, hq]
      rfl
  | year bound =>
      have hq : c.years q bound [] = .ok q := by
        rw [years, hflat]
        exact congrArg Except.ok (requireOneOf_nil q)
      rw [parameter, hq]
      rfl
  | _ => rfl

theorem flat_append_blank (h : Text.isBlankText value = true) (before after : List String) :
    c.flat p (before ++ value :: after) = c.flat p (before ++ after) := by
  rw [flat, Expansion.expand_append_blank h, flat]

theorem values_append_blank (h : Text.isBlankText value = true) {family : FieldFamily} {count : Nat}
    (hcount : count ≤ c.settings.maxAlternatives) (before after : List String) :
    c.values family count (before ++ value :: after) = c.values family count (before ++ after) := by
  induction before generalizing count with
  | nil =>
      have hknown (f : List (List String) → Compiling (List PathOutcome)) :
          (.mk (pure (.ok [])) : Compiling (List (List String))) >>= f = f [] := rfl
      rw [List.nil_append, List.nil_append, Compiler.values, Expansion.expand_of_blank h, hknown]
      dsimp only [List.length_nil, Nat.add_zero]
      rw [if_neg (Nat.not_lt.2 hcount)]
      simp only [sources, List.zipIdx_nil, List.map_nil, List.mapM_nil, pure_bind, List.nil_append,
        bind_pure]
  | cons raw rest ih =>
      rw [List.cons_append, List.cons_append, Compiler.values, Compiler.values]
      refine congrArg _ (funext fun paths => ?_)
      dsimp only
      by_cases hlimit : c.settings.maxAlternatives < count + paths.length
      · rw [if_pos hlimit, if_pos hlimit]
        rfl
      · rw [if_neg hlimit, if_neg hlimit, ih (Nat.le_of_not_lt hlimit)]

theorem parameter_append_blank (hp : p.isFilter = true) (h : Text.isBlankText value = true)
    (q : CompiledQuery) (before after : List String) :
    c.parameter q p (before ++ value :: after) = c.parameter q p (before ++ after) := by
  cases p with
  | levels family =>
      rw [parameter, parameter, levels, levels, values_append_blank h (Nat.zero_le _)]
  | itemType => rw [parameter, parameter, itemTypes, itemTypes, flat_append_blank h]
  | text =>
      rw [parameter, parameter, freeText, freeText]
      simp only [List.flatMap_append, List.flatMap_cons, Term.tokenize_of_blank h, List.nil_append]
  | identifier => rw [parameter, parameter, identifiers, identifiers, flat_append_blank h]
  | tile space => rw [parameter, parameter, tiles, tiles, flat_append_blank h]
  | year bound => rw [parameter, parameter, years, years, flat_append_blank h]
  | _ => exact absurd hp (by simp [Parameter.isFilter])

/-! ## Requests -/

/-- **The parameters of a request do the same with a blank filter value and without it.** -/
theorem parameters_of_gains (hp : p.isFilter = true) (hblank : Text.isBlankText value = true)
    {entries entries' : List (String × List String)} (h : Params.Gains p.name value entries entries')
    (q : CompiledQuery) : c.parameters q entries' = c.parameters q entries := by
  induction h generalizing q with
  | among before after rest =>
      rw [parameters, parameters]
      simp only [ofName?_name, parameter_append_blank hp hblank]
  | alone rest =>
      have hnone : c.parameter q p [value] = pure q :=
        (parameter_append_blank hp hblank q [] []).trans (parameter_nil c q p)
      rw [parameters]
      simp only [ofName?_name, hnone, pure_bind]
  | @later entry _ _ _ _ ih =>
      rw [parameters, parameters]
      split
      · exact ih q
      · exact bind_congr fun q => ih q

/-! ## Facets that every reply carries -/

/-- The facet of the top of a hierarchy. -/
def topFacet (family : FieldFamily) : FacetMeta :=
  { field := (FieldPath.root family).name, parameter := .levels family, kind := .entity }

/-- The facet of the top of a hierarchy, unless the request goes into it. -/
def topFacet? (params : Params) (family : FieldFamily) : Option FacetMeta :=
  if params.contains (Parameter.levels family).name then none else some (topFacet family)

/-- The facets that do not depend on the request. -/
def fixedFacets : List FacetMeta :=
  [{ field := Field.itemType, parameter := .itemType, kind := .itemType },
    { field := Field.chronoTile, parameter := .tile .chrono, kind := .tile .chrono },
    { field := Field.geoTile, parameter := .tile .geo, kind := .tile .geo }]

theorem defaultFacets_eq (params : Params) :
    defaultFacets params
      = [.context, .predicate, .project].filterMap (topFacet? params) ++ fixedFacets := rfl

theorem mem_facets_foldl_withFacet {facets : List FacetMeta} {field : String} :
    field ∈ (facets.foldl withFacet q).facets ↔ field ∈ q.facets ∨ ∃ m ∈ facets, m.field = field := by
  induction facets generalizing q with
  | nil => simp
  | cons m rest ih =>
      rw [List.foldl_cons, ih]
      have hfirst : field ∈ (withFacet q m).facets ↔ m.field = field ∨ field ∈ q.facets :=
        Std.ExtTreeMap.mem_insertIfNew.trans (or_congr_left Std.LawfulEqCmp.compare_eq_iff_eq)
      simp only [hfirst, List.mem_cons, exists_eq_or_imp]
      rw [or_comm (a := m.field = field), or_assoc]

/-- Facets of different fields may come in any order. -/
theorem withFacet_comm {m m' : FacetMeta} (hne : m.field ≠ m'.field) (q : CompiledQuery) :
    withFacet (withFacet q m) m' = withFacet (withFacet q m') m := by
  have hfields : (q.fragment.facetFields.insert m.field).insert m'.field
      = (q.fragment.facetFields.insert m'.field).insert m.field := by
    refine Std.ExtTreeSet.ext_mem fun field => ?_
    simp only [Std.ExtTreeSet.mem_insert]
    exact or_left_comm
  have hfacets : (q.facets.insertIfNew m.field m).insertIfNew m'.field m'
      = (q.facets.insertIfNew m'.field m').insertIfNew m.field m := by
    refine Std.ExtTreeMap.ext_getElem? fun field => ?_
    simp only [Std.ExtTreeMap.getElem?_insertIfNew, Std.ExtTreeMap.mem_insertIfNew,
      Std.LawfulEqCmp.compare_eq_iff_eq]
    by_cases hm : m.field = field
    · have hm' : m'.field ≠ field := fun he => hne (hm.trans he.symm)
      simp [hm, hm']
    · by_cases hm' : m'.field = field
      · simp [hm', hm]
      · simp [hm, hm']
  simp only [withFacet, CompiledQuery.addFacet, hfields, hfacets]

theorem foldl_withFacet_of_perm {facets facets' : List FacetMeta} (h : facets.Perm facets')
    (hfields : ∀ m ∈ facets, ∀ m' ∈ facets, m.field = m'.field → m = m') (q : CompiledQuery) :
    facets.foldl withFacet q = facets'.foldl withFacet q := by
  refine h.foldl_eq' (fun m hm m' hm' q => ?_) q
  by_cases he : m.field = m'.field
  · rw [hfields m hm m' hm' he]
  · exact withFacet_comm he q

/-- No request has other facets than the empty one. -/
theorem mem_defaultFacets_empty {params : Params} {m : FacetMeta} (hm : m ∈ defaultFacets params) :
    m ∈ defaultFacets {} := by
  rw [defaultFacets_eq, List.mem_append] at hm ⊢
  refine hm.imp_left fun hm => ?_
  obtain ⟨family, hfamily, hm⟩ := List.mem_filterMap.1 hm
  refine List.mem_filterMap.2 ⟨family, hfamily, ?_⟩
  unfold topFacet? at hm
  split at hm
  · exact absurd hm (by simp)
  · exact hm

/-- Facets that every reply carries are told apart by their fields. -/
theorem eq_of_mem_defaultFacets {params params' : Params} {m m' : FacetMeta}
    (hm : m ∈ defaultFacets params) (hm' : m' ∈ defaultFacets params') (he : m.field = m'.field) :
    m = m' := by
  have hnodup : ((defaultFacets {}).map FacetMeta.field).Nodup := by decide +kernel
  exact List.inj_on_of_nodup_map hnodup (mem_defaultFacets_empty hm) (mem_defaultFacets_empty hm') he

theorem topFacet_mem_defaultFacets {params : Params} {family : FieldFamily} :
    topFacet family ∈ defaultFacets params ↔
      params.contains (Parameter.levels family).name = false := by
  have hfixed : topFacet family ∉ fixedFacets := by cases family <;> decide
  rw [defaultFacets_eq, List.mem_append, or_iff_left hfixed, List.mem_filterMap]
  constructor
  · rintro ⟨other, -, hother⟩
    unfold topFacet? at hother
    split at hother
    · exact absurd hother (by simp)
    · next habsent =>
      have hsame := congrArg FacetMeta.parameter (Option.some.inj hother)
      obtain rfl : other = family := Parameter.levels.inj hsame
      simpa using habsent
  · intro habsent
    exact ⟨family, by cases family <;> decide, by simp [topFacet?, habsent]⟩

/-- Dropping one more member of a list. -/
theorem perm_filterMap_of_drop {α β : Type} {f f' : α → Option β} {a : α} {b : β} {l : List α}
    (hl : l.Nodup) (ha : a ∈ l) (hsome : f a = some b) (hnone : f' a = none)
    (hothers : ∀ x, x ≠ a → f' x = f x) : (l.filterMap f).Perm (b :: l.filterMap f') := by
  induction l with
  | nil => exact absurd ha List.not_mem_nil
  | cons x rest ih =>
      obtain ⟨hx, hrest⟩ := List.nodup_cons.1 hl
      rcases List.mem_cons.1 ha with rfl | hmem
      · have hsame : rest.filterMap f' = rest.filterMap f :=
          List.filterMap_congr fun y hy => hothers y fun he => hx (he ▸ hy)
        rw [List.filterMap_cons_some hsome, List.filterMap_cons_none hnone, hsame]
      · have hne : x ≠ a := fun he => hx (he ▸ hmem)
        have htail := ih hrest hmem
        cases hfx : f x with
        | none =>
            rw [List.filterMap_cons_none hfx, List.filterMap_cons_none ((hothers x hne).trans hfx)]
            exact htail
        | some y =>
            rw [List.filterMap_cons_some hfx, List.filterMap_cons_some ((hothers x hne).trans hfx)]
            exact (htail.cons y).trans (.swap b y _)

section Presence

variable {params params' : Params} {family : FieldFamily}

/-- A value of a parameter that has none takes the top of its hierarchy away, and no other facet. -/
theorem perm_defaultFacets
    (hothers : ∀ name, name ≠ (Parameter.levels family).name →
      params'.contains name = params.contains name)
    (habsent : params.contains (Parameter.levels family).name = false)
    (hpresent : params'.contains (Parameter.levels family).name = true) :
    (defaultFacets params).Perm (defaultFacets params' ++ [topFacet family]) := by
  have hsame : ∀ other, other ≠ family → topFacet? params' other = topFacet? params other := by
    intro other hne
    have hname : (Parameter.levels other).name ≠ (Parameter.levels family).name := fun he => hne
      (Parameter.levels.inj (Option.some.inj ((ofName?_name _).symm.trans (he ▸ ofName?_name _))))
    simp only [topFacet?, hothers _ hname]
  have htops := perm_filterMap_of_drop (b := topFacet family) (l := [.context, .predicate, .project])
    (by decide) (by cases family <;> decide) (by simp [topFacet?, habsent])
    (by simp [topFacet?, hpresent]) hsame
  rw [defaultFacets_eq, defaultFacets_eq]
  refine (htops.append_right fixedFacets).trans ?_
  exact (List.perm_append_singleton _ _).symm

/-- Without a value of its parameter, no path has brought a facet of a hierarchy. -/
theorem absent_parameters (hnames : params.DistinctNames)
    (habsent : params.contains (Parameter.levels family).name = false) :
    (c.parameters c.start params.entries).Obeys (· ∈ c.askedNames params.entries)
      fun q => ∀ field, family.Names field → field ∉ q.facets := by
  have hkept : c.Kept (· ≠ family) fun q => ∀ field, family.Names field → field ∉ q.facets := by
    constructor
    · intro q outcomes other hne hq hfound field hfield hmem
      rw [facets_addPaths, mem_facets_foldl_addAlternative] at hmem
      rcases hmem with hmem | ⟨a, ha, m, hm, rfl⟩
      · exact hq field hfield hmem
      · exact hne (FieldFamily.eq_of_names ((hfound a ha).within.facet m hm) hfield)
    · intro q q' hq hsame
      rw [hsame.facets]
      exact hq
  refine hkept.obeys_parameters ?_ fun field _ => Std.ExtTreeMap.not_mem_empty
  rintro _ values hmem hvalues rfl
  rw [Params.contains, Params.values_of_mem hnames hmem] at habsent
  exact hvalues (by simpa using habsent)

/-- Where the presence of one parameter differs, the facets that every reply carries differ in the top
    of its hierarchy. -/
theorem foldl_defaultFacets_of_absent
    (hothers : ∀ name, name ≠ (Parameter.levels family).name →
      params'.contains name = params.contains name)
    (habsent : params.contains (Parameter.levels family).name = false)
    (hpresent : params'.contains (Parameter.levels family).name = true) (q : CompiledQuery) :
    (defaultFacets params).foldl withFacet q
      = withFacet ((defaultFacets params').foldl withFacet q) (topFacet family) := by
  rw [foldl_withFacet_of_perm (perm_defaultFacets hothers habsent hpresent)
    fun m hm m' hm' he => eq_of_mem_defaultFacets hm hm' he, List.foldl_append]
  rfl

/-- A query without facets of the hierarchy tells the difference. -/
theorem foldl_defaultFacets_ne_of_absent
    (habsent : params.contains (Parameter.levels family).name = false)
    (hpresent : params'.contains (Parameter.levels family).name = true)
    (hq : ∀ field, family.Names field → field ∉ q.facets) :
    (defaultFacets params').foldl withFacet q ≠ (defaultFacets params).foldl withFacet q := by
  have htop := topFacet_mem_defaultFacets.2 habsent
  intro hsame
  have hmem : (topFacet family).field ∈ ((defaultFacets params').foldl withFacet q).facets := by
    rw [hsame]
    exact mem_facets_foldl_withFacet.2 (.inr ⟨_, htop, rfl⟩)
  rcases mem_facets_foldl_withFacet.1 hmem with hmem | ⟨m, hm, he⟩
  · exact hq _ (FieldPath.names_name (.root family)) hmem
  · obtain rfl := eq_of_mem_defaultFacets hm htop he
    exact absurd (hpresent.symm.trans (topFacet_mem_defaultFacets.1 hm)) (by simp)

/-- Where the presence of no hierarchical parameter differs, the facets are the same. -/
theorem defaultFacets_congr (hothers : ∀ name, name ≠ p.name →
      params'.contains name = params.contains name)
    (hlevels : ∀ family, p = .levels family → params'.contains p.name = params.contains p.name) :
    defaultFacets params' = defaultFacets params := by
  have hsame : topFacet? params' = topFacet? params := by
    funext family
    by_cases hfamily : p = .levels family
    · have hp := hlevels family hfamily
      subst hfamily
      simp only [topFacet?, hp]
    · have hname : (Parameter.levels family).name ≠ p.name := fun he => hfamily
        (Option.some.inj ((ofName?_name p).symm.trans (he ▸ ofName?_name (.levels family))))
      simp only [topFacet?, hothers _ hname]
  rw [defaultFacets_eq, hsame, defaultFacets_eq]

end Presence

end Compiler

/-! ## Queries in a session -/

section Sessions

variable {σ : Type} {s : Settings} {b : Backing σ} {stats : StatsTable} {params params' : Params}

/-- What the parameters of a request come to in a session, before the facets that every reply
    carries. -/
def narrowedFrom (s : Settings) (b : Backing σ) (stats : StatsTable)
    (entries : List (String × List String)) (x : Session σ) :
    Except SearchError CompiledQuery × Session σ :=
  let c := s.compilerFor stats
  let run := ((((c.parameters c.start entries).run).run (resolve? b s.resolver)).run).run x
  (joinErrors run.1, run.2)

theorem compileFrom_eq_narrowedFrom (x : Session σ) :
    compileFrom s b stats params x
      = ((narrowedFrom s b stats params.entries x).1.map
          ((Compiler.defaultFacets params).foldl Compiler.withFacet),
        (narrowedFrom s b stats params.entries x).2) := by
  rw [compileFrom_eq, narrowedFrom, Compiler.compile]
  dsimp only
  rw [ExceptT.run_bind, Inquiry.run_bind, run_bind_lookups]
  rcases ((Inquiry.run (resolve? b s.resolver) _).run).run x with ⟨_ | _ | _, y⟩ <;> rfl

/-- **A blank filter value changes nothing, unless it is all that a hierarchy has.** It is no filter,
    the resolver is asked the same, and the request is refused for the same reason, or it compiles to
    the same query; only when a hierarchical parameter has no other value does the query lose the facet
    of the top of its hierarchy, and nothing else. -/
theorem compileFrom_of_blank {p : Parameter} {value : String} (hp : p.isFilter = true)
    (hblank : Text.isBlankText value = true) (hnames : params.DistinctNames)
    (h : Params.Gains p.name value params.entries params'.entries) (x : Session σ) :
    filterValues params' = filterValues params ∧
      (compileFrom s b stats params' x).2 = (compileFrom s b stats params x).2 ∧
      (∀ error, (compileFrom s b stats params' x).1 = .error error ↔
        (compileFrom s b stats params x).1 = .error error) ∧
      ∀ q, (compileFrom s b stats params x).1 = .ok q →
        ∃ q', (compileFrom s b stats params' x).1 = .ok q' ∧
          (q' = q ↔ ∀ family, p = .levels family → params.contains p.name = true) ∧
          ∀ family, p = .levels family → params.contains p.name = false →
            q = Compiler.withFacet q' (Compiler.topFacet family) := by
  have hsame : narrowedFrom s b stats params'.entries x = narrowedFrom s b stats params.entries x := by
    rw [narrowedFrom, Compiler.parameters_of_gains hp hblank h, narrowedFrom]
  refine ⟨Params.filterValues_of_gains hblank h, ?_⟩
  rw [compileFrom_eq_narrowedFrom, compileFrom_eq_narrowedFrom, hsame]
  refine ⟨rfl, ?_⟩
  dsimp only
  cases hrun : (narrowedFrom s b stats params.entries x).1 with
  | error error => exact ⟨fun _ => Iff.rfl, fun q hq => absurd hq (by simp [Except.map])⟩
  | ok q₁ =>
      refine ⟨by simp [Except.map], ?_⟩
      intro q hq
      obtain rfl := Except.ok.inj hq
      have hothers : ∀ name, name ≠ p.name → params'.contains name = params.contains name := by
        intro name hne
        rw [Params.contains, Params.values_of_gains_of_ne hne h, Params.contains]
      have hpresent : params'.contains p.name = true := Params.contains_of_gains h
      refine ⟨_, rfl, ⟨?_, fun hlevels => ?_⟩, ?_⟩
      · rintro hquery family rfl
        by_contra habsent
        rw [Bool.not_eq_true] at habsent
        have hnone := of_joinErrors (Compiler.absent_parameters hnames habsent) hrun
        exact Compiler.foldl_defaultFacets_ne_of_absent habsent hpresent hnone hquery
      · have hfacets := Compiler.defaultFacets_congr hothers fun family hfamily =>
          hpresent.trans (hlevels family hfamily).symm
        rw [hfacets]
      · rintro family rfl habsent
        exact Compiler.foldl_defaultFacets_of_absent hothers habsent hpresent q₁

end Sessions

/-- Weights between 10 and 20. -/
def someWeights : Params := ⟨[("prop", ["weight---10,20"])]⟩

/-- A blank value behind a weight changes nothing. -/
theorem compileFrom_of_blank_someWeights :
    ∃ q, (compileFrom {} Deployment.backing {} someWeights { world := weightDeployment }).1 = .ok q ∧
      (compileFrom {} Deployment.backing {} (someWeights.push "prop" " ")
        { world := weightDeployment }).1 = .ok q := by
  have hok : (compileFrom {} Deployment.backing {} someWeights
      { world := weightDeployment }).1.isOk = true := by decide +kernel
  have hnames : someWeights.DistinctNames := List.nodup_singleton _
  have hgains : Params.Gains (Parameter.levels .predicate).name " " someWeights.entries
      (someWeights.push "prop" " ").entries := someWeights.gains_push "prop" " "
  cases hq : (compileFrom {} Deployment.backing {} someWeights { world := weightDeployment }).1 with
  | error error => exact absurd (hq ▸ hok) (by simp [Except.isOk, Except.toBool])
  | ok q =>
      obtain ⟨-, -, -, hquery⟩ := compileFrom_of_blank (s := {}) (b := Deployment.backing) rfl
        (by decide) hnames hgains { world := weightDeployment }
      obtain ⟨q', hq', hsame, -⟩ := hquery q hq
      obtain rfl := hsame.2 fun _ _ => by decide
      exact ⟨_, rfl, hq'⟩

/-- By itself it takes the top of the properties away. -/
theorem compileFrom_differs_of_blank :
    Text.isBlankText " " = true ∧ (Parameter.levels .predicate).isFilter = true ∧
      filterValues (({} : Params).push "prop" " ") = [] ∧
      ∃ q q', (compileFrom {} Deployment.backing {} {} { world := weightDeployment }).1 = .ok q ∧
        (compileFrom {} Deployment.backing {} (({} : Params).push "prop" " ")
          { world := weightDeployment }).1 = .ok q' ∧
        "root___pred_id" ∈ q.facets ∧ "root___pred_id" ∈ q.fragment.facetFields ∧
        "root___pred_id" ∉ q'.facets ∧ "root___pred_id" ∉ q'.fragment.facetFields := by
  have hfields : (compileFrom {} Deployment.backing {} {} { world := weightDeployment }).1.toOption.map
      (fun q => (q.facets.contains "root___pred_id", q.fragment.facetFields.contains "root___pred_id"))
        = some (true, true) := by decide +kernel
  have hfields' : (compileFrom {} Deployment.backing {} (({} : Params).push "prop" " ")
      { world := weightDeployment }).1.toOption.map
      (fun q => (q.facets.contains "root___pred_id", q.fragment.facetFields.contains "root___pred_id"))
        = some (false, false) := by decide +kernel
  refine ⟨by decide, by decide, by decide +kernel, ?_⟩
  cases hq : (compileFrom {} Deployment.backing {} {} { world := weightDeployment }).1 with
  | error error => exact absurd (hq ▸ hfields) (by simp [Except.toOption])
  | ok q =>
      cases hq' : (compileFrom {} Deployment.backing {} (({} : Params).push "prop" " ")
          { world := weightDeployment }).1 with
      | error error => exact absurd (hq' ▸ hfields') (by simp [Except.toOption])
      | ok q' =>
          simp only [hq, Except.toOption, Option.map_some, Option.some.injEq, Prod.mk.injEq] at hfields
          simp only [hq', Except.toOption, Option.map_some, Option.some.injEq, Prod.mk.injEq] at hfields'
          refine ⟨q, q', rfl, rfl, hfields.1, hfields.2, fun h => ?_, fun h => ?_⟩
          · exact absurd (Std.ExtTreeMap.contains_iff_mem.2 h) (by simp [hfields'.1])
          · exact absurd (Std.ExtTreeSet.contains_iff_mem.2 h) (by simp [hfields'.2])

end FacetSearch
