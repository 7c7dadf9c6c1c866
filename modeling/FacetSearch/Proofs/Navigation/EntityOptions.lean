import FacetSearch.Navigation.EntityFacet
import FacetSearch.Proofs.Ancestry.Exchanges
import FacetSearch.Proofs.Compilation.Accepted
import FacetSearch.Proofs.Navigation.DrillDown
import FacetSearch.Proofs.Request.Choices
import Mathlib

set_option autoImplicit false

/-! # Options of entities

A facet of entities leaves out what its parameter filters on. It reads the values of the parameter with
cuts of its own, and meets exactly the names on the paths that the values expand to
(`mem_namesIn_iff`), so that nothing is offered that has such a name, or the slug or the URI of the
entity behind one. All other values are offered in the order of the index, as far as the limit goes
(`entityFacet_lists`). -/

namespace FacetSearch

variable {c : Compiler} {params : Params} {family : FieldFamily} {raw text : String}
  {found asked : List (String × Option Entity)} {active : List String}

/-! ## Names in values -/

theorem Compiler.unmarked_fst (c : Compiler) (name : String) :
    (c.unmarked name).1 = (Text.dropLead c.settings.relatedMark name).getD name := by
  rw [unmarked]
  cases Text.dropLead c.settings.relatedMark name <;> rfl

theorem namesIn_levels (c : Compiler) (family : FieldFamily) (raw : String) :
    namesIn c.settings (.levels family) raw
      = (((c.settings.expansion (.levels family)).segments raw).flatten.filter
          (!·.isEmpty)).map fun name => (c.unmarked name).1 := by
  have hflatten : ((c.settings.expansion (.levels family)).segments raw).flatten
      = (((c.settings.expansion (.levels family)).cutLevels
          ((c.settings.expansion (.levels family)).bare raw)).flatMap
            (Text.splitAt c.settings.orDelimiter)).map Text.trim := by
    rw [Expansion.segments, ← List.flatMap_def, List.map_flatMap]
    rfl
  rw [hflatten]
  simp only [Compiler.unmarked_fst]
  rfl

/-- A blank value has no names. -/
theorem Expansion.eq_empty_of_isBlank {x : Expansion} (h : x.IsBlank raw) :
    ∀ level ∈ x.segments raw, ∀ name ∈ level, name = "" := by
  have hpieces : ∀ (separator : List Char), ∀ piece ∈ Text.pieces separator [], piece = [] := by
    intro separator piece hpiece
    by_cases hs : separator = []
    · subst hs
      simpa [Text.pieces] using hpiece
    · exact List.infix_nil.1 (Text.infix_of_mem_pieces hs hpiece)
  have hcut : ∀ level ∈ x.cutLevels "", level = "" := by
    intro level hlevel
    unfold cutLevels at hlevel
    split at hlevel
    · obtain ⟨piece, hpiece, rfl⟩ := List.mem_map.1 hlevel
      rw [hpieces _ piece hpiece, String.ofList_nil]
    · exact List.mem_singleton.1 hlevel
  intro level hlevel name hname
  rw [segments, show x.bare raw = "" from h] at hlevel
  obtain ⟨text, htext, rfl⟩ := List.mem_map.1 hlevel
  rw [hcut text htext] at hname
  obtain ⟨_, hwritten, rfl⟩ := List.mem_map.1 hname
  obtain ⟨piece, hpiece, rfl⟩ := List.mem_map.1 hwritten
  rw [hpieces _ piece hpiece]
  rfl

/-- **The names in a value are those on its paths.** -/
theorem mem_namesIn_iff {paths : List (List String)} {name : String}
    (h : (c.settings.expansion (.levels family)).expand [raw] = .ok paths) :
    name ∈ namesIn c.settings (.levels family) raw ↔
      ∃ path ∈ paths, ∃ written ∈ path, (c.unmarked written).1 = name := by
  rw [namesIn_levels, List.mem_map]
  by_cases hblank : (c.settings.expansion (.levels family)).IsBlank raw
  · rw [Expansion.expand_singleton_of_blank (Expansion.levelsOf_eq_none hblank)] at h
    obtain rfl := Except.ok.inj h
    refine iff_of_false ?_ (by simp)
    rintro ⟨written, hwritten, -⟩
    obtain ⟨hwritten, hne⟩ := List.mem_filter.1 hwritten
    obtain ⟨level, hlevel, hname⟩ := List.mem_flatten.1 hwritten
    rw [Expansion.eq_empty_of_isBlank hblank level hlevel written hname] at hne
    exact absurd hne (by decide)
  · obtain ⟨path, hpath⟩ := Expansion.exists_mem_of_expand hblank h
    obtain ⟨-, hread, rfl, -⟩ := Expansion.readable_of_mem_expand h hpath
    have hnames (written : String) :
        written ∈ ((c.settings.expansion (.levels family)).segments raw).flatten.filter (!·.isEmpty) ↔
          ∃ path ∈ Expansion.choices ((c.settings.expansion (.levels family)).segments raw),
            written ∈ path := by
      rw [Expansion.exists_mem_choices_iff fun _ => Expansion.ne_nil_of_mem_segments, List.mem_filter,
        List.mem_flatten, and_iff_left_of_imp]
      rintro ⟨level, hlevel, hwritten⟩
      have hne := hread.alternatives level hlevel written hwritten
      simpa [String.isEmpty_iff] using hne
    constructor
    · rintro ⟨written, hwritten, he⟩
      obtain ⟨path, hpath, hmem⟩ := (hnames written).1 hwritten
      exact ⟨path, hpath, written, hmem, he⟩
    · rintro ⟨path, hpath, written, hmem, he⟩
      exact ⟨written, (hnames written).2 ⟨path, hpath, hmem⟩, he⟩

/-! ## What is filtered on -/

/-- The name stands on a path of the parameter's values, perhaps with a mark of related records. -/
def Compiler.OnPath (c : Compiler) (params : Params) (family : FieldFamily) (name : String) : Prop :=
  ∃ raw ∈ params.values (Parameter.levels family).name, ∃ paths,
    (c.settings.expansion (.levels family)).expand [raw] = .ok paths ∧
      ∃ path ∈ paths, ∃ written ∈ path, (c.unmarked written).1 = name

/-- The parameter filters on a text that is a name on its paths, or the slug or the URI of the entity
    that was found under one. -/
def Compiler.FiltersOn (c : Compiler) (params : Params) (family : FieldFamily)
    (found : List (String × Option Entity)) (text : String) : Prop :=
  text ≠ "" ∧ ∃ name, c.OnPath params family name ∧
    (text = name ∨ ∃ e, (name, some e) ∈ found ∧ (text = e.slug ∨ text = e.uri))

/-- Every name is asked for in turn, and tells itself and what is found under it. -/
theorem of_exchange_identitiesOf {names : List String}
    (h : (identitiesOf names).Exchange found active) :
    found.map (·.1) = names ∧ ∀ text, text ∈ active ↔ text ≠ "" ∧ ∃ entry ∈ found,
      text = entry.1 ∨ ∃ e, entry.2 = some e ∧ (text = e.slug ∨ text = e.uri) := by
  induction names generalizing found active with
  | nil =>
      obtain ⟨rfl, rfl⟩ := Inquiry.exchange_pure_iff.1 h
      simp
  | cons name rest ih =>
      rw [identitiesOf] at h
      obtain ⟨_, behind, answer, rfl, hask, hrest⟩ := Inquiry.exchange_bind_iff.1 h
      obtain rfl := Inquiry.exchange_entity?_iff.1 hask
      obtain ⟨later, _, others, rfl, hothers, hdone⟩ := Inquiry.exchange_bind_iff.1 hrest
      obtain ⟨rfl, rfl⟩ := Inquiry.exchange_pure_iff.1 hdone
      obtain ⟨hnames, hmem⟩ := ih hothers
      refine ⟨by simp [hnames], fun text => ?_⟩
      rw [List.mem_append, List.mem_filter, hmem, List.append_nil, List.singleton_append,
        List.exists_mem_cons_iff, Bool.not_eq_true', ← Bool.not_eq_true, String.isEmpty_iff,
        and_or_left, and_comm]
      cases answer with
      | none => simp
      | some e => simp [Entity.identities]

/-- **What a parameter filters on is read off its paths**, and so are the names that are asked for. -/
theorem of_exchange_activeIdentities
    (hexpands : c.Expands family (params.values (Parameter.levels family).name))
    (h : (activeIdentities c.settings params (.levels family)).Exchange found active) :
    (∀ name, (∃ e?, (name, e?) ∈ found) ↔ c.OnPath params family name) ∧
      ∀ text, text ∈ active ↔ c.FiltersOn params family found text := by
  obtain ⟨hnames, hactive⟩ := of_exchange_identitiesOf h
  have honPath (name : String) : (∃ e?, (name, e?) ∈ found) ↔ c.OnPath params family name := by
    have hmem : name ∈ found.map (·.1) ↔ ∃ e?, (name, e?) ∈ found := by simp
    rw [← hmem, hnames, List.mem_flatMap]
    constructor
    · rintro ⟨raw, hraw, hname⟩
      obtain ⟨paths, hpaths⟩ := hexpands raw hraw
      exact ⟨raw, hraw, paths, hpaths, (mem_namesIn_iff hpaths).1 hname⟩
    · rintro ⟨raw, hraw, paths, hpaths, hname⟩
      exact ⟨raw, hraw, (mem_namesIn_iff hpaths).2 hname⟩
  refine ⟨honPath, fun text => ?_⟩
  rw [hactive, Compiler.FiltersOn]
  refine and_congr_right fun _ => ⟨?_, ?_⟩
  · rintro ⟨⟨name, e?⟩, hentry, htext | ⟨e, rfl, htext⟩⟩
    · exact ⟨name, (honPath name).1 ⟨e?, hentry⟩, .inl htext⟩
    · exact ⟨name, (honPath name).1 ⟨some e, hentry⟩, .inr ⟨e, hentry, htext⟩⟩
  · rintro ⟨name, hname, htext | ⟨e, hentry, htext⟩⟩
    · obtain ⟨e?, hentry⟩ := (honPath name).2 hname
      exact ⟨(name, e?), hentry, .inl htext⟩
    · exact ⟨(name, some e), hentry, .inr ⟨e, rfl, htext⟩⟩

/-! ## Options -/

/-- The option tells of a value with its count. -/
def FacetOption.IsOf (o : FacetOption) (v : CompositeValue × UInt64) : Prop :=
  o.slug = v.1.slug ∧ o.uri = v.1.uri ∧ o.count = v.2

/-- The groups list some values with their counts, each value among those of its kind and in their
    order. -/
structure ListsValues (groups : List OptionGroup) (values : List (CompositeValue × UInt64)) : Prop where
  /-- There is a group for each kind of the values, in the order of kinds. -/
  kinds : groups.map (·.kind) = DataKind.all.filter fun kind => values.any (·.1.kind = kind)
  options : ∀ g ∈ groups,
    List.Forall₂ (fun v o => o.IsOf v) (values.filter (·.1.kind = g.kind)) g.options

theorem options_of_mem_groupOptions {options : List (DataKind × FacetOption)} {g : OptionGroup}
    (h : g ∈ groupOptions options) : g.options = (options.filter (·.1 = g.kind)).map (·.2) := by
  obtain ⟨kind, -, hg⟩ := List.mem_filterMap.1 h
  dsimp only at hg
  split at hg
  · exact absurd hg (by simp)
  · obtain rfl := Option.some.inj hg
    rfl

/-- Options that tell of some values are grouped into lists of them. -/
theorem listsValues_groupOptions {values : List (CompositeValue × UInt64)}
    {options : List (DataKind × FacetOption)}
    (h : List.Forall₂ (fun v o => o.1 = v.1.kind ∧ o.2.IsOf v) values options) :
    ListsValues (groupOptions options) values := by
  have hkind (kind : DataKind) : List.Forall₂ (fun v o => o.1 = v.1.kind ∧ o.2.IsOf v)
      (values.filter (·.1.kind = kind)) (options.filter (·.1 = kind)) := by
    refine List.rel_filter ?_ h
    intro v o hvalue
    simp only [decide_eq_true_eq, hvalue.1]
  constructor
  · rw [groupOptions, List.map_filterMap, ← List.filterMap_eq_filter]
    refine List.filterMap_congr fun kind _ => ?_
    have hlength := (hkind kind).length_eq
    -- a kind has options when it has values
    by_cases hnone : ∀ v ∈ values, v.1.kind ≠ kind
    · have hvalues : values.filter (·.1.kind = kind) = [] :=
        List.filter_eq_nil_iff.2 fun v hv => by simpa using hnone v hv
      rw [hvalues, List.length_nil, eq_comm, List.length_eq_zero_iff] at hlength
      simpa [hlength, Option.guard] using hnone
    · obtain ⟨v, hv, he⟩ : ∃ v ∈ values, v.1.kind = kind := by simpa using hnone
      have hoptions : options.filter (·.1 = kind) ≠ [] := by
        rw [ne_eq, ← List.length_eq_zero_iff, ← hlength, List.length_eq_zero_iff,
          List.filter_eq_nil_iff]
        exact fun hall => hall v hv (by simpa using he)
      have hany : values.any (·.1.kind = kind) = true :=
        List.any_eq_true.2 ⟨v, hv, by simpa using he⟩
      simp [hoptions, Option.guard, hany]
  · intro g hg
    rw [options_of_mem_groupOptions hg, List.forall₂_map_right_iff]
    exact (hkind g.kind).imp fun _ _ hvalue => hvalue.2

/-! ## Facets -/

/-- What an option tells of its value, whatever its label is. -/
theorem obeys_optionOf (l : Links) (params : Params) (m : FacetMeta) (v : CompositeValue)
    (count : UInt64) : (optionOf l params m v count).Obeys (fun _ => True) fun o =>
      o.1 = v.kind ∧ o.2.IsOf (v, count) := by
  have hdone (label : String) : (pure (v.kind, {
      slug := v.slug, label, uri := v.uri, count
      link := l.filterLink (m.drill params v.slug) }) : Inquiry (DataKind × FacetOption)).Obeys
        (fun _ => True) fun o => o.1 = v.kind ∧ o.2.IsOf (v, count) :=
    Inquiry.obeys_pure ⟨rfl, rfl, rfl, rfl⟩
  unfold optionOf
  dsimp only
  split
  · exact Inquiry.obeys_bind (Inquiry.obeys_true _) fun label _ => hdone label
  · exact hdone v.label

theorem Inquiry.obeys_mapM_forall₂ {α β : Type} {asked : String → Prop} {R : α → β → Prop}
    {f : α → Inquiry β} {l : List α} (h : ∀ a ∈ l, (f a).Obeys asked (R a)) :
    (l.mapM f).Obeys asked fun results => List.Forall₂ R l results := by
  induction l with
  | nil => exact Inquiry.obeys_pure .nil
  | cons a rest ih =>
      rw [List.forall_mem_cons] at h
      rw [List.mapM_cons]
      exact Inquiry.obeys_bind h.1 fun b hb => Inquiry.obeys_bind (ih h.2) fun bs hbs =>
        Inquiry.obeys_pure (.cons hb hbs)

theorem obeys_entityFacet (l : Links) (params : Params) (m : FacetMeta) (active : List String)
    (limit : Nat) (counts : List FacetCount) :
    (entityFacet l params m active limit counts).Obeys (fun _ => True) fun facet =>
      ListsValues facet.groups (eligible active limit counts) :=
  Inquiry.obeys_bind (Inquiry.obeys_mapM_forall₂ fun v _ => obeys_optionOf l params m v.1 v.2)
    fun _ hoptions => Inquiry.obeys_pure (listsValues_groupOptions hoptions)

theorem ListsValues.exists_of_mem {groups : List OptionGroup}
    {values : List (CompositeValue × UInt64)} (h : ListsValues groups values) {g : OptionGroup}
    (hg : g ∈ groups) {o : FacetOption} (ho : o ∈ g.options) : ∃ v ∈ values, o.IsOf v := by
  have hoptions := h.options g hg
  obtain ⟨i, hi, rfl⟩ := List.getElem_of_mem ho
  have hi' : i < (values.filter (·.1.kind = g.kind)).length := hoptions.length_eq ▸ hi
  exact ⟨_, (List.mem_filter.1 (List.getElem_mem hi')).1, hoptions.get hi' hi⟩

/-- The values that are not filtered on are those that neither their slug nor their URI tells. -/
theorem offered_iff (hactive : ∀ text, text ∈ active ↔ c.FiltersOn params family found text)
    (v : CompositeValue) : (!v.slug.isEmpty && !v.isAmong active) = true ↔
      v.slug ≠ "" ∧ ¬ c.FiltersOn params family found v.slug ∧
        ¬ c.FiltersOn params family found v.uri := by
  have hempty (text : String) : (!text.isEmpty) = true ↔ text ≠ "" := by simp
  have hamong : v.isAmong active = true ↔
      c.FiltersOn params family found v.slug ∨ c.FiltersOn params family found v.uri := by
    rw [CompositeValue.isAmong, Bool.or_eq_true, Bool.and_eq_true, List.contains_iff_mem,
      List.contains_iff_mem, hactive, hactive, hempty]
    exact or_congr_right ⟨And.right, fun h => ⟨h.1, h⟩⟩
  rw [Bool.and_eq_true, hempty, Bool.not_eq_true', ← Bool.not_eq_true, hamong, not_or]

/-- **A facet of entities lists what is not filtered on, and nothing that is.** When a request compiles,
    the facets of entities that come with it belong to hierarchical parameters. Whatever such a facet
    is, and whatever the answers to the questions are:
    the names that are asked for are those on the paths of the parameter's values; the groups list, with
    their counts, the first `limit` values that have a slug and are not filtered on; and no option has a
    name from a path as its slug, or the slug or the URI of the entity found under one as its own. -/
theorem entityFacet_lists {q : CompiledQuery} {compiled : List (String × Option Entity)}
    (hq : (c.compile params).run.Exchange compiled (.ok q)) (l : Links) (limit : Nat)
    (counts : List FacetCount) :
    (∀ (field : String) (m : FacetMeta), q.facets[field]? = some m → m.kind = .entity →
      ∃ family, m.parameter = .levels family) ∧
    ∀ (m : FacetMeta) (family : FieldFamily), m.parameter = .levels family →
      (∀ answer : String → Option Entity, ∃ found active asked facet,
        (activeIdentities c.settings params m.parameter).Exchange found active ∧
        (entityFacet l params m active limit counts).Exchange asked facet ∧
        ∀ entry ∈ found ++ asked, entry.2 = answer entry.1) ∧
      ∀ found active asked facet,
        (activeIdentities c.settings params m.parameter).Exchange found active →
        (entityFacet l params m active limit counts).Exchange asked facet →
        (∀ name, (∃ e?, (name, e?) ∈ found) ↔ c.OnPath params family name) ∧
        (∃ offered : CompositeValue → Bool,
          (∀ v, offered v = true ↔ v.slug ≠ "" ∧ ¬ c.FiltersOn params family found v.slug ∧
            ¬ c.FiltersOn params family found v.uri) ∧
          ListsValues facet.groups (((counts.map fun f =>
            (CompositeValue.parse f.value, f.count)).filter fun v => offered v.1).take limit)) ∧
        ∀ g ∈ facet.groups, ∀ o ∈ g.options, ∀ name, c.OnPath params family name →
          o.slug ≠ name ∧ ∀ e, (name, some e) ∈ found →
            o.slug ≠ e.slug ∧ (e.uri ≠ "" → o.uri ≠ e.uri) := by
  have hentity := (c.obeys_compile_entity params).inquiry.of_exchange hq q rfl
  have hexpands := (Compiler.obeys_compile_expand params).inquiry.of_exchange hq q rfl
  refine ⟨hentity, fun m family hfamily => ?_⟩
  rw [hfamily]
  refine ⟨fun answer => ?_, fun found active asked facet hactive hfacet => ?_⟩
  · obtain ⟨found, hfound, hanswers⟩ :=
      Inquiry.exists_exchange answer (activeIdentities c.settings params (.levels family))
    obtain ⟨asked, hasked, hanswers'⟩ := Inquiry.exists_exchange answer (entityFacet l params m
      ((activeIdentities c.settings params (.levels family)).answeredBy answer) limit counts)
    exact ⟨found, _, asked, _, hfound, hasked, List.forall_mem_append.2 ⟨hanswers, hanswers'⟩⟩
  · obtain ⟨honPath, hmem⟩ := of_exchange_activeIdentities (hexpands family) hactive
    have hlists := (obeys_entityFacet l params m active limit counts).of_exchange hfacet
    refine ⟨honPath, ⟨_, offered_iff hmem, hlists⟩, fun g hg o ho name hname => ?_⟩
    obtain ⟨v, hv, hslug, huri, -⟩ := hlists.exists_of_mem hg ho
    obtain ⟨hne, hnotslug, hnoturi⟩ :=
      (offered_iff hmem v.1).1 (List.mem_filter.1 (List.mem_of_mem_take hv)).2
    rw [hslug, huri]
    refine ⟨fun he => hnotslug ⟨hne, name, hname, .inl he⟩, fun e he => ⟨fun hsame => ?_,
      fun hnonempty hsame => ?_⟩⟩
    · exact hnotslug ⟨hne, name, hname, .inr ⟨e, he, .inl hsame⟩⟩
    · exact hnoturi ⟨hsame ▸ hnonempty, name, hname, .inr ⟨e, he, .inr hsame⟩⟩

/-! ### Materials -/

def onlyMaterials : Params := ⟨[("prop", ["material"])]⟩

/-- What the index has below materials, of which one value goes by another name. -/
def belowMaterials : List FacetCount :=
  [⟨"material___id___/predicates/m1___Material", 3⟩, ⟨"matter___id___/predicates/m1___Matter", 2⟩,
    ⟨"shell___id___/concepts/s1___Shell", 1⟩]

def materialFacet : FacetMeta where
  field := "material___pred_id"
  parameter := .levels .predicate
  kind := .entity

/-- Shell is offered; the materials themselves are not, whichever name they go by. -/
theorem entityFacet_lists_material :
    ∃ q compiled found active asked facet,
      (Compiler.compile {} onlyMaterials).run.Exchange compiled (.ok q) ∧
      materialFacet.parameter = .levels .predicate ∧
      (activeIdentities {} onlyMaterials materialFacet.parameter).Exchange found active ∧
      (entityFacet ⟨"/query/"⟩ onlyMaterials materialFacet active 5 belowMaterials).Exchange
        asked facet ∧
      (∀ g ∈ facet.groups, ∀ o ∈ g.options, o.slug ≠ "material" ∧ o.uri ≠ "/predicates/m1") ∧
      facet.groups.map (fun g => g.options.map fun o => (o.slug, o.count)) = [[("shell", 1)]] := by
  obtain ⟨compiled, hcompiled, -⟩ :=
    Inquiry.exists_exchange Compiler.materials (Compiler.compile {} onlyMaterials).run
  have hok : (Compiling.under Compiler.materials
      (Compiler.compile {} onlyMaterials)).toOption.isSome := by decide +kernel
  rw [Compiling.under] at hok
  cases hq : (Compiler.compile {} onlyMaterials).run.answeredBy Compiler.materials with
  | error e => exact absurd hok (by simp [hq, Except.toOption])
  | ok q =>
      rw [hq] at hcompiled
      obtain ⟨found, hfound, hanswers⟩ := Inquiry.exists_exchange Compiler.materials
        (activeIdentities {} onlyMaterials materialFacet.parameter)
      obtain ⟨asked, hasked, -⟩ := Inquiry.exists_exchange Compiler.materials
        (entityFacet ⟨"/query/"⟩ onlyMaterials materialFacet
          ((activeIdentities {} onlyMaterials materialFacet.parameter).answeredBy Compiler.materials) 5
          belowMaterials)
      obtain ⟨honPath, -, hnone⟩ := ((entityFacet_lists hcompiled ⟨"/query/"⟩ 5 belowMaterials).2
        materialFacet .predicate rfl).2 found _ asked _ hfound hasked
      have hmaterial : Compiler.OnPath {} onlyMaterials .predicate "material" :=
        ⟨"material", by decide +kernel, [["material"]], by decide +kernel, ["material"],
          by decide +kernel, "material", by decide +kernel, by decide +kernel⟩
      obtain ⟨e?, he⟩ := (honPath "material").2 hmaterial
      obtain rfl : e? = Compiler.materials "material" := hanswers _ he
      refine ⟨q, compiled, found, _, asked, _, hcompiled, rfl, hfound, hasked, fun g hg o ho => ?_,
        by decide +kernel⟩
      obtain ⟨hslug, hentity⟩ := hnone g hg o ho "material" hmaterial
      exact ⟨hslug, (hentity _ he).2 (by decide +kernel)⟩

end FacetSearch
