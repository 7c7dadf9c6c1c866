import FacetSearch.Navigation.Assembly
import FacetSearch.Proofs.Ancestry.Steady
import FacetSearch.Proofs.Request.QueryText
import FacetSearch.Proofs.Text.Cutting

set_option autoImplicit false

/-! # Links of a page

A link is what every link starts with, a question mark, and the query text of a request; a request
without parameters has no query text. Whoever follows a link sends what stands behind the question mark,
and as query texts are read back (`Params.parse_toQueryString`), that is the request the link was made
of, as long as links start with a text without question marks (`target_link`). So the links of a page to
itself, to other pages, to other orders and to the results without one of its filters lead to the request
of the page with the one edit that they offer (`links_faithful`). -/

namespace FacetSearch

/-! ## Following a link -/

namespace Links

variable {l : Links} {p : Params}

/-- What stands behind the first question mark of a link. -/
def queryText (link : String) : String := ((Text.splitFirst "?" link).map (·.2)).getD ""

/-- The request that a link leads to. -/
def target (link : String) : Params := Params.parse (queryText link)

theorem queryText_link (hbase : '?' ∉ l.base.toList) (p : Params) :
    queryText (l.link p) = p.toQueryString := by
  have hmark : "?".toList = ['?'] := rfl
  have habsent : ¬ ['?'] <:+: l.base.toList := fun h => hbase (h.subset (List.mem_singleton_self _))
  unfold link
  dsimp only
  split
  · next hempty =>
    -- without parameters there is no question mark, and nothing to read
    rw [queryText, Text.splitFirst, hmark, Text.cutFirst_eq_none_iff.2 habsent]
    exact (String.isEmpty_iff.1 hempty).symm
  · have hclear : Text.Clear ['?'] l.base.toList := by
      rw [Text.Clear, List.dropLast_singleton, List.append_nil]
      exact habsent
    rw [queryText, Text.splitFirst, String.toList_append, String.toList_append, hmark,
      Text.cutFirst_of_clear (List.cons_ne_nil _ _) hclear]
    exact String.ofList_toList

/-- **A link leads to the request that it was made of.** -/
theorem target_link (hbase : '?' ∉ l.base.toList) (h : p.WellFormed) : target (l.link p) = p := by
  rw [target, queryText_link hbase, Params.parse_toQueryString h]

end Links

/-! ## Pages -/

/-- The links of a page lead to its request with one edit: none, another offset, one sort term in the
    place of all others, or a filter less. The last two start again at the first page. -/
structure ResultPage.Faithful (page : ResultPage) (p : Params) : Prop where
  id : Links.target page.id = p
  first : ∀ link ∈ page.paging.first,
    Links.target link = p.withSingle Parameter.start.name (toString 0)
  previous : ∀ link ∈ page.paging.previous,
    Links.target link = p.withSingle Parameter.start.name (toString (page.start - page.rows))
  next : ∀ link ∈ page.paging.next,
    Links.target link = p.withSingle Parameter.start.name (toString (nextStart page.start page.rows))
  last : ∀ link ∈ page.paging.last,
    Links.target link = p.withSingle Parameter.start.name (toString (lastStart page.total page.rows))
  sort : ∀ option ∈ page.sort.options, ∃ link, option.link = some link ∧ Links.target link
    = (p.withSingle Parameter.sort.name (option.key ++ SortTerm.orderMark ++ option.order.name)).without
        Parameter.start.name
  filters : ∀ f ∈ page.filters, (Links.target f.removal).entries
    = (p.entries.filterMap (Params.dropValue f.parameter f.value)).filter (·.1 ≠ Parameter.start.name)

section Parts

variable (l : Links) (p : Params)

theorem eq_pageLink_of_mem_paging (total start rows : Nat) :
    (∀ link ∈ (paging l p total start rows).first, link = l.pageLink p 0) ∧
    (∀ link ∈ (paging l p total start rows).previous, link = l.pageLink p (start - rows)) ∧
    (∀ link ∈ (paging l p total start rows).next, link = l.pageLink p (nextStart start rows)) ∧
    (∀ link ∈ (paging l p total start rows).last, link = l.pageLink p (lastStart total rows)) := by
  have offered {here : Prop} [Decidable here] {offset : Nat} {link : String}
      (h : link ∈ if here then some (l.pageLink p offset) else none) : link = l.pageLink p offset := by
    split at h
    · exact (Option.some.inj h).symm
    · exact absurd h (Option.not_mem_none _)
  unfold paging
  split
  · simp
  · refine ⟨?_, ?_, ?_, ?_⟩
    all_goals
      intro link h
      simp only [decide_eq_true_eq] at h
      exact offered h

theorem activeFilter_obeys (s : CompilerSettings) (parameter : Parameter) (value : String) :
    (activeFilter s l p parameter value).Obeys (fun _ => True) fun f =>
      f.removal = l.filterLink (p.withoutValue f.parameter f.value) := by
  unfold activeFilter
  refine Inquiry.obeys_bind (Inquiry.obeys_true _) ?_
  intro label _
  exact Inquiry.obeys_pure (by dsimp only)

theorem activeFilters_obeys (s : CompilerSettings) :
    (activeFilters s l p).Obeys (fun _ => True) fun filters =>
      ∀ f ∈ filters, f.removal = l.filterLink (p.withoutValue f.parameter f.value) := by
  unfold activeFilters
  exact Inquiry.obeys_mapM fun filter _ => activeFilter_obeys l p s filter.1 filter.2

end Parts

/-- What a page is made of, whoever answers to the names that it asks for. -/
theorem Assembly.page_obeys (a : Assembly) (hbase : '?' ∉ a.settings.baseUrl.toList)
    (h : a.params.WellFormed) : a.page.Obeys (fun _ => True) fun page => page.Faithful a.params := by
  have hlink {p : Params} (hp : p.WellFormed) : Links.target (a.links.link p) = p :=
    Links.target_link hbase hp
  have hpage (offset : Nat) : Links.target (a.links.pageLink a.params offset)
      = a.params.withSingle Parameter.start.name (toString offset) := hlink (h.withSingle _ _)
  refine Inquiry.obeys_bind (Inquiry.obeys_true _) fun facets _ => ?_
  refine Inquiry.obeys_bind (activeFilters_obeys ..) fun filters hfilters => ?_
  obtain ⟨hfirst, hprevious, hnext, hlast⟩ := eq_pageLink_of_mem_paging a.links a.params
    a.reply.numFound a.query.start a.query.rows
  exact Inquiry.obeys_pure {
    id := hlink h
    first := fun link hmem => hfirst link hmem ▸ hpage _
    previous := fun link hmem => hprevious link hmem ▸ hpage _
    next := fun link hmem => hnext link hmem ▸ hpage _
    last := fun link hmem => hlast link hmem ▸ hpage _
    sort := fun option hmem => by
      obtain ⟨term, -, rfl⟩ := List.mem_map.1 hmem
      exact ⟨_, rfl, hlink ((h.withSingle _ _).without _)⟩
    filters := fun f hmem => by
      rw [hfilters f hmem, Links.filterLink, hlink ((h.withoutValue _ _).without _), Params.without,
        Params.entries_withoutValue h.distinct] }

/-- **Navigation links are faithful.** What a request writes is read back as the request, and so the
    links of every page that is assembled for it lead to the request with the edits that they offer. -/
theorem links_faithful {p : Params} (h : p.WellFormed) :
    Params.parse p.toQueryString = p ∧
    ∀ a : Assembly, a.params = p → '?' ∉ a.settings.baseUrl.toList →
      ∀ (σ : Type) (look : String → Lookups σ (Option Entity)) (x : Session σ) (page : ResultPage),
        (((a.page.run look).run).run x).1 = .ok page → page.Faithful p := by
  refine ⟨Params.parse_toQueryString h, ?_⟩
  rintro a rfl hbase σ look x page hpage
  exact (a.page_obeys hbase h).of_run hpage

/-- The second page of a request with two values of a predicate and a text of special characters. -/
def shellsAndStones : Assembly where
  params := ⟨[("prop", ["material---shell", "größe---≥ 3"]), ("q", ["a&b=c+d%?", ""]), ("start", ["20"])]⟩
  query := { rows := 20, start := 20 }
  reply := { numFound := 100 }

/-- Nothing of it is lost in the links of its page, on which no name has a label. -/
theorem links_faithful_shellsAndStones :
    shellsAndStones.params.WellFormed ∧
    Params.parse shellsAndStones.params.toQueryString = shellsAndStones.params ∧
    '?' ∉ shellsAndStones.settings.baseUrl.toList ∧
    ∃ page, (((shellsAndStones.page.run fun _ => (pure none : Lookups Unit _)).run).run ⟨{}, ()⟩).1
        = .ok page ∧ page.Faithful shellsAndStones.params := by
  have hformed : shellsAndStones.params.WellFormed :=
    ⟨by unfold Params.DistinctNames; decide, by decide⟩
  have hbase : '?' ∉ shellsAndStones.settings.baseUrl.toList := by decide
  have hpage := congrArg Prod.fst (Inquiry.run_answer (fun _ => none) shellsAndStones.page
    (⟨{}, ()⟩ : Session Unit))
  have hfaithful := links_faithful hformed
  exact ⟨hformed, hfaithful.1, hbase, _, hpage, hfaithful.2 _ rfl hbase _ _ _ _ hpage⟩

end FacetSearch
