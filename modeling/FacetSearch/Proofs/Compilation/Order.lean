import FacetSearch.Proofs.Compilation.Effects
import Mathlib

set_option autoImplicit false

/-! # Order of parameters

Requests with the same parameters in different orders come to the same query (`compile_perm`). Two
neighbours can be exchanged, since their effects can and neither decides whether the other is refused,
and what stands behind them makes the same of queries that agree. -/

namespace FacetSearch

namespace Compiler

variable {c : Compiler} {answer : String → Option Entity}

/-! ## Requests -/

/-- Both are refused, or both come to queries that agree. -/
inductive SameOutcome :
    Except RequestError CompiledQuery → Except RequestError CompiledQuery → Prop where
  | refused (e e' : RequestError) : SameOutcome (.error e) (.error e')
  | compiled {q q' : CompiledQuery} (h : q.Agrees q') : SameOutcome (.ok q) (.ok q')

theorem SameOutcome.refl (x : Except RequestError CompiledQuery) : SameOutcome x x := by
  cases x with
  | error e => exact .refused e e
  | ok q => exact .compiled (.refl q)

theorem SameOutcome.trans {x y z : Except RequestError CompiledQuery} (h : SameOutcome x y)
    (h' : SameOutcome y z) : SameOutcome x z := by
  cases h with
  | refused e e' => cases h' with
    | refused _ e'' => exact .refused e e''
  | compiled h => cases h' with
    | compiled h' => exact .compiled (h.trans h')

/-- An entry of a request is refused whatever the query is, or the others are compiled behind its
    effect. -/
theorem refused_or_effect (c : Compiler) (answer : String → Option Entity)
    (entry : String × List String) :
    (∃ e, ∀ q rest, Compiling.under answer (c.parameters q (entry :: rest)) = .error e) ∨
      ∃ g, Effect entry.1 g ∧ ∀ q rest, Compiling.under answer (c.parameters q (entry :: rest))
        = Compiling.under answer (c.parameters (g q) rest) := by
  obtain ⟨name, values⟩ := entry
  cases hp : Parameter.ofName? name with
  | none =>
      refine .inr ⟨fun q => q, .unchanged name, fun q rest => ?_⟩
      rw [parameters]
      simp only [hp]
  | some p =>
      have hstep (q : CompiledQuery) (rest : List (String × List String)) :
          Compiling.under answer (c.parameters q ((name, values) :: rest))
            = Compiling.under answer (c.parameter q p values) >>= fun q =>
                Compiling.under answer (c.parameters q rest) := by
        rw [parameters]
        simp only [hp, Compiling.under_bind]
      obtain rfl := name_of_ofName? hp
      rcases acts_parameter c answer p values with ⟨e, he⟩ | ⟨g, hg, hok⟩
      · beta_reduce at he
        exact .inl ⟨e, fun q rest => by rw [hstep, he]; rfl⟩
      · beta_reduce at hok
        exact .inr ⟨g, hg, fun q rest => by rw [hstep, hok]; rfl⟩

/-- Queries that agree come to queries that agree. -/
theorem sameOutcome_parameters {q q' : CompiledQuery} (h : q.Agrees q')
    (entries : List (String × List String)) :
    SameOutcome (Compiling.under answer (c.parameters q entries))
      (Compiling.under answer (c.parameters q' entries)) := by
  induction entries generalizing q q' with
  | nil => exact .compiled h
  | cons entry rest ih =>
      rcases refused_or_effect c answer entry with ⟨e, he⟩ | ⟨g, hg, hrest⟩
      · rw [he, he]
        exact .refl _
      · rw [hrest, hrest]
        exact ih (hg.agrees h)

/-- **Entries with different names may come in any order.** -/
theorem sameOutcome_of_perm (c : Compiler) (answer : String → Option Entity)
    {entries entries' : List (String × List String)}
    (hperm : entries.Perm entries') (hnames : (entries.map Prod.fst).Nodup) (q : CompiledQuery) :
    SameOutcome (Compiling.under answer (c.parameters q entries))
      (Compiling.under answer (c.parameters q entries')) := by
  induction hperm generalizing q with
  | nil => exact .refl _
  | cons entry _ ih =>
      rcases refused_or_effect c answer entry with ⟨e, he⟩ | ⟨g, -, hrest⟩
      · rw [he, he]
        exact .refl _
      · rw [hrest, hrest]
        exact ih (List.nodup_cons.1 hnames).2 (g q)
  | swap first second rest =>
      have hne : second.1 ≠ first.1 := fun he =>
        (List.nodup_cons.1 hnames).1 (he ▸ List.mem_cons_self ..)
      rcases refused_or_effect c answer first with ⟨e, he⟩ | ⟨g, hg, hfirst⟩
      · rcases refused_or_effect c answer second with ⟨e', he'⟩ | ⟨g', -, hsecond⟩
        · rw [he, he']
          exact .refused _ _
        · rw [he, hsecond, he]
          exact .refl _
      · rcases refused_or_effect c answer second with ⟨e', he'⟩ | ⟨g', hg', hsecond⟩
        · rw [he', hfirst, he']
          exact .refl _
        · rw [hsecond, hfirst, hfirst, hsecond]
          exact sameOutcome_parameters (hg.comm hg' hne.symm q) rest
  | trans hleft _ ih ih' =>
      exact (ih hnames q).trans (ih' ((hleft.map Prod.fst).nodup_iff.1 hnames) q)

/-! ## Default facets -/

/-- Queries that agree still do with a facet that every reply carries. -/
theorem agrees_withFacet {q q' : CompiledQuery} (h : q.Agrees q') (m : FacetMeta) :
    (withFacet q m).Agrees (withFacet q' m) := by
  have hfields : CompiledQuery.Agrees
      { q with fragment := { q.fragment with
        facetFields := q.fragment.facetFields.insert m.field } }
      { q' with fragment := { q'.fragment with
        facetFields := q'.fragment.facetFields.insert m.field } } := by
    constructor
    · intro s
      have hs := h.slots s
      cases s <;> exact hs
    · intro entry
      have hentry := h.entries entry
      cases entry with
      | facetField field =>
          exact Std.ExtTreeSet.mem_insert.trans
            ((or_congr_right hentry).trans Std.ExtTreeSet.mem_insert.symm)
      | _ => exact hentry
  unfold withFacet
  rw [CompiledQuery.addFacet_eq_write, CompiledQuery.addFacet_eq_write]
  exact hfields.write (.facet m.field) fun held => held.or (some m)

theorem agrees_foldl_withFacet {q q' : CompiledQuery} (h : q.Agrees q') (facets : List FacetMeta) :
    (facets.foldl withFacet q).Agrees (facets.foldl withFacet q') := by
  induction facets generalizing q q' with
  | nil => exact h
  | cons m rest ih => exact ih (agrees_withFacet h m)

theorem defaultFacets_eq_of_perm {p p' : Params} (hnames : p.DistinctNames)
    (hperm : p.entries.Perm p'.entries) : defaultFacets p = defaultFacets p' := by
  have hcontains (name : String) : p.contains name = p'.contains name := by
    rw [Params.contains, Params.contains, Params.values_eq_of_perm hnames hperm]
  simp only [defaultFacets, hcontains]

theorem sameOutcome_compile (c : Compiler) (answer : String → Option Entity) {p p' : Params}
    (hnames : p.DistinctNames) (hperm : p.entries.Perm p'.entries) :
    SameOutcome (Compiling.under answer (c.compile p)) (Compiling.under answer (c.compile p')) := by
  simp only [compile, Compiling.under_bind, Compiling.under_pure, defaultFacets_eq_of_perm hnames hperm]
  have hsame := sameOutcome_of_perm c answer hperm hnames c.start
  generalize Compiling.under answer (c.parameters c.start p.entries) = x at hsame
  generalize Compiling.under answer (c.parameters c.start p'.entries) = x' at hsame
  cases hsame with
  | refused e e' => exact .refused e e'
  | compiled h => exact .compiled (agrees_foldl_withFacet h _)

end Compiler

/-! ## Queries but for their order -/

/-- Two queries that differ in nothing but the order of what they list. -/
structure CompiledQuery.SameButOrder (q q' : CompiledQuery) : Prop where
  query : q.query = q'.query
  sort : q.sort = q'.sort
  rows : q.rows = q'.rows
  start : q.start = q'.start
  returnFields : q.returnFields = q'.returnFields
  chronoDepth : q.chronoDepth = q'.chronoDepth
  geoDepth : q.geoDepth = q'.geoDepth
  facets : q.facets = q'.facets
  ranges : q.ranges = q'.ranges
  facetFields : q.fragment.facetFields = q'.fragment.facetFields
  statsFields : q.fragment.statsFields = q'.fragment.statsFields
  rangeRequests : q.fragment.ranges = q'.fragment.ranges
  awaited : q.fragment.awaited = q'.fragment.awaited
  clauses : ∀ text, text ∈ Clause.texts q.fragment.clauses ↔ text ∈ Clause.texts q'.fragment.clauses
  highlights : ∀ term, term ∈ q.fragment.highlights ↔ term ∈ q'.fragment.highlights
  unresolved : ∀ name, name ∈ q.unresolved ↔ name ∈ q'.unresolved
  rejected : ∀ filter, filter ∈ q.rejected ↔ filter ∈ q'.rejected

theorem CompiledQuery.Agrees.sameButOrder {q q' : CompiledQuery} (h : q.Agrees q') :
    q.SameButOrder q' where
  query := h.slots .query
  sort := h.slots .sort
  rows := h.slots .rows
  start := h.slots .start
  returnFields := h.slots .returnFields
  chronoDepth := h.slots .chronoDepth
  geoDepth := h.slots .geoDepth
  facets := Std.ExtTreeMap.ext_getElem? fun field => h.slots (.facet field)
  ranges := Std.ExtTreeMap.ext_getElem? fun field => h.slots (.range field)
  facetFields := Std.ExtTreeSet.ext_mem fun field => h.entries (.facetField field)
  statsFields := Std.ExtTreeSet.ext_mem fun field => h.entries (.statsField field)
  rangeRequests := Std.ExtTreeMap.ext_getElem? fun field => h.slots (.buckets field)
  awaited := Std.ExtTreeSet.ext_mem fun field => h.entries (.awaited field)
  clauses text := h.entries (.clause text)
  highlights term := h.entries (.highlight term)
  unresolved name := h.entries (.unresolved name)
  rejected filter := h.entries (.rejected filter)

namespace Compiler

/-- **The order in which a request lists its parameters is irrelevant.** Requests with the same
    parameters are refused together, or they come to queries that differ in nothing but the order of
    what they list. -/
theorem compile_perm (c : Compiler) (answer : String → Option Entity) {p p' : Params}
    (hnames : p.DistinctNames) (hperm : p.entries.Perm p'.entries) :
    (Compiling.under answer (c.compile p)).isOk = (Compiling.under answer (c.compile p')).isOk ∧
    ∀ q q', Compiling.under answer (c.compile p) = .ok q →
      Compiling.under answer (c.compile p') = .ok q' → q.SameButOrder q' := by
  have hsame := sameOutcome_compile c answer hnames hperm
  generalize Compiling.under answer (c.compile p) = x at hsame
  generalize Compiling.under answer (c.compile p') = x' at hsame
  cases hsame with
  | refused e e' => exact ⟨rfl, by simp⟩
  | compiled h =>
      refine ⟨rfl, ?_⟩
      rintro _ _ ⟨⟩ ⟨⟩
      exact h.sameButOrder

/-- The request of weights and media with its parameters the other way round. -/
def mediaFirst : Params := ⟨[("type", ["media||nothing"]), ("prop", ["weight---10,||10,20", "nowhere"])]⟩

/-- Both compile, to the same query. -/
theorem compile_perm_mediaFirst :
    weightRequest.DistinctNames ∧ weightRequest.entries.Perm mediaFirst.entries ∧
      ∃ q q', Compiling.under onlyWeight (afterReply.compile weightRequest) = .ok q ∧
        Compiling.under onlyWeight (afterReply.compile mediaFirst) = .ok q' ∧ q.SameButOrder q' := by
  have hnames : weightRequest.DistinctNames := by
    unfold Params.DistinctNames
    decide +kernel
  have hperm : weightRequest.entries.Perm mediaFirst.entries := .swap _ _ _
  obtain ⟨hok, hsame⟩ := compile_perm afterReply onlyWeight hnames hperm
  have hfirst : (Compiling.under onlyWeight (afterReply.compile weightRequest)).isOk = true := by
    decide +kernel
  cases hq : Compiling.under onlyWeight (afterReply.compile weightRequest) with
  | error e => exact absurd (hq ▸ hfirst) (by simp [Except.isOk, Except.toBool])
  | ok q =>
      cases hq' : Compiling.under onlyWeight (afterReply.compile mediaFirst) with
      | error e => exact absurd (hq' ▸ hok ▸ hfirst) (by simp [Except.isOk, Except.toBool])
      | ok q' => exact ⟨hnames, hperm, q, q', rfl, rfl, hsame q q' hq hq'⟩

end Compiler

end FacetSearch
