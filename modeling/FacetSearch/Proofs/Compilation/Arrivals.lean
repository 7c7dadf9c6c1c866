import FacetSearch.Proofs.Compilation.Frames
import Mathlib

set_option autoImplicit false

/-! # Compilation step by step

A compilation asks only for names that stand in its request, and builds its query in steps of four
sorts: it starts from the empty query, adds the paths of a hierarchical parameter, lets some other
parameter do what leaves the requests to the index alone, and adds a facet that every reply carries.
What holds of the empty query and is kept by the others (`Invariant`) holds of every query that is
compiled, whatever the resolver answers (`Invariant.obeys_compile`). -/

namespace FacetSearch.Compiler

variable {c : Compiler}

/-! ## Paths -/

/-- The alternative is what a path through a hierarchy comes to at the end of a trail. -/
def Arrives (c : Compiler) (family : FieldFamily) (a : Alternative) : Prop :=
  ∃ source t path, source.family = family ∧ t.field.family = family ∧
    c.arrival source t path (requireLevels .empty t) = .ok a

/-- A path asks for its own names, and comes to nothing or to the end of a trail through its
    hierarchy. -/
theorem obeys_pathFrom (source : PathSource) (field : FieldPath) (path : List String) (f : Fragment)
    (names : List String) :
    (c.pathFrom source field path f names).Obeys (· ∈ names.map fun name => (c.unmarked name).1)
      fun outcome => ∀ a, outcome.alternative? = some a →
        ∃ t path, t.field.family = field.family ∧
          c.arrival source t path (requireLevels f t) = .ok a := by
  induction names generalizing field path f with
  | nil =>
      refine Compiling.obeys_known ?_
      intro outcome h
      obtain ⟨a, ha, rfl⟩ := Except.map_eq_ok h
      rintro _ ⟨⟩
      exact ⟨{ field }, path, rfl, ha⟩
  | cons raw rest ih =>
      unfold pathFrom
      by_cases hl : field.kind.isLiteral = true
      · -- the field takes a value, so nothing is asked for any more
        rw [if_pos hl]
        cases rest with
        | nil =>
            refine Compiling.obeys_known ?_
            intro outcome h
            obtain ⟨a, ha, rfl⟩ := Except.map_eq_ok h
            rintro _ ⟨⟩
            exact ⟨{ field, value := some raw }, path, rfl, ha⟩
        | cons next rest => exact Compiling.obeys_throw _
      · rw [if_neg hl]
        refine Compiling.obeys_bind (Compiling.obeys_entity? (List.mem_cons_self ..)) ?_
        intro answer _
        cases answer with
        | none =>
            refine Compiling.obeys_pure ?_
            intro a ha
            exact absurd ha (by simp [PathOutcome.alternative?])
        | some e =>
            refine (ih _ _ (f.require (entityClause field e))).mono
              (fun name => List.mem_cons_of_mem _) ?_
            intro outcome houtcome a ha
            obtain ⟨t, path, hfamily, ht⟩ := houtcome a ha
            exact ⟨{ t with levels := (field, e) :: t.levels }, path, hfamily, ht⟩

/-! ## Values -/

theorem askedBy_levels_cons (c : Compiler) (family : FieldFamily) (raw : String)
    (rest : List String) :
    c.askedBy (.levels family) (raw :: rest)
      = ((c.paths (.levels family) [raw]).flatten.map fun name => (c.unmarked name).1)
        ++ c.askedBy (.levels family) rest := by
  simp only [askedBy, List.flatMap_cons]

/-- The paths of one value ask for the names on them. -/
theorem obeys_sources (family : FieldFamily) (raw : String) (found : List (List String)) :
    Compiling.Obeys (· ∈ found.flatten.map fun name => (c.unmarked name).1)
      (fun outcomes => ∀ a ∈ outcomes.filterMap PathOutcome.alternative?, c.Arrives family a)
      ((c.sources family raw found).mapM fun (source, names) => c.path source names) := by
  have hpath : ∀ x ∈ c.sources family raw found,
      (c.path x.1 x.2).Obeys (· ∈ found.flatten.map fun name => (c.unmarked name).1)
        fun outcome => ∀ a, outcome.alternative? = some a → c.Arrives family a := by
    intro x hx
    have hnames : x.2 ∈ found := by
      rw [← map_snd_sources c family raw found]
      exact List.mem_map_of_mem hx
    refine (obeys_pathFrom x.1 _ [] .empty x.2).mono (fun name hname => ?_) ?_
    · obtain ⟨raw', hraw', rfl⟩ := List.mem_map.1 hname
      exact List.mem_map_of_mem (List.mem_flatten_of_mem hnames hraw')
    · intro outcome houtcome a ha
      obtain ⟨t, path, ht, harrival⟩ := houtcome a ha
      have hx := family_of_mem_sources hx
      exact ⟨x.1, t, path, hx, ht.trans hx, harrival⟩
  refine (Compiling.obeys_mapM hpath).mono (fun _ => id) ?_
  intro outcomes h a ha
  obtain ⟨outcome, houtcome, ha⟩ := List.mem_filterMap.1 ha
  exact h outcome houtcome a ha

theorem obeys_values (family : FieldFamily) (count : Nat) (values : List String) :
    (c.values family count values).Obeys (· ∈ c.askedBy (.levels family) values)
      fun outcomes => ∀ a ∈ outcomes.filterMap PathOutcome.alternative?, c.Arrives family a := by
  induction values generalizing count with
  | nil => exact Compiling.obeys_pure (by simp)
  | cons raw rest ih =>
      rw [Compiler.values, askedBy_levels_cons]
      refine Compiling.obeys_bind (Compiling.obeys_known fun found => paths_eq_of_expand) ?_
      rintro _ rfl
      by_cases hlimit : c.settings.maxAlternatives < count + (c.paths (.levels family) [raw]).length
      · rw [if_pos hlimit]
        exact Compiling.obeys_bind (P := fun _ => False) (Compiling.obeys_throw _)
          fun _ hfalse => hfalse.elim
      · rw [if_neg hlimit]
        beta_reduce
        refine Compiling.obeys_bind ((obeys_sources family raw _).mono
          (fun name => List.mem_append_left _) fun _ => id) fun here hhere => ?_
        refine Compiling.obeys_bind ((ih _).mono (fun name => List.mem_append_right _)
          fun _ => id) fun others hothers => ?_
        refine Compiling.obeys_pure ?_
        rw [List.filterMap_append, List.forall_mem_append]
        exact ⟨hhere, hothers⟩

/-! ## Requests -/

/-- The names that a request may ask for. -/
def askedNames (c : Compiler) (entries : List (String × List String)) : List String :=
  entries.flatMap fun (name, values) =>
    ((Parameter.ofName? name).map fun p => c.askedBy p values).getD []

/-- A property of queries that the parameters of a request keep, when the paths in it lead through
    some hierarchies only. -/
structure Kept (c : Compiler) (F : FieldFamily → Prop) (I : CompiledQuery → Prop) : Prop where
  addPaths : ∀ {q : CompiledQuery} {outcomes : List PathOutcome} {family : FieldFamily}, F family →
    I q → (∀ a ∈ outcomes.filterMap PathOutcome.alternative?, c.Arrives family a) →
    I (q.addPaths outcomes)
  sameRequests : ∀ {q q' : CompiledQuery}, I q → SameRequests q q' → I q'

/-- A property of queries that every step of a compilation keeps. -/
structure Invariant (c : Compiler) (I : CompiledQuery → Prop) : Prop extends
    Kept c (fun _ => True) I where
  start : I c.start
  withFacet : ∀ {q : CompiledQuery} {params : Params}, ∀ facet ∈ defaultFacets params, I q →
    I (Compiler.withFacet q facet)

section Steps

variable {F : FieldFamily → Prop} {I : CompiledQuery → Prop} {q : CompiledQuery}

theorem Kept.obeys_parameter (h : c.Kept F I) {p : Parameter} {values : List String}
    (hp : ∀ family, p = .levels family → values ≠ [] → F family) (hq : I q) :
    (c.parameter q p values).Obeys (· ∈ c.askedBy p values) I := by
  by_cases hlevels : ∃ family, p = .levels family
  · obtain ⟨family, rfl⟩ := hlevels
    by_cases hvalues : values = []
    · subst hvalues
      exact Compiling.obeys_bind (P := (· = [])) (Compiling.obeys_pure rfl) fun outcomes he =>
        Compiling.obeys_pure (he ▸ hq)
    · refine Compiling.obeys_bind (obeys_values family 0 values) ?_
      intro outcomes houtcomes
      exact Compiling.obeys_pure (h.addPaths (hp family rfl hvalues) hq houtcomes)
  · refine (sameRequests_of_not_levels fun family hf => hlevels ⟨family, hf⟩).mono (fun _ => id) ?_
    intro q' hsame
    exact h.sameRequests hq hsame

theorem Kept.obeys_parameters (h : c.Kept F I) {entries : List (String × List String)}
    (hentries : ∀ family values, ((Parameter.levels family).name, values) ∈ entries → values ≠ [] →
      F family) (hq : I q) :
    (c.parameters q entries).Obeys (· ∈ c.askedNames entries) I := by
  induction entries generalizing q with
  | nil => exact Compiling.obeys_pure hq
  | cons entry rest ih =>
      obtain ⟨name, values⟩ := entry
      have ih {q : CompiledQuery} (hq : I q) :=
        ih (fun family held hmem => hentries family held (List.mem_cons_of_mem _ hmem)) hq
      have hrest : ∀ name' ∈ c.askedNames rest, name' ∈ c.askedNames ((name, values) :: rest) := by
        intro name' hname
        rw [askedNames, List.flatMap_cons]
        exact List.mem_append_right _ hname
      unfold parameters
      split
      · exact (ih hq).mono hrest fun _ => id
      · next p hp =>
        have hfamily : ∀ family, p = .levels family → values ≠ [] → F family := by
          rintro family rfl
          exact hentries family values (name_of_ofName? hp ▸ List.mem_cons_self ..)
        refine Compiling.obeys_bind ((h.obeys_parameter hfamily hq).mono (fun name' hname => ?_)
          fun _ => id) fun q₁ hq₁ => (ih hq₁).mono hrest fun _ => id
        rw [askedNames, List.flatMap_cons]
        exact List.mem_append_left _ (by simpa only [hp, Option.map_some, Option.getD_some] using hname)

/-- **What every step keeps holds of every query that is compiled**, and a compilation asks for the
    names in its request only. -/
theorem Invariant.obeys_compile (h : c.Invariant I) (params : Params) :
    (c.compile params).Obeys (· ∈ c.askedNames params.entries) I := by
  have hfacets : ∀ facets : List FacetMeta, (∀ facet ∈ facets, facet ∈ defaultFacets params) →
      ∀ q, I q → I (facets.foldl Compiler.withFacet q) := by
    intro facets
    induction facets with
    | nil => exact fun _ _ hq => hq
    | cons facet rest ih =>
        intro hmem q hq
        rw [List.foldl_cons]
        exact ih (fun m hm => hmem m (List.mem_cons_of_mem _ hm)) _
          (h.withFacet facet (hmem facet (List.mem_cons_self ..)) hq)
  refine Compiling.obeys_bind (h.obeys_parameters (fun _ _ _ _ => trivial) h.start) ?_
  intro q hq
  exact Compiling.obeys_pure (hfacets _ (fun _ => id) q hq)

end Steps

end FacetSearch.Compiler
