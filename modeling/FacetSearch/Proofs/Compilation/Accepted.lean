import FacetSearch.Proofs.Compilation.Arrivals
import FacetSearch.Proofs.Request.Params
import Mathlib

set_option autoImplicit false

/-! # Accepted requests

When a request compiles, every value of its hierarchical parameters expands into paths
(`obeys_compile_expand`). Facets come from the ends of paths or are those that every reply carries, so
what holds of both holds of all facets of a query (`invariant_facets`); facets of entities belong to
hierarchical parameters (`obeys_compile_entity`). -/

namespace FacetSearch.Compiler

variable {c : Compiler}

/-! ## Values -/

/-- Every value expands into paths. -/
def Expands (c : Compiler) (family : FieldFamily) (values : List String) : Prop :=
  ∀ raw ∈ values, ∃ paths, (c.settings.expansion (.levels family)).expand [raw] = .ok paths

theorem obeys_values_expand (family : FieldFamily) (count : Nat) (values : List String) :
    (c.values family count values).Obeys (fun _ => True) fun _ => c.Expands family values := by
  induction values generalizing count with
  | nil => exact Compiling.obeys_pure (by simp [Expands])
  | cons raw rest ih =>
      rw [Compiler.values]
      refine Compiling.obeys_bind (P := fun paths =>
        (c.settings.expansion (.levels family)).expand [raw] = .ok paths)
        (Compiling.obeys_known fun _ => id) fun paths hpaths => ?_
      by_cases hlimit : c.settings.maxAlternatives < count + paths.length
      · rw [if_pos hlimit]
        exact Compiling.obeys_bind (P := fun _ => False) (Compiling.obeys_throw _)
          fun _ hfalse => hfalse.elim
      · rw [if_neg hlimit]
        beta_reduce
        refine Compiling.obeys_bind ((obeys_sources family raw paths).mono (fun _ _ => trivial)
          fun _ => id) fun here _ => ?_
        refine Compiling.obeys_bind (ih _) fun others hothers => ?_
        exact Compiling.obeys_pure (List.forall_mem_cons.2 ⟨⟨paths, hpaths⟩, hothers⟩)

theorem obeys_parameter_expand (q : CompiledQuery) (p : Parameter) (values : List String) :
    (c.parameter q p values).Obeys (fun _ => True)
      fun _ => ∀ family, p = .levels family → c.Expands family values := by
  by_cases hlevels : ∃ family, p = .levels family
  · obtain ⟨family, rfl⟩ := hlevels
    refine Compiling.obeys_bind (obeys_values_expand family 0 values) fun outcomes hvalues => ?_
    refine Compiling.obeys_pure ?_
    rintro _ ⟨⟩
    exact hvalues
  · refine (sameRequests_of_not_levels fun family hf => hlevels ⟨family, hf⟩).mono
      (fun _ _ => trivial) fun _ _ family hf => absurd ⟨family, hf⟩ hlevels

theorem obeys_parameters_expand (q : CompiledQuery) (entries : List (String × List String)) :
    (c.parameters q entries).Obeys (fun _ => True)
      fun _ => ∀ (family : FieldFamily) (values : List String),
        ((Parameter.levels family).name, values) ∈ entries → c.Expands family values := by
  induction entries generalizing q with
  | nil => exact Compiling.obeys_pure (by simp)
  | cons entry rest ih =>
      obtain ⟨name, values⟩ := entry
      unfold parameters
      split
      · next hname =>
        refine (ih q).mono (fun _ => id) fun _ hrest family held hmem => ?_
        rcases List.mem_cons.1 hmem with he | hmem
        · obtain ⟨rfl, -⟩ := Prod.mk.inj he
          exact absurd (hname.symm.trans (ofName?_name _)) (by simp)
        · exact hrest family held hmem
      · next p hname =>
        refine Compiling.obeys_bind (obeys_parameter_expand q p values) fun q₁ hhere => ?_
        refine (ih q₁).mono (fun _ => id) fun _ hrest family held hmem => ?_
        rcases List.mem_cons.1 hmem with he | hmem
        · obtain ⟨rfl, rfl⟩ := Prod.mk.inj he
          exact hhere family (Option.some.inj (hname.symm.trans (ofName?_name _)))
        · exact hrest family held hmem

/-- **A request that compiles has values that expand.** -/
theorem obeys_compile_expand (params : Params) :
    (c.compile params).Obeys (fun _ => True) fun _ =>
      ∀ family : FieldFamily, c.Expands family (params.values (Parameter.levels family).name) := by
  refine Compiling.obeys_bind (obeys_parameters_expand _ _) fun q hentries => ?_
  refine Compiling.obeys_pure fun family raw hraw => ?_
  rcases params.mem_or_values_eq_nil (Parameter.levels family).name with hmem | hnil
  · exact hentries family _ hmem raw hraw
  · rw [hnil] at hraw
    exact absurd hraw List.not_mem_nil

/-! ## Facets -/

/-- All facets of a query have a property. -/
def Facets (P : FacetMeta → Prop) (q : CompiledQuery) : Prop :=
  ∀ (field : String) (m : FacetMeta), q.facets[field]? = some m → P m

section Facets

variable {P : FacetMeta → Prop} {q q' : CompiledQuery} {m : FacetMeta}

theorem Facets.insertIfNew (hq : Facets P q) (hm : P m)
    (hfacets : q'.facets = q.facets.insertIfNew m.field m) : Facets P q' := by
  intro field m' h
  rw [hfacets, Std.ExtTreeMap.getElem?_insertIfNew] at h
  split at h
  · exact Option.some.inj h ▸ hm
  · exact hq field m' h

theorem Facets.foldl_addAlternative {found : List Alternative} (hq : Facets P q)
    (hfound : ∀ a ∈ found, ∀ m, a.facet = some m → P m) :
    Facets P (found.foldl CompiledQuery.addAlternative q) := by
  induction found generalizing q with
  | nil => exact hq
  | cons a rest ih =>
      rw [List.forall_mem_cons] at hfound
      refine ih ?_ hfound.2
      have hfacets := facets_addAlternative q a
      split at hfacets
      · next m hm => exact hq.insertIfNew (hfound.1 m hm) hfacets
      · intro field m h
        exact hq field m (hfacets ▸ h)

/-- **What holds of the facets of paths and of those that every reply carries holds of all.** -/
theorem invariant_facets (c : Compiler)
    (harrives : ∀ (family : FieldFamily) (a : Alternative), c.Arrives family a →
      ∀ m, a.facet = some m → P m)
    (hdefault : ∀ params, ∀ m ∈ defaultFacets params, P m) : c.Invariant (Facets P) where
  start field m h := absurd h (by simp [start])
  addPaths {q outcomes family} _ hq hfound field m h := by
    rw [facets_addPaths] at h
    exact hq.foldl_addAlternative (fun a ha => harrives family a (hfound a ha)) field m h
  sameRequests hq hsame field m h := hq field m (hsame.facets ▸ h)
  withFacet facet hmem hq := hq.insertIfNew (hdefault _ facet hmem) rfl

/-- **Facets of entities belong to hierarchical parameters.** -/
theorem obeys_compile_entity (c : Compiler) (params : Params) :
    (c.compile params).Obeys (· ∈ c.askedNames params.entries)
      (Facets fun m => m.kind = .entity → ∃ family, m.parameter = .levels family) := by
  refine (c.invariant_facets ?_ ?_).obeys_compile params
  · rintro family a ⟨source, t, path, -, -, harrival⟩ m hm -
    obtain ⟨_, _, rfl⟩ := facet_arrival harrival hm
    exact ⟨source.family, rfl⟩
  · intro params m hm hkind
    rw [defaultFacets, List.mem_append, List.mem_filterMap] at hm
    rcases hm with ⟨family, -, hm⟩ | hm
    · dsimp only at hm
      split at hm
      · exact absurd hm (by simp)
      · obtain rfl := Option.some.inj hm
        exact ⟨family, rfl⟩
    · simp only [List.mem_cons, List.not_mem_nil, or_false] at hm
      rcases hm with rfl | rfl | rfl <;> exact absurd hkind (by simp)

end Facets

end FacetSearch.Compiler
