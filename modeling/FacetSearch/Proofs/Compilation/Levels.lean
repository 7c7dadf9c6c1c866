import FacetSearch.Compilation.Compiler
import FacetSearch.Proofs.Compilation.Trail
import FacetSearch.Proofs.Request.Expansion
import Mathlib

set_option autoImplicit false

/-! # Values of hierarchical parameters

The values of a parameter expand to paths, and the paths compile one after the other. When none is
refused, the values expand together (`expand_of_values`), and the alternatives that are found follow
the trails of the paths that resolve, in order (`follows_trails`). -/

namespace FacetSearch.Compiler

/-- The paths that the values of a parameter expand to; none when they are refused. -/
def paths (c : Compiler) (p : Parameter) (values : List String) : List (List String) :=
  ((c.settings.expansion p).expand values).toOption.getD []

/-- The trails of the paths that resolve, in order. -/
def trails (c : Compiler) (answer : String → Option Entity) (family : FieldFamily)
    (paths : List (List String)) : List Trail :=
  paths.filterMap fun names => (c.trail answer (.root family) names).toOption

variable {c : Compiler} {answer : String → Option Entity} {family : FieldFamily}

theorem paths_eq_of_expand {p : Parameter} {values : List String} {found : List (List String)}
    (h : (c.settings.expansion p).expand values = .ok found) : c.paths p values = found := by
  rw [paths, h]
  rfl

/-! ## Compiling values -/

theorem map_snd_sources (c : Compiler) (family : FieldFamily) (value : String)
    (found : List (List String)) :
    (c.sources family value found).map Prod.snd = found := by
  simp [sources, List.map_map, Function.comp_def]

theorem family_of_mem_sources {value : String} {found : List (List String)}
    {x : PathSource × List String} (h : x ∈ c.sources family value found) : x.1.family = family := by
  obtain ⟨y, -, rfl⟩ := List.mem_map.1 h
  rfl

/-- The first of some values that compile has few enough paths, and these compile before the others. -/
theorem values_cons_eq_ok {count : Nat} {raw : String} {rest : List String}
    {outcomes : List PathOutcome}
    (h : Compiling.under answer (c.values family count (raw :: rest)) = .ok outcomes) :
    ∃ here first others, (c.settings.expansion (.levels family)).expand [raw] = .ok here ∧
      count + here.length ≤ c.settings.maxAlternatives ∧
      Compiling.under answer
        ((c.sources family raw here).mapM fun (source, names) => c.path source names) = .ok first ∧
      Compiling.under answer (c.values family (count + here.length) rest) = .ok others ∧
      outcomes = first ++ others := by
  rw [Compiler.values] at h
  simp only [Compiling.under_bind, Compiling.under_known] at h
  obtain ⟨here, hhere, h⟩ := Except.bind_eq_ok h
  by_cases hlimit : c.settings.maxAlternatives < count + here.length
  · rw [if_pos hlimit] at h
    simp only [Compiling.under_bind, Compiling.under_throw] at h
    exact absurd h (by simp [bind, Except.bind])
  · rw [if_neg hlimit] at h
    simp only [Compiling.under_bind, Compiling.under_pure] at h
    obtain ⟨first, hfirst, h⟩ := Except.bind_eq_ok h
    obtain ⟨others, hothers, h⟩ := Except.bind_eq_ok h
    obtain rfl : first ++ others = outcomes := by simpa using h
    exact ⟨here, first, others, hhere, Nat.le_of_not_lt hlimit, hfirst, hothers, rfl⟩

/-- **Values that compile expand together**, and their paths compile one after the other. -/
theorem sources_of_values {count : Nat} {values : List String} {outcomes : List PathOutcome}
    (h : Compiling.under answer (c.values family count values) = .ok outcomes) :
    ∃ sourced : List (PathSource × List String),
      (c.settings.expansion (.levels family)).expand values = .ok (sourced.map Prod.snd) ∧
      (sourced.length = 0 ∨ count + sourced.length ≤ c.settings.maxAlternatives) ∧
      (∀ x ∈ sourced, x.1.family = family) ∧
      List.Forall₂ (fun x outcome => Compiling.under answer (c.path x.1 x.2) = .ok outcome)
        sourced outcomes := by
  induction values generalizing count outcomes with
  | nil =>
      obtain rfl : [] = outcomes := by simpa [Compiler.values] using h
      exact ⟨[], rfl, .inl rfl, by simp, .nil⟩
  | cons raw rest ih =>
      obtain ⟨here, first, others, hhere, hlimit, hfirst, hothers, rfl⟩ := values_cons_eq_ok h
      obtain ⟨sourced, hfound, hcount, hfamily, hall⟩ := ih hothers
      rw [Compiling.under_mapM] at hfirst
      have hlength : (c.sources family raw here).length = here.length := by
        rw [← List.length_map Prod.snd, map_snd_sources]
      -- the paths of this value are counted before those of the values behind it
      refine ⟨c.sources family raw here ++ sourced, ?_, ?_, ?_,
        List.rel_append (Except.forall₂_of_mapM_eq_ok hfirst) hall⟩
      · rw [List.map_append, map_snd_sources]
        refine Expansion.expand_cons hhere hfound ?_
        rw [List.length_map]
        rcases hcount with h | h
        · exact .inl h
        · exact .inr (Nat.le_trans (by omega) h)
      · rw [List.length_append, hlength]
        omega
      · exact List.forall_mem_append.2 ⟨fun x => family_of_mem_sources, hfamily⟩

/-- The paths of values that compile yield what their trails ask for. -/
theorem expand_of_values {count : Nat} {values : List String} {outcomes : List PathOutcome}
    (h : Compiling.under answer (c.values family count values) = .ok outcomes) :
    ∃ found, (c.settings.expansion (.levels family)).expand values = .ok found ∧
      (found.length = 0 ∨ count + found.length ≤ c.settings.maxAlternatives) ∧
      List.Forall₂ (fun names outcome => c.Yields outcome (c.trail answer (.root family) names))
        found outcomes := by
  obtain ⟨sourced, hfound, hcount, hfamily, hall⟩ := sources_of_values h
  refine ⟨_, hfound, by rwa [List.length_map], List.forall₂_map_left_iff.2 ?_⟩
  refine List.forall₂_iff_get.2 ⟨hall.length_eq, ?_⟩
  intro i hi hi'
  have hx := yields_path (hall.get hi hi')
  rwa [hfamily _ (List.get_mem _ ⟨i, hi⟩)] at hx

/-! ## What is found -/

theorem trails_cons_of_error {names : List String} {found : List (List String)} {name : String}
    (h : c.trail answer (.root family) names = .error name) :
    c.trails answer family (names :: found) = c.trails answer family found := by
  rw [trails, List.filterMap_cons_none (by simp [h, Except.toOption]), trails]

theorem trails_cons_of_ok {names : List String} {found : List (List String)} {t : Trail}
    (h : c.trail answer (.root family) names = .ok t) :
    c.trails answer family (names :: found) = t :: c.trails answer family found := by
  rw [trails, List.filterMap_cons_some (b := t) (by simp [h, Except.toOption]), trails]

theorem mem_trails {found : List (List String)} {t : Trail} :
    t ∈ c.trails answer family found
      ↔ ∃ names ∈ found, c.trail answer (.root family) names = .ok t := by
  simp only [trails, List.mem_filterMap]
  refine exists_congr fun names => and_congr_right ?_
  intro _
  cases c.trail answer (.root family) names <;> simp [Except.toOption]

/-- The alternatives that are found follow the trails of the paths that resolve. -/
theorem follows_trails {found : List (List String)} {outcomes : List PathOutcome}
    (h : List.Forall₂ (fun names outcome => c.Yields outcome (c.trail answer (.root family) names))
      found outcomes) :
    List.Forall₂ c.Follows (c.trails answer family found)
      (outcomes.filterMap PathOutcome.alternative?) := by
  induction h with
  | nil => exact .nil
  | @cons names outcome found outcomes hfirst hrest ih =>
      cases ht : c.trail answer (.root family) names with
      | error name =>
          simp only [ht, Yields] at hfirst
          subst hfirst
          rw [trails_cons_of_error ht]
          exact ih
      | ok t =>
          simp only [ht, Yields] at hfirst
          obtain ⟨a, rfl, ha⟩ := hfirst
          rw [trails_cons_of_ok ht]
          exact .cons ha ih

/-- Every path comes to an alternative or to a missing name. -/
theorem eq_nil_of_filterMap_eq_nil {outcomes : List PathOutcome}
    (hfound : outcomes.filterMap PathOutcome.alternative? = [])
    (hmissing : outcomes.filterMap PathOutcome.missing? = []) : outcomes = [] := by
  cases outcomes with
  | nil => rfl
  | cons outcome rest =>
      cases outcome <;> simp [PathOutcome.alternative?, PathOutcome.missing?] at hfound hmissing

end FacetSearch.Compiler
